import PodCompiler.Lowering.LiteralClass
import PodCompiler.Proofs.Lowering.ClassSteps

namespace PodCompiler.Pod

-- The fields of different literals of one kind have different names.
theorem LiteralKind.fieldName_inj {kind : LiteralKind} {a b : Nat}
    (h : kind.fieldName a = kind.fieldName b) : a = b := by
  have hrepr : a.repr = b.repr := (String.append_right_inj _).mp h
  have hdigits : Nat.toDigits 10 a = Nat.toDigits 10 b := String.ofList_injective hrepr
  calc
    a = Nat.ofDigitChars 10 (Nat.toDigits 10 a) 0 :=
      (Nat.ofDigitChars_toDigits (by decide) (by decide)).symm
    _ = Nat.ofDigitChars 10 (Nat.toDigits 10 b) 0 := by rw [hdigits]
    _ = b := Nat.ofDigitChars_toDigits (by decide) (by decide)

-- The kind of the literals that an instruction loads.
def LiteralKind.ofOp? : Opcode → Option LiteralKind
  | .loadInt => some .int
  | .loadFloat => some .float
  | .loadDecimal => some .decimal
  | .loadStr => some .str
  | .loadDuration => some .duration
  | .loadUri => some .uri
  | _ => none

-- The field of an integer holds it.
theorem Literals.get?_int {l : Literals} {k : Nat} {v : Int64} (h : l.ints[k]? = some v) :
    l.get? (LiteralKind.int.fieldName k) = some (.int v) := by
  obtain ⟨hk, hv⟩ := Array.getElem?_eq_some_iff.mp h
  unfold get? values
  rw [LiteralKind.all, List.flatMap_cons, List.find?_append]
  have hfind : (((LiteralKind.int.literals l).zipIdx.map fun p =>
      (LiteralKind.int.fieldName p.2, p.1)).find? (·.1 = LiteralKind.int.fieldName k)) =
        some (LiteralKind.int.fieldName k, .int v) := by
    rw [List.find?_eq_some_iff_getElem]
    refine ⟨by simp, k, by simpa [LiteralKind.literals] using hk, ?_, ?_⟩
    · simp [LiteralKind.literals, hv]
    · intro j hj
      have hne : LiteralKind.int.fieldName j ≠ LiteralKind.int.fieldName k :=
        fun heq => Nat.ne_of_lt hj (LiteralKind.fieldName_inj heq)
      simpa [LiteralKind.literals] using hne
  rw [hfind]
  rfl
end PodCompiler.Pod

namespace PodCompiler.Lowering

open ClassFile (Constants)
open ClassFile.Op
open Pod (LiteralKind)

-- An item without a constant stays as it is.
theorem Item.Interned.eq_single {env : ClassEnv} {c c' : OpenClass} {r : Item Ref}
    {b : Item UInt16} {its : List (Item UInt16)} (hr : ∀ c, r.mapM Ref.intern env c = .ok b c)
    (h : Item.Interned env c [r] its c') : its = [b] := by
  cases h with
  | cons hitem hnil =>
    rw [hr] at hitem
    cases hitem
    cases hnil
    rfl

-- So do instructions without operands.
theorem Item.Interned.eq_ops {env : ClassEnv} {c c' : OpenClass} (codes : List UInt8)
    {its : List (Item UInt16)} (h : Item.Interned env c (codes.map .op) its c') :
    its = codes.map .op := by
  induction codes generalizing its c with
  | nil =>
    cases h
    rfl
  | cons o codes ih =>
    cases h with
    | cons hitem hrest =>
      cases hitem
      rw [ih hrest, List.map_cons]

-- And so does a comparison with the jump behind it.
theorem Item.Interned.eq_fused {env : ClassEnv} {c c' : OpenClass} {q : Nat} (codes : List UInt8)
    {op : UInt8} {sense : Bool} {target : UInt16} {its : List (Item UInt16)}
    (h : Item.Interned env c (Comparison.fusedJump q (codes.map .op) op sense target).items its c') :
    its = .mark q :: (codes.map .op ++
      [Item.jump .branch (if sense then op else negateBranch op) target]) := by
  cases h with
  | cons hmark hrest =>
    cases hmark
    obtain ⟨ops, last, c₂, rfl, hops, hlast⟩ := hrest.append_left
    rw [hops.eq_ops codes, hlast.eq_single fun _ => rfl]

-- A constant is found under its index as soon as it is in the pool.
theorem intern_field_eq_ok {env : ClassEnv} {c c' : OpenClass} {sig : String} {i : UInt16}
    (hc : c.WellFormed env) (h : Ref.intern (.field sig) env c = .ok i c') :
    Constants.field? c'.draft.pool.get? i = some sig := by
  obtain ⟨p, hp, rfl⟩ := ClassM.onPool_eq_ok.mp h
  exact (ClassFile.Pool.field_eq_ok hc.pool hp).2.2

theorem intern_method_eq_ok {env : ClassEnv} {c c' : OpenClass} {sig : String} {i : UInt16}
    (hc : c.WellFormed env) (h : Ref.intern (.method sig) env c = .ok i c') :
    Constants.method? c'.draft.pool.get? i = some sig := by
  obtain ⟨p, hp, rfl⟩ := ClassM.onPool_eq_ok.mp h
  exact (ClassFile.Pool.method_eq_ok hc.pool hp).2.2

-- What a class has in its pool it keeps.
theorem OpenClass.Advances.extends {env : ClassEnv} {c c' : OpenClass}
    (h : OpenClass.Advances env c c') (hc : c.WellFormed env) :
    Constants.Extends c'.draft.pool.get? c.draft.pool.get? := by
  obtain ⟨hc', hgrows⟩ := h hc
  exact hgrows.extends hc'.pool

theorem plain_eq_ok {items : List (Item Ref)} {slots slots' : FinallySlots} {env : ClassEnv}
    {c c' : OpenClass} {fused : Bool} {its : List (Item UInt16)}
    (h : plain items ⟨#[], slots⟩ env c = .ok (fused, ⟨its.toArray, slots'⟩) c') :
    Item.Interned env c items its c' := by
  obtain ⟨u, s₁, c₁, h₁, h₂⟩ := BodyM.bind_eq_ok.mp h
  obtain ⟨js, hjs, rfl⟩ := BodyM.emit_eq_ok.mp h₁
  obtain ⟨-, hs, rfl⟩ := BodyM.pure_eq_ok.mp h₂
  have hits : its = js := by simpa using congrArg (fun s => s.items.toList) hs
  rw [hits]
  exact hjs

section Core

variable {env : ClassEnv} {f : Frame} {i : Instr} {next : Following} {e e' : EmitState}
  {fused : Bool} {its : List (Item UInt16)}

theorem Emits.nop (h : Emits env f i next e fused its e') (hop : i.op = .nop) : its = [] := by
  unfold Emits emitInstr at h
  rw [hop] at h
  obtain ⟨-, hs, -⟩ := BodyM.pure_eq_ok.mp h
  simpa using congrArg BodyState.items hs

theorem Emits.loadBool (h : Emits env f i next e fused its e') (b : Bool)
    (hop : i.op = if b then .loadTrue else .loadFalse) :
    its = [.op (if b then iconst1 else iconst0)] := by
  unfold Emits emitInstr at h
  rw [hop] at h
  cases b with
  | true => exact (plain_eq_ok h).eq_single fun _ => rfl
  | false => exact (plain_eq_ok h).eq_single fun _ => rfl

-- The variable of a register.
theorem variableOf_eq_ok {l : Local} (h : variableOf f i = .ok l) : f.local? i.arg = some l := by
  unfold variableOf at h
  split at h
  · cases h
    assumption
  · cases h

theorem Emits.loadVar (h : Emits env f i next e fused its e') (hop : i.op = .loadVar) :
    ∃ l, f.local? i.arg = some l ∧ its = [.load l.stack l.slot.toUInt16] := by
  unfold Emits emitInstr at h
  rw [hop] at h
  obtain ⟨l, s₁, c₁, h₁, h₂⟩ := BodyM.bind_eq_ok.mp h
  obtain ⟨hl, rfl, rfl⟩ := BodyM.ofExcept_eq_ok.mp h₁
  exact ⟨l, variableOf_eq_ok hl, (plain_eq_ok h₂).eq_single fun _ => rfl⟩

theorem Emits.storeVar (h : Emits env f i next e fused its e') (hop : i.op = .storeVar) :
    ∃ l, f.local? i.arg = some l ∧ its = [.store l.stack l.slot.toUInt16] := by
  unfold Emits emitInstr at h
  rw [hop] at h
  obtain ⟨l, s₁, c₁, h₁, h₂⟩ := BodyM.bind_eq_ok.mp h
  obtain ⟨hl, rfl, rfl⟩ := BodyM.ofExcept_eq_ok.mp h₁
  exact ⟨l, variableOf_eq_ok hl, (plain_eq_ok h₂).eq_single fun _ => rfl⟩

theorem Emits.branch (h : Emits env f i next e fused its e') {b : Item UInt16}
    (hb : branchItem? i = some b) : its = [b] := by
  obtain ⟨-, hits⟩ := emitInstr_branch hb h
  simpa using congrArg Array.toList hits

theorem Emits.dup (h : Emits env f i next e fused its e') (hop : i.op = .dup) :
    ∃ t, typeRefAt env.pod.symbols i.arg = .ok t ∧
      its = [.op (if t.isWide then dup2 else ClassFile.Op.dup)] := by
  unfold Emits emitInstr at h
  rw [hop] at h
  obtain ⟨t, s₁, c₁, h₁, h₂⟩ := BodyM.bind_eq_ok.mp h
  obtain ⟨ht, rfl⟩ := BodyM.lift_eq_ok.mp h₁
  exact ⟨t, (typeRef_eq_ok.mp ht).1, (plain_eq_ok h₂).eq_single fun _ => rfl⟩

theorem Emits.pop (h : Emits env f i next e fused its e') (hop : i.op = .pop) :
    ∃ t, typeRefAt env.pod.symbols i.arg = .ok t ∧
      (t.isVoid = false → its = [.op (if t.isWide then pop2 else ClassFile.Op.pop)]) := by
  unfold Emits emitInstr at h
  rw [hop] at h
  obtain ⟨t, s₁, c₁, h₁, h₂⟩ := BodyM.bind_eq_ok.mp h
  obtain ⟨ht, rfl⟩ := BodyM.lift_eq_ok.mp h₁
  refine ⟨t, (typeRef_eq_ok.mp ht).1, ?_⟩
  intro hvoid
  have hits := plain_eq_ok h₂
  rw [popItems, hvoid] at hits
  exact hits.eq_single fun _ => rfl

theorem Emits.returnObj (h : Emits env f i next e fused its e') (hop : i.op = .returnObj) :
    its = [.op (returnOp f.ret)] := by
  unfold Emits emitInstr at h
  rw [hop] at h
  exact (plain_eq_ok h).eq_single fun _ => rfl

-- A call that becomes plain instructions.
theorem Emits.call (h : Emits env f i next e fused its e') (he : e.cls.WellFormed env)
    {kind : CallKind}
    (hop : i.op = .callStatic ∧ kind = .static ∨ i.op = .callVirtual ∧ kind = .virtual)
    {codes : List UInt8}
    (hcall : Resolver.computeCall env.pod.symbols i.arg kind = .ok (.intrinsic (.ops codes))) :
    its = codes.map .op := by
  have hrun : emitCall kind i ⟨#[], e.slots⟩ env e.cls = .ok ((), ⟨its.toArray, e'.slots⟩) e'.cls := by
    unfold Emits emitInstr at h
    obtain ⟨hop, rfl⟩ | ⟨hop, rfl⟩ := hop
    all_goals
      rw [hop] at h
      obtain ⟨u, s₁, c₁, h₁, h₂⟩ := BodyM.bind_eq_ok.mp h
      obtain ⟨rfl, rfl, rfl⟩ := BodyM.pure_eq_ok.mp h₂
      exact h₁
  obtain ⟨call, c₁, hresolved, hemit⟩ := emitCall_eq_ok hrun
  obtain ⟨hcall', -, -⟩ := ClassM.onResolver_call_eq_ok he hresolved
  rw [hcall] at hcall'
  cases hcall'
  obtain ⟨js, hjs, hs⟩ := BodyM.emit_eq_ok.mp hemit
  have hits : its = js := by simpa using congrArg (fun s => s.items.toList) hs
  rw [hits]
  exact hjs.eq_ops codes

-- An instruction that loads a literal: the literal is in its table, and the field of it is read; what
-- takes a primitive out of the object follows.
theorem Emits.literal (h : Emits env f i next e fused its e') {kind : LiteralKind}
    (hop : LiteralKind.ofOp? i.op = some kind) :
    i.arg.toNat < kind.count env.pod.literals ∧
      Item.Interned env e.cls (.const getStatic (.field
        s!"{literalClass env.pod.name}.{kind.fieldName i.arg.toNat}:{kind.desc}") ::
          literalValue kind) its e'.cls := by
  have hrun : emitLiteral kind i ⟨#[], e.slots⟩ env e.cls =
      .ok ((), ⟨its.toArray, e'.slots⟩) e'.cls := by
    unfold Emits emitInstr at h
    unfold LiteralKind.ofOp? at hop
    split at hop
    all_goals cases hop
    all_goals
      rename_i heq
      rw [heq] at h
      obtain ⟨u, s₁, c₁, h₁, h₂⟩ := BodyM.bind_eq_ok.mp h
      obtain ⟨-, rfl, rfl⟩ := BodyM.pure_eq_ok.mp h₂
      exact h₁
  obtain ⟨env', s₂, c₂, h₃, h₄⟩ := BodyM.bind_eq_ok.mp hrun
  obtain ⟨rfl, rfl, rfl⟩ := BodyM.read_eq_ok.mp h₃
  obtain ⟨r, s₃, c₃, h₅, h₆⟩ := BodyM.bind_eq_ok.mp h₄
  obtain ⟨hr, rfl, rfl⟩ := BodyM.ofExcept_eq_ok.mp h₅
  obtain ⟨js, hjs, hs⟩ := BodyM.emit_eq_ok.mp h₆
  have hits : its = js := by simpa using congrArg (fun s => s.items.toList) hs
  subst hits
  unfold literalRef at hr
  dsimp only at hr
  split at hr
  · rename_i hlt
    cases hr
    exact ⟨hlt, hjs⟩
  · cases hr

-- The field of an integer, and the method that takes the number out of its object.
theorem Emits.loadInt (h : Emits env f i next e fused its e') (he : e.cls.WellFormed env)
    (hop : i.op = .loadInt) :
    ∃ field getter, its = [.const getStatic field, .const invokeVirtual getter] ∧
      Constants.field? e'.cls.draft.pool.get? field =
        some s!"{literalClass env.pod.name}.{Pod.LiteralKind.int.fieldName i.arg.toNat}:{Pod.LiteralKind.int.desc}" ∧
      Constants.method? e'.cls.draft.pool.get? getter = some "java/lang/Long.longValue()J" := by
  have hkind : LiteralKind.ofOp? i.op = some .int := by rw [hop]; rfl
  obtain ⟨-, hits⟩ := h.literal hkind
  cases hits with
  | cons hfirst hrest =>
    cases hrest with
    | cons hsecond hnil =>
      cases hnil
      obtain ⟨field, hfield, rfl⟩ := ClassM.map_eq_ok.mp hfirst
      obtain ⟨getter, hgetter, rfl⟩ := ClassM.map_eq_ok.mp hsecond
      have hadvances := ClassM.advancing_intern _ _ _ _ _ hfield
      have hgrows := ClassM.advancing_intern _ _ _ _ _ hgetter
      obtain ⟨he₁, -⟩ := hadvances he
      refine ⟨field, getter, rfl, ?_, intern_method_eq_ok he₁ hgetter⟩
      exact (hgrows.extends he₁).field? (intern_field_eq_ok he hfield)

end Core

end PodCompiler.Lowering
