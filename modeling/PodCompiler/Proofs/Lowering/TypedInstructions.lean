import PodCompiler.Proofs.Lowering.CallingConvention
import PodCompiler.Proofs.Lowering.CodeStream
import PodCompiler.Proofs.Lowering.KeptTypes
import PodCompiler.Proofs.Lowering.Room
import PodCompiler.Proofs.Lowering.TypedComparisons
import PodCompiler.Proofs.Lowering.UncheckedFinally

namespace PodCompiler.Lowering

open ClassFile (CodeBuffer Constants Member)
open ClassFile.Op
open Jvm (CallMode Kind Signature TypeChecks opKinds)

-- Whether an item is as long as it says and opens and closes no scope.
def Item.isSteady {ρ : Type} : Item ρ → Bool
  | .mark _ | .jump .. => true
  | x => x.isInert

-- What is put into the pool is found there, as it was named.
theorem Ref.names_of_intern {env : ClassEnv} {c c' : OpenClass} {ref : Ref} {i : UInt16}
    {k : Constants} (hc : c.WellFormed env) (h : ref.intern env c = .ok i c')
    (hk : k.Extends c'.draft.pool.get?) : ref.Names c.draft.name k i := by
  cases ref with
  | class_ name =>
    obtain ⟨p, hp, rfl⟩ := ClassM.onPool_eq_ok.mp h
    exact hk.className? (ClassFile.Pool.class_eq_ok hc.pool hp).2.2
  | string text =>
    obtain ⟨p, hp, rfl⟩ := ClassM.onPool_eq_ok.mp h
    exact hk.string? (ClassFile.Pool.string_eq_ok hc.pool hp).2.2
  | field sig =>
    obtain ⟨p, hp, rfl⟩ := ClassM.onPool_eq_ok.mp h
    obtain ⟨m, hm, hi⟩ := ClassFile.Pool.fieldMember_eq_ok hc.pool hp
    exact ⟨m, hm, hk.fieldMember? hi⟩
  | method sig =>
    obtain ⟨p, hp, rfl⟩ := ClassM.onPool_eq_ok.mp h
    obtain ⟨m, hm, hi⟩ := ClassFile.Pool.methodMember_eq_ok hc.pool hp
    exact ⟨m, hm, hk.methodMember? hi⟩
  | interfaceMethod sig => trivial
  | typeLiteral signature =>
    obtain ⟨sig, c₁, hsig, hintern⟩ := ClassM.bind_eq_ok.mp h
    obtain ⟨p, hp, rfl⟩ := ClassM.onPool_eq_ok.mp hintern
    obtain ⟨n, hn, rfl⟩ := typeLiteralField_eq_ok hsig
    rw [(literalIndex_eq_ok hn).2.1] at hp
    obtain ⟨m, hm, hi⟩ := ClassFile.Pool.fieldMember_eq_ok hc.pool hp
    exact ⟨n, m, hm, hk.fieldMember? hi⟩

-- The index of a constant takes its place in an item.
theorem Item.isSteady_of_mapM {env : ClassEnv} {c c' : OpenClass} {x : Item Ref} {y : Item UInt16}
    (h : x.mapM Ref.intern env c = .ok y c') (hx : x.isSteady = true) :
    (∀ pos, (y.raw pos).length = x.size) ∧ ∀ l : Layout, (l.put y).scope = l.scope := by
  have hinert : ∀ {y : Item UInt16}, y.isInert = true → ∀ l : Layout, (l.put y).scope = l.scope := by
    intro y hy l
    exact (Marked.inert (Item.inert_cons.mpr ⟨hy, Item.inert_nil⟩) l).scope
  cases x with
  | mark | jump =>
    cases h
    exact ⟨fun _ => rfl, fun _ => rfl⟩
  | reserve | const | interface =>
    obtain ⟨i, -, rfl⟩ := ClassM.map_eq_ok.mp h
    exact ⟨fun _ => rfl, hinert rfl⟩
  | switch | enter | leave => cases hx
  | _ =>
    cases h
    exact ⟨Item.length_raw rfl, hinert rfl⟩

section Code

variable {env : ClassEnv} {f : Frame} {code : Bytes} {out : CodeBuffer} {c c₁ : OpenClass}
  {body : BodyState} {mc : MethodCode} {s pos : Nat}

-- Items of a class, with the constants that it has later, as they stand in the final code.
theorem Lowered.reads_items (hl : Lowered env f code out c c₁ body mc) {d d₁ : OpenClass}
    {xs : List (Item Ref)} {own more : List (Item UInt16)} {k : Constants} {start stop : Nat}
    (hd : d.WellFormed env) (hits : Item.Interned env d xs own d₁)
    (hk : k.Extends d₁.draft.pool.get?) (hflat : ∀ x ∈ xs, x.isSteady = true)
    (hx : body.Stands code out s pos (own ++ more)) (hstart : start ≤ pos)
    (hstop : stop = pos + Stretch.sizes xs) :
    Stretch.Reads ⟨d.draft.name, k, mc.code.code, start, stop,
        fun t dest => (body.layout code out).reloc.Finds t.toNat s dest⟩ pos xs ∧
      body.Stands code out s stop more := by
  induction hits generalizing pos with
  | nil =>
    have hstop : stop = pos := hstop
    subst hstop
    exact ⟨rfl, hx⟩
  | @cons d d₁ d₂ x y xs own hitem hrest ih =>
    obtain ⟨hd₁, hgrows⟩ := ClassM.advancing_item _ _ _ _ _ hitem hd
    have hname : d₁.draft.name = d.draft.name := by rw [hgrows.members]
    have hk₁ : k.Extends d₁.draft.pool.get? := hk.trans (hrest.advances.extends hd₁)
    obtain ⟨hlength, hscope⟩ := Item.isSteady_of_mapM hitem (hflat x List.mem_cons_self)
    have hsum : Stretch.sizes (x :: xs) = x.size + Stretch.sizes xs := rfl
    rw [List.cons_append] at hx
    have htail := hx.tail hscope
    rw [hlength] at htail
    obtain ⟨hreads, hend⟩ := ih hd₁ hk (fun x hx => hflat x (List.mem_cons_of_mem _ hx)) htail
      (by omega) (by omega)
    rw [hname] at hreads
    refine ⟨⟨?_, hreads⟩, hend⟩
    -- An item that is written at all lies before the end.
    have hhas : ∀ {n : Nat}, x.size = n + 1 → start ≤ pos ∧ pos < stop :=
      fun h => ⟨hstart, by omega⟩
    cases x with
    | op o =>
      cases hitem
      obtain ⟨hop, -⟩ := Bytes.spells_cons.mp (hl.spells hx rfl)
      exact ⟨hhas rfl, hop⟩
    | const o r =>
      obtain ⟨i, hi, rfl⟩ := ClassM.map_eq_ok.mp hitem
      obtain ⟨hop, hword⟩ := Bytes.spells_cons.mp (hl.spells hx rfl)
      exact ⟨hhas rfl, hop, i, Bytes.be2?_of_spells hword, Ref.names_of_intern hd hi hk₁⟩
    | hop o distance =>
      cases hitem
      obtain ⟨hop, hword⟩ := Bytes.spells_cons.mp (hl.spells hx rfl)
      refine ⟨hhas rfl, hop, ?_⟩
      rw [word2, Bytes.be2?_of_spells hword]
      rfl
    | jump kind o target =>
      cases hitem
      cases kind with
      | branch =>
        obtain ⟨offset, dest, hstored, hfinds, hoffset⟩ :=
          hl.target hx (List.mem_singleton_self _) (by simp)
        obtain ⟨w, hw, rfl⟩ := Option.map_eq_some_iff.mp hstored
        refine ⟨hhas rfl, hl.getElem?_jump hx, dest, hfinds, ?_⟩
        rw [word2, hw]
        exact hoffset
      | finally_ | switch => trivial
    | _ => trivial

end Code

-- What an instruction that goes by types takes off the stack, from the top down, and what it leaves
-- there.
inductive StackTyped (env : ClassEnv) (i : Instr) : List Kind → List Kind → Prop where
  | loadType {t : TypeRef} (hop : i.op = .loadType)
      (ht : typeRefAt env.pod.symbols i.arg = .ok t) : StackTyped env i [] [.ref]
  | coerce {t u : TypeRef} (hop : i.op = .coerce)
      (ht : typeRefAt env.pod.symbols i.arg = .ok t)
      (hu : typeRefAt env.pod.symbols (i.args.getD 1 0) = .ok u) :
      StackTyped env i [.ofStack t.stack] [.ofStack u.stack]
  | cast {t : TypeRef} (hop : i.op = .cast) (ht : typeRefAt env.pod.symbols i.arg = .ok t)
      (hvoid : t.stack ≠ .void) : StackTyped env i [.ref] [.ofStack t.stack]
  | is {t : TypeRef} (hop : i.op = .is) (ht : typeRefAt env.pod.symbols i.arg = .ok t) :
      StackTyped env i [.ref] [.int]
  | as {t : TypeRef} (hop : i.op = .as) (ht : typeRefAt env.pod.symbols i.arg = .ok t) :
      StackTyped env i [.ref] [.ref]
  | pop {t : TypeRef} (hop : i.op = .pop) (ht : typeRefAt env.pod.symbols i.arg = .ok t)
      (hvoid : t.stack ≠ .void) : StackTyped env i [.ofStack t.stack] []
  | dup {t : TypeRef} (hop : i.op = .dup) (ht : typeRefAt env.pod.symbols i.arg = .ok t)
      (hvoid : t.stack ≠ .void) :
      StackTyped env i [.ofStack t.stack] [.ofStack t.stack, .ofStack t.stack]
  | order {t u : TypeRef} (hop : i.op = .compare)
      (ht : typeRefAt env.pod.symbols i.arg = .ok t)
      (hu : typeRefAt env.pod.symbols (i.args.getD 1 0) = .ok u)
      (hvoid : t.stack ≠ .void ∧ u.stack ≠ .void) :
      StackTyped env i [.ofStack u.stack, .ofStack t.stack] [.long]
  | relation {rel : Relation} {t u : TypeRef} (hop : relation? i.op = some rel)
      (ht : typeRefAt env.pod.symbols i.arg = .ok t)
      (hu : typeRefAt env.pod.symbols (i.args.getD 1 0) = .ok u)
      (hvoid : t.stack ≠ .void ∧ u.stack ≠ .void) :
      StackTyped env i [.ofStack u.stack, .ofStack t.stack] [.int]
  | same (want : Bool) (hop : i.op = if want then .compareSame else .compareNotSame) :
      StackTyped env i [.ref, .ref] [.int]
  | null (want : Bool) {t : TypeRef} (hop : i.op = if want then .compareNull else .compareNotNull)
      (ht : typeRefAt env.pod.symbols i.arg = .ok t) (hvoid : t.stack ≠ .void) :
      StackTyped env i [.ofStack t.stack] [.int]

-- Whether an instruction needs its type as a value.
def NeedsType (i : Instr) (t : TypeRef) : Prop :=
  i.op = .loadType ∨ (i.op = .is ∨ i.op = .as) ∧ t.isGenericInstance = true

-- The instructions that are lowered to code which is not well typed: a comparison that gives the
-- runtime a value which it does not take, and what needs a type from a field that cannot be read.
inductive Mistyped (env : ClassEnv) (cls : String) (i : Instr) : Prop where
  | operand {t : TypeRef} (hop : i.op = .compare ∨ (relation? i.op).isSome = true)
      (ht : typeRefAt env.pod.symbols i.arg = .ok t ∨
        typeRefAt env.pod.symbols (i.args.getD 1 0) = .ok t) (h : ¬IsTaken t)
  | field {t : TypeRef} (ht : typeRefAt env.pod.symbols i.arg = .ok t) (hneeds : NeedsType i t)
      (h : Unreadable cls t)

-- The items of an instruction are well typed in some way, unless the instruction is one of these.
structure TypedItems (env : ClassEnv) (cls : String) (i : Instr) (takes : List Kind)
    (xs : List (Item Ref)) (typed : Prop) : Prop where
  typed : ¬Mistyped env cls i → typed
  stuck : Mistyped env cls i → Stuck cls xs takes ∧ 0 < Stretch.sizes xs

section Instructions

variable {env : ClassEnv} {f : Frame} {i : Instr} {next : Following} {e e' : EmitState}
  {fused : Bool} {its : List (Item UInt16)} {cls : String} {takes gives : List Kind}
  {xs : List (Item Ref)} {t u : TypeRef} {typed : Prop}

-- An instruction that needs neither the runtime to compare nor a field.
theorem TypedItems.plain (hop : i.op ∉ [.compare, .loadType, .is, .as])
    (hrel : relation? i.op = none) (h : typed) : TypedItems env cls i takes xs typed := by
  simp only [List.mem_cons, List.not_mem_nil, or_false, not_or] at hop
  obtain ⟨hcompare, hload, his, has⟩ := hop
  refine ⟨fun _ => h, ?_⟩
  rintro (⟨hcompare' | hrel', -, -⟩ | ⟨-, hload' | ⟨his' | has', -⟩, -⟩)
  · exact absurd hcompare' hcompare
  · rw [hrel] at hrel'
    cases hrel'
  · exact absurd hload' hload
  · exact absurd his' his
  · exact absurd has' has

-- A comparison by the runtime.
theorem TypedItems.operands (hop : i.op = .compare ∨ (relation? i.op).isSome = true)
    (ht : typeRefAt env.pod.symbols i.arg = .ok t)
    (hu : typeRefAt env.pod.symbols (i.args.getD 1 0) = .ok u)
    (htyped : IsTaken t → IsTaken u → typed)
    (hstuck : ¬IsTaken t ∨ ¬IsTaken u → Stuck cls xs takes ∧ 0 < Stretch.sizes xs) :
    TypedItems env cls i takes xs typed := by
  constructor
  · intro hm
    refine htyped ?_ ?_
    · by_contra h
      exact hm (.operand hop (.inl ht) h)
    · by_contra h
      exact hm (.operand hop (.inr hu) h)
  · rintro (⟨-, ht', h⟩ | ⟨-, hop', -⟩)
    · refine hstuck ?_
      obtain ht' | hu' := ht'
      · cases ht.symm.trans ht'
        exact .inl h
      · cases hu.symm.trans hu'
        exact .inr h
    · exfalso
      obtain hop' | ⟨hop' | hop', -⟩ := hop' <;> rw [hop'] at hop <;> simp [relation?] at hop

-- An instruction that may push a type.
theorem TypedItems.field (hop : i.op ∈ [.loadType, .is, .as])
    (ht : typeRefAt env.pod.symbols i.arg = .ok t)
    (htyped : (NeedsType i t → ¬Unreadable cls t) → typed)
    (hstuck : NeedsType i t → Unreadable cls t → Stuck cls xs takes ∧ 0 < Stretch.sizes xs) :
    TypedItems env cls i takes xs typed := by
  refine ⟨fun hm => htyped fun hneeds h => hm (.field ht hneeds h), ?_⟩
  rintro (⟨hop', -, -⟩ | ⟨ht', hneeds, h⟩)
  · simp only [List.mem_cons, List.not_mem_nil, or_false] at hop
    obtain hop | hop | hop := hop <;> rw [hop] at hop' <;> simp [relation?] at hop'
  · cases ht.symm.trans ht'
    exact hstuck hneeds h

-- A step that first reads the type of an instruction, or both of its types.
theorem of_typeRef_bind {k : TypeRef → BodyM Bool} {s s' : BodyState} {c c' : OpenClass}
    (ht : typeRefAt env.pod.symbols i.arg = .ok t)
    (h : (liftM (ClassM.typeRef i.arg) >>= k) s env c = .ok (fused, s') c') :
    k t s env c = .ok (fused, s') c' := by
  obtain ⟨t', s₁, c₁, h₁, h₂⟩ := BodyM.bind_eq_ok.mp h
  obtain ⟨hread, rfl⟩ := BodyM.lift_eq_ok.mp h₁
  obtain ⟨ht', rfl⟩ := typeRef_eq_ok.mp hread
  cases ht.symm.trans ht'
  exact h₂

theorem of_typePair_bind {k : TypeRef × TypeRef → BodyM Bool} {s s' : BodyState}
    {c c' : OpenClass} (ht : typeRefAt env.pod.symbols i.arg = .ok t)
    (hu : typeRefAt env.pod.symbols (i.args.getD 1 0) = .ok u)
    (h : (liftM (typePair i) >>= k) s env c = .ok (fused, s') c') :
    k (t, u) s env c = .ok (fused, s') c' := by
  obtain ⟨⟨t', u'⟩, s₁, c₁, h₁, h₂⟩ := BodyM.bind_eq_ok.mp h
  obtain ⟨hread, rfl⟩ := BodyM.lift_eq_ok.mp h₁
  obtain ⟨ht', hu', rfl⟩ := typePair_eq_ok hread
  cases ht.symm.trans ht'
  cases hu.symm.trans hu'
  exact h₂

-- A step that writes items that may fail, and nothing else.
theorem emitOk_eq_ok {items : Except LoweringError (List (Item Ref))} {slots slots' : FinallySlots}
    {c c' : OpenClass}
    (h : (BodyM.emitOk items >>= fun _ => pure false : BodyM Bool) ⟨#[], slots⟩ env c =
      .ok (fused, ⟨its.toArray, slots'⟩) c') :
    ∃ xs, items = .ok xs ∧ Item.Interned env c xs its c' := by
  obtain ⟨u, s₁, c₁, h₁, h₂⟩ := BodyM.bind_eq_ok.mp h
  obtain ⟨-, rfl, rfl⟩ := BodyM.pure_eq_ok.mp h₂
  obtain ⟨xs, s₂, c₂, h₃, h₄⟩ := BodyM.bind_eq_ok.mp h₁
  obtain ⟨hxs, rfl, rfl⟩ := BodyM.ofExcept_eq_ok.mp h₃
  obtain ⟨js, hjs, hs⟩ := BodyM.emit_eq_ok.mp h₄
  have hits : its = js := by simpa using congrArg (fun s => s.items.toList) hs
  rw [hits]
  exact ⟨xs, hxs, hjs⟩

theorem sizes_pushType_pos (t : TypeRef) (ys : List (Item Ref)) :
    0 < Stretch.sizes (Conversion.pushType t ++ ys) := by
  unfold Conversion.pushType
  split <;> exact Nat.add_pos_left (Nat.succ_pos 2) _

-- An instruction that goes by types, and is no comparison that may take a jump along.
theorem Emits.typedItems (h : Emits env f i next e fused its e') (htyped : StackTyped env i takes gives)
    (hc : Lowering.isComparison i.op = false) (cls : String) :
    ∃ xs, Item.Interned env e.cls xs its e'.cls ∧
      TypedItems env cls i takes xs (Turns cls xs takes gives) := by
  unfold Emits emitInstr at h
  cases htyped with
  | @loadType t hop ht =>
    rw [hop] at h
    refine ⟨_, plain_eq_ok (of_typeRef_bind ht h), TypedItems.field (by simp [hop]) ht ?_ ?_⟩
    · intro hfield
      exact turns_pushType (hfield (.inl hop))
    · intro _ hfield
      refine ⟨stuck_pushType hfield, ?_⟩
      have hsize := sizes_pushType_pos t []
      rwa [List.append_nil] at hsize
  | coerce hop ht hu =>
    rw [hop] at h
    obtain ⟨xs, hxs, hits⟩ := emitOk_eq_ok (of_typePair_bind ht hu h)
    exact ⟨xs, hits, .plain (by simp [hop]) (by rw [hop]; rfl) (turns_coerce hxs)⟩
  | cast hop ht hvoid =>
    rw [hop] at h
    obtain ⟨xs, hxs, hits⟩ := emitOk_eq_ok (of_typeRef_bind ht h)
    exact ⟨xs, hits, .plain (by simp [hop]) (by rw [hop]; rfl) (turns_cast hxs hvoid)⟩
  | @is t hop ht =>
    rw [hop] at h
    refine ⟨_, plain_eq_ok (of_typeRef_bind ht h), TypedItems.field (by simp [hop]) ht ?_ ?_⟩
    · intro hfield
      exact turns_isInstance fun hgeneric => hfield (.inr ⟨.inl hop, hgeneric⟩)
    · rintro (hop' | ⟨-, hgeneric⟩) hfield
      · rw [hop] at hop'
        cases hop'
      · refine ⟨stuck_isInstance hgeneric hfield, ?_⟩
        unfold Conversion.isInstance
        rw [if_pos hgeneric]
        exact sizes_pushType_pos t _
  | @as t hop ht =>
    rw [hop] at h
    refine ⟨_, plain_eq_ok (of_typeRef_bind ht h), TypedItems.field (by simp [hop]) ht ?_ ?_⟩
    · intro hfield
      exact turns_asInstance fun hgeneric => hfield (.inr ⟨.inr hop, hgeneric⟩)
    · rintro (hop' | ⟨-, hgeneric⟩) hfield
      · rw [hop] at hop'
        cases hop'
      · refine ⟨stuck_asInstance hgeneric hfield, ?_⟩
        unfold Conversion.asInstance
        dsimp only
        rw [if_pos hgeneric]
        exact Nat.add_pos_right _ (sizes_pushType_pos t _)
  | pop hop ht hvoid =>
    rw [hop] at h
    exact ⟨_, plain_eq_ok (of_typeRef_bind ht h), .plain (by simp [hop]) (by rw [hop]; rfl)
      (turns_popItems hvoid)⟩
  | dup hop ht hvoid =>
    rw [hop] at h
    exact ⟨_, plain_eq_ok (of_typeRef_bind ht h), .plain (by simp [hop]) (by rw [hop]; rfl) turns_dup⟩
  | @order t u hop ht hu hvoid =>
    rw [hop] at h
    refine ⟨_, plain_eq_ok (of_typePair_bind ht hu h), TypedItems.operands (.inl hop) ht hu ?_ ?_⟩
    · intro ht hu
      exact turns_compared ofSig?_orderMethod ht hu
    · intro hne
      exact ⟨stuck_compared ofSig?_orderMethod hne, Nat.succ_pos 2⟩
  | relation hop => simp [Lowering.isComparison, hop] at hc
  | same want hop | null want hop =>
    rw [hop] at hc
    cases want <;> cases hc

variable {cmp : Compared} {q : Nat} {sense : Bool} {target : UInt16}

-- A comparison takes the jump behind it along, unless it is the test of a primitive for null.
theorem Compares.fused_iff (h : Compares env i (.jump q sense target) cmp) :
    cmp.fused = true ↔ ∀ t, i.op = .compareNull ∨ i.op = .compareNotNull →
      typeRefAt env.pod.symbols i.arg = .ok t → t.isPrimitive = false := by
  cases h with
  | @relation rel lhs rhs hop hl hr =>
    have hnull : ¬(i.op = .compareNull ∨ i.op = .compareNotNull) := by
      rintro (h | h) <;> rw [h] at hop <;> cases hop
    refine ⟨fun _ t h => absurd h hnull, fun _ => ?_⟩
    unfold Comparison.relation
    split <;> rfl
  | same want hop =>
    have hnull : ¬(i.op = .compareNull ∨ i.op = .compareNotNull) := by
      rintro (h | h) <;> cases want <;> rw [h] at hop <;> cases hop
    exact ⟨fun _ t h => absurd h hnull, fun _ => rfl⟩
  | @null want t hop ht =>
    have hnull : i.op = .compareNull ∨ i.op = .compareNotNull := by
      cases want <;> simp [hop]
    unfold Comparison.null
    cases hprimitive : t.isPrimitive with
    | true =>
      refine ⟨fun h => absurd h (by simp), fun h => ?_⟩
      rw [h t hnull ht] at hprimitive
      cases hprimitive
    | false =>
      refine ⟨fun _ t' _ ht' => ?_, fun _ => rfl⟩
      cases ht.symm.trans ht'
      exact hprimitive

-- A reference is what is no primitive.
theorem stack_of_not_isPrimitive (h : t.isPrimitive = false) (hvoid : t.stack ≠ .void) :
    t.stack = .obj := by
  by_contra hobj
  rw [TypeRef.isPrimitive_iff.mpr ⟨hobj, hvoid⟩] at h
  cases h

-- A comparison without the jump behind it.
theorem Compares.typedItems (h : Compares env i next cmp) (htyped : StackTyped env i takes gives)
    (hc : Lowering.isComparison i.op = true) (hunfused : cmp.fused = false) (hnext : next ≠ .cutOff)
    (cls : String) : TypedItems env cls i takes cmp.items (Turns cls cmp.items takes gives) := by
  cases htyped with
  | @relation rel t u hop ht hu =>
    obtain rfl := h.unique (.relation hop ht hu)
    refine TypedItems.operands (.inr (by simp [hop])) ht hu ?_ fun hne => stuck_relation hne next
    intro ht hu
    cases next with
    | jump q sense target =>
      unfold Comparison.relation at hunfused
      split at hunfused <;> cases hunfused
    | cutOff => exact absurd rfl hnext
    | other => exact turns_relation ht hu
  | same want hop =>
    obtain rfl := h.unique (.same want hop)
    refine .plain (by cases want <;> simp [hop]) (by cases want <;> rw [hop] <;> rfl) ?_
    cases next with
    | jump q sense target => cases hunfused
    | cutOff => exact absurd rfl hnext
    | other => exact turns_same want
  | @null want t hop ht hvoid =>
    obtain rfl := h.unique (.null want hop ht)
    refine .plain (by cases want <;> simp [hop]) (by cases want <;> rw [hop] <;> rfl) ?_
    cases hprimitive : t.isPrimitive with
    | true => exact turns_never hprimitive next
    | false =>
      rw [stack_of_not_isPrimitive hprimitive hvoid]
      unfold Comparison.null at hunfused
      rw [hprimitive] at hunfused
      cases next with
      | jump q sense target => cases hunfused
      | cutOff => exact absurd rfl hnext
      | other => exact turns_null hprimitive
  | _ hop =>
    rw [hop] at hc
    cases hc

-- A comparison with the jump behind it.
theorem Compares.forks (h : Compares env i (.jump q sense target) cmp)
    (htyped : StackTyped env i takes gives) (hc : Lowering.isComparison i.op = true)
    (hfused : cmp.fused = true) (cls : String) :
    TypedItems env cls i takes cmp.items (Forks cls cmp.items takes target) := by
  cases htyped with
  | @relation rel t u hop ht hu =>
    obtain rfl := h.unique (.relation hop ht hu)
    exact TypedItems.operands (.inr (by simp [hop])) ht hu forks_relation fun hne => stuck_relation hne _
  | same want hop =>
    obtain rfl := h.unique (.same want hop)
    exact .plain (by cases want <;> simp [hop]) (by cases want <;> rw [hop] <;> rfl)
      (forks_same want)
  | @null want t hop ht hvoid =>
    have hprimitive := h.fused_iff.mp hfused t (by cases want <;> simp [hop]) ht
    obtain rfl := h.unique (.null want hop ht)
    rw [stack_of_not_isPrimitive hprimitive hvoid]
    exact .plain (by cases want <;> simp [hop]) (by cases want <;> rw [hop] <;> rfl)
      (forks_null hprimitive)
  | _ hop =>
    rw [hop] at hc
    cases hc

-- No comparison is without operands.
theorem StackTyped.takes_ne_nil (h : StackTyped env i takes gives) (hc : Lowering.isComparison i.op = true) :
    takes ≠ [] := by
  rintro rfl
  cases h with
  | loadType hop =>
    rw [hop] at hc
    cases hc

theorem Item.isSteady_of_isInert {ρ : Type} {x : Item ρ} (h : x.isInert = true) : x.isSteady = true := by
  cases x <;> first | rfl | exact h

theorem Item.Interned.isSteady {c c' : OpenClass} (h : Item.Interned env c xs its c')
    (hits : Item.Inert its) : ∀ x ∈ xs, x.isSteady = true := by
  induction h with
  | nil => simp
  | cons hitem _ ih =>
    rw [Item.inert_cons, (Item.isInert_of_mapM hitem).1] at hits
    rw [List.forall_mem_cons]
    exact ⟨Item.isSteady_of_isInert hits.1, ih hits.2⟩

theorem Compared.Shape.isSteady (h : cmp.Shape next) : ∀ x ∈ cmp.items, x.isSteady = true := by
  have hflat : ∀ {xs : List (Item Ref)}, Item.Slotless xs → ∀ x ∈ xs, x.isSteady = true :=
    fun hxs x hx => Item.isSteady_of_isInert (hxs.inert x hx)
  cases h with
  | unfused hi => exact hflat hi
  | fused pre before _ hpre hbefore _ =>
    intro x hx
    simp only [List.mem_append, List.mem_cons, List.not_mem_nil, or_false] at hx
    obtain hx | rfl | hx | rfl := hx
    · exact hflat hpre x hx
    · rfl
    · exact hflat hbefore x hx
    · rfl

end Instructions

section Checked

variable {env : ClassEnv} {f : Frame} {code : Bytes} {out : CodeBuffer} {c c₁ d d₁ : OpenClass}
  {body : BodyState} {mc : MethodCode} {s start q : Nat} {i : Instr} {takes gives : List Kind}
  {xs : List (Item Ref)} {own more : List (Item UInt16)}

-- The items of an instruction without a jump are well typed up to what is behind them, or not at all.
theorem Lowered.checks_turns (hl : Lowered env f code out c c₁ body mc) (hd : d.WellFormed env)
    (hits : Item.Interned env d xs own d₁) (hflat : ∀ x ∈ xs, x.isSteady = true)
    (hx : body.Stands code out s start (own ++ more)) (hmore : NotesNext q more)
    (hitems : TypedItems env d.draft.name i takes xs (Turns d.draft.name xs takes gives)) :
    ∃ stop, (body.layout code out).reloc.getLocal s q = some stop ∧
      ∀ k : Constants, k.Extends d₁.draft.pool.get? → ∀ base,
        TypeChecks k mc.code.code start stop [(stop, gives ++ base)] start (takes ++ base) ↔
          ¬Mistyped env d.draft.name i := by
  obtain ⟨-, hend⟩ := hl.reads_items hd hits (fun _ _ h => h) hflat hx (Nat.le_refl _) rfl
  refine ⟨_, hl.note_of_stands hend hmore, fun k hk base => ?_⟩
  obtain ⟨hreads, -⟩ := hl.reads_items hd hits hk hflat hx (Nat.le_refl _) rfl
  constructor
  · intro hchecks hm
    obtain ⟨hstuck, hsize⟩ := hitems.stuck hm
    refine hstuck.not_checks rfl hreads ?_ hchecks
    simp only [List.mem_singleton, Prod.mk.injEq, not_and]
    omega
  · intro hm
    exact (hitems.typed hm).checks rfl hreads (List.mem_singleton_self _)

-- Those with a jump are well typed up to what is behind them and to where the jump leads.
theorem Lowered.checks_forks (hl : Lowered env f code out c c₁ body mc) (hd : d.WellFormed env)
    (hits : Item.Interned env d xs own d₁) (hflat : ∀ x ∈ xs, x.isSteady = true)
    (hx : body.Stands code out s start (own ++ more)) (hmore : NotesNext q more) {target : UInt16}
    {dest : Nat} (hdest : (body.layout code out).reloc.Finds target.toNat s dest)
    (hitems : TypedItems env d.draft.name i takes xs (Forks d.draft.name xs takes target))
    (htakes : takes ≠ []) :
    ∃ stop, (body.layout code out).reloc.getLocal s q = some stop ∧
      ∀ k : Constants, k.Extends d₁.draft.pool.get? → ∀ base,
        TypeChecks k mc.code.code start stop [(dest, base), (stop, base)] start (takes ++ base) ↔
          ¬Mistyped env d.draft.name i := by
  obtain ⟨-, hend⟩ := hl.reads_items hd hits (fun _ _ h => h) hflat hx (Nat.le_refl _) rfl
  refine ⟨_, hl.note_of_stands hend hmore, fun k hk base => ?_⟩
  obtain ⟨hreads, -⟩ := hl.reads_items hd hits hk hflat hx (Nat.le_refl _) rfl
  constructor
  · intro hchecks hm
    obtain ⟨hstuck, hsize⟩ := hitems.stuck hm
    refine hstuck.not_checks rfl hreads ?_ hchecks
    simp [htakes]
  · intro hm
    refine hitems.typed hm _ _ start base rfl hreads ?_ ?_
    · intro p hp
      rw [hp.unique hdest]
      exact .exit (by simp)
    · exact .exit (by simp)

end Checked

-- Whether the comparison `i` at `p` takes the jump `j` behind it along.
structure TakesAlong (env : ClassEnv) (code : Bytes) (p : Nat) (i j : Instr) : Prop where
  comparison : isComparison i.op = true
  behind : Instr.decodeAt code (p + i.size) = .ok j
  conditional : (Following.sense? j.op).isSome = true
  object : ∀ t, i.op = .compareNull ∨ i.op = .compareNotNull →
    typeRefAt env.pod.symbols i.arg = .ok t → t.isPrimitive = false

-- Wherever an instruction that goes by types is lowered to, the code from there on is well typed
-- exactly if the instruction is not mistyped: it takes what the instruction takes, and leaves in its
-- place what the instruction leaves there, where the next instruction begins. A comparison with a
-- jump leaves nothing, on the way to the target of the jump and on the way on.
def ChecksOperands (env : ClassEnv) (code : Bytes) (cls : String) (r : Relocation) (java : Bytes)
    (k : Constants) : Prop :=
  ∀ (s p start : Nat) (i : Instr) (takes gives : List Kind), r.getLocal s p = some start →
    Instr.decodeAt code p = .ok i → StackTyped env i takes gives →
    (∀ j, TakesAlong env code p i j → ∃ dest stop, r.Finds j.arg.toNat s dest ∧
      r.getLocal s (p + i.size + j.size) = some stop ∧ ∀ base,
        TypeChecks k java start stop [(dest, base), (stop, base)] start (takes ++ base) ↔
          ¬Mistyped env cls i) ∧
    ((¬∃ j, TakesAlong env code p i j) → ∃ stop, r.getLocal s (p + i.size) = some stop ∧ ∀ base,
      TypeChecks k java start stop [(stop, gives ++ base)] start (takes ++ base) ↔
        ¬Mistyped env cls i)

section Lowered

variable {env : ClassEnv} {f : Frame} {code : Bytes} {out : CodeBuffer} {c c₁ : OpenClass}
  {body : BodyState} {mc : MethodCode} {s p start : Nat} {i : Instr} {takes gives : List Kind}

-- A class keeps its name.
theorem name_of_later {d : OpenClass} (h : Later env f c d) (hclass : c.WellFormed env) :
    d.draft.name = c.draft.name := by
  rw [(h.advances hclass).2.members]

-- Instructions that go by types, but do not compare, stand on their own.
theorem StackTyped.alone (h : StackTyped env i takes gives) (hc : isComparison i.op = false) :
    Following.sense? i.op = none ∧ i.op ≠ .finallyEnd ∧ i.op ≠ .jumpFinally ∧
      branchItem? i = none := by
  cases h with
  | relation hop => simp [isComparison, hop] at hc
  | same want hop | null want hop =>
    rw [hop] at hc
    cases want <;> cases hc
  | _ hop => simp [hop, Following.sense?, branchItem?]

-- One that stands on its own.
theorem Lowered.checks_alone (hl : Lowered env f code out c c₁ body mc) (hclass : c.WellFormed env)
    (hp : (body.layout code out).reloc.getLocal s p = some start)
    (hi : Instr.decodeAt code p = .ok i) (htyped : StackTyped env i takes gives)
    (hc : isComparison i.op = false) :
    ∃ stop, (body.layout code out).reloc.getLocal s (p + i.size) = some stop ∧
      ∀ k : Constants, k.Extends c₁.draft.pool.get? → ∀ base,
        TypeChecks k mc.code.code start stop [(stop, gives ++ base)] start (takes ++ base) ↔
          ¬Mistyped env c.draft.name i := by
  obtain ⟨hsense, hend, hcopy, hbranch⟩ := htyped.alone hc
  obtain ⟨next, e, e₁, own, more, hfirst, hown, hlast, hmore, hx⟩ :=
    hl.stands_between hp hi hc hsense hend hcopy
  have he := (hfirst.later.advances hclass).1
  obtain ⟨xs, hits, hitems⟩ := hown.typedItems htyped hc e.cls.draft.name
  have hinert : Item.Inert own := by
    cases hown.shape with
    | branch hb =>
      rw [hbranch] at hb
      cases hb
    | inert _ hinert => exact hinert
  obtain ⟨stop, hstop, hchecks⟩ := hl.checks_turns he hits (hits.isSteady hinert) hx hmore hitems
  rw [name_of_later hfirst.later hclass] at hchecks
  have he₁ := (hits.advances he).1
  exact ⟨stop, hstop, fun k hk => hchecks k (hk.trans (hlast.later.advances.extends he₁))⟩

-- A comparison with the jump behind it.
theorem Lowered.checks_along (hl : Lowered env f code out c c₁ body mc) (hclass : c.WellFormed env)
    (hp : (body.layout code out).reloc.getLocal s p = some start)
    (hi : Instr.decodeAt code p = .ok i) (htyped : StackTyped env i takes gives) {j : Instr}
    (hj : TakesAlong env code p i j) :
    ∃ dest stop, (body.layout code out).reloc.Finds j.arg.toNat s dest ∧
      (body.layout code out).reloc.getLocal s (p + i.size + j.size) = some stop ∧
      ∀ k : Constants, k.Extends c₁.draft.pool.get? → ∀ base,
        TypeChecks k mc.code.code start stop [(dest, base), (stop, base)] start (takes ++ base) ↔
          ¬Mistyped env c.draft.name i := by
  obtain ⟨hc, hbehind, hconditional, hobject⟩ := hj
  obtain ⟨sense, hsense⟩ := Option.isSome_iff_exists.mp hconditional
  obtain ⟨cmp, d, d₁, own, more, hcmp, hits, hfirst, hlast, hmore, hcase⟩ :=
    hl.stands_compared hp hi hc hbehind hsense
  have hfused := hcmp.fused_iff.mpr hobject
  obtain ⟨-, hx⟩ | ⟨hunfused, -, -⟩ := hcase
  · have hd := (hfirst.advances hclass).1
    have hd₁ := (hits.advances hd).1
    obtain ⟨-, dest, -, -, hdest, -, -⟩ := hl.behind_comparison hp hi hc hbehind hsense
    obtain ⟨stop, hstop, hchecks⟩ := hl.checks_forks hd hits hcmp.shape.isSteady hx hmore hdest
      (hcmp.forks htyped hc hfused _) (htyped.takes_ne_nil hc)
    rw [name_of_later hfirst hclass] at hchecks
    exact ⟨dest, stop, hdest, hstop, fun k hk => hchecks k (hk.trans (hlast.advances.extends hd₁))⟩
  · rw [hfused] at hunfused
    cases hunfused

-- A comparison that takes no jump along: what is before a jump, and anything else.
theorem Lowered.stands_unfused (hl : Lowered env f code out c c₁ body mc)
    (hp : (body.layout code out).reloc.getLocal s p = some start)
    (hi : Instr.decodeAt code p = .ok i) (hc : isComparison i.op = true)
    (hnone : ¬∃ j, TakesAlong env code p i j) :
    ∃ next cmp d d₁ own more, Compares env i next cmp ∧ next ≠ .cutOff ∧ cmp.fused = false ∧
      Item.Interned env d cmp.items own d₁ ∧ Later env f c d ∧ Later env f d₁ c₁ ∧
      NotesNext (p + i.size) more ∧ body.Stands code out s start (own ++ more) := by
  by_cases hjump : ∃ j sense, Instr.decodeAt code (p + i.size) = .ok j ∧
      Following.sense? j.op = some sense
  · obtain ⟨j, sense, hj, hsense⟩ := hjump
    obtain ⟨cmp, d, d₁, own, more, hcmp, hits, hfirst, hlast, -, ⟨hfused, -⟩ | ⟨hunfused, -, hx⟩⟩ :=
      hl.stands_compared hp hi hc hj hsense
    · refine absurd ⟨j, hc, hj, ?_, hcmp.fused_iff.mp hfused⟩ hnone
      rw [hsense]
      rfl
    · exact ⟨_, cmp, d, d₁, own, _, hcmp, by simp, hunfused, hits, hfirst, hlast,
        ⟨_, _, rfl, .inl rfl⟩, hx⟩
  · have hother : ∀ j, Instr.decodeAt code (p + i.size) = .ok j →
        Following.sense? j.op = none := by
      intro j hj
      rw [Option.eq_none_iff_forall_not_mem]
      intro sense hsense
      exact hjump ⟨j, sense, hj, hsense⟩
    obtain ⟨cmp, d, d₁, own, more, hcmp, hits, hfirst, hlast, hmore, hx⟩ :=
      hl.stands_result hp hi hc hother
    refine ⟨_, cmp, d, d₁, own, more, hcmp, by simp, ?_, hits, hfirst, hlast, hmore, hx⟩
    cases hcmp.shape with
    | unfused _ => rfl
    | fused _ _ hnext _ _ _ => cases hnext

theorem Lowered.checksOperands (hl : Lowered env f code out c c₁ body mc)
    (hclass : c.WellFormed env) {k : Constants} (hk : k.Extends c₁.draft.pool.get?) :
    ChecksOperands env code c.draft.name (body.layout code out).reloc mc.code.code k := by
  intro s p start i takes gives hp hi htyped
  constructor
  · intro j hj
    obtain ⟨dest, stop, hdest, hstop, hchecks⟩ := hl.checks_along hclass hp hi htyped hj
    exact ⟨dest, stop, hdest, hstop, hchecks k hk⟩
  · intro hnone
    cases hc : isComparison i.op with
    | false =>
      obtain ⟨stop, hstop, hchecks⟩ := hl.checks_alone hclass hp hi htyped hc
      exact ⟨stop, hstop, hchecks k hk⟩
    | true =>
      obtain ⟨next, cmp, d, d₁, own, more, hcmp, hnext, hunfused, hits, hfirst, hlast, hmore, hx⟩ :=
        hl.stands_unfused hp hi hc hnone
      have hd := (hfirst.advances hclass).1
      have hd₁ := (hits.advances hd).1
      obtain ⟨stop, hstop, hchecks⟩ := hl.checks_turns hd hits hcmp.shape.isSteady hx hmore
        (hcmp.typedItems htyped hc hunfused hnext _)
      rw [name_of_later hfirst hclass] at hchecks
      exact ⟨stop, hstop, hchecks k (hk.trans (hlast.advances.extends hd₁))⟩

-- In a method and in an expression, the code of every instruction that goes by the types of its
-- operands is well typed on all paths, unless it is mistyped; and then it is not.
theorem operands_checked_iff (hclass : c.WellFormed env) :
    (∀ attrs mc c', lowerCode f code attrs out env c = .ok mc c' →
      ∃ body c₁, emitBody f code {} env c = .ok ((), body) c₁ ∧
        mc.reloc = (body.layout code out).reloc.mainMap ∧
        ∀ k : Constants, k.Extends c'.draft.pool.get? →
          ChecksOperands env code c.draft.name (body.layout code out).reloc mc.code.code k) ∧
    ∀ mc c', lowerFragment f code out env c = .ok mc c' →
      ∃ body, emitBody f code {} env c = .ok ((), body) c' ∧
        mc.reloc = (body.layout code out).reloc.mainMap ∧
        ∀ k : Constants, k.Extends c'.draft.pool.get? →
          ChecksOperands env code c.draft.name (body.layout code out).reloc mc.code.code k := by
  constructor
  · intro attrs mc c' h
    obtain ⟨body, c₁, hl, hextends⟩ := lowered_of_wellFormed hclass h
    exact ⟨body, c₁, hl.emits, hl.filled.main,
      fun k hk => hl.checksOperands hclass (hk.trans hextends)⟩
  · intro mc c' h
    obtain ⟨body, hl⟩ := lowered_of_lowerFragment h
    exact ⟨body, hl.emits, hl.filled.main, fun k hk => hl.checksOperands hclass hk⟩

end Lowered

-- Before the two floats are compared they are on the stack; the jump of the comparison leaves neither
-- of them, wherever it goes.
theorem operands_checked_iff_atMost : ∃ mc c',
    lowerCode atMostFrame atMostCode {} {} floatEnv bareClass = .ok mc c' ∧
    mc.code.code = #[38, 40, 152, 157, 0, 4, 177, 177] ∧
    ∀ k : Constants, k.Extends c'.draft.pool.get? → ∀ base,
      TypeChecks k mc.code.code 2 6 [(7, base), (6, base)] 2 (.double :: .double :: base) := by
  obtain ⟨mc, c', h⟩ := exists_of_result? (by decide +kernel :
    (result? (lowerCode atMostFrame atMostCode {} {} floatEnv bareClass)).isSome)
  have hcode : (result? (lowerCode atMostFrame atMostCode {} {} floatEnv bareClass)).map
      (fun mc => (mc.code.code, mc.reloc)) =
        some (#[38, 40, 152, 157, 0, 4, 177, 177], #[some 0, none, none, some 1, none, none, some 2,
          none, none, none, none, some 2, none, none, some 6, some 7, some 8]) := by
    decide +kernel
  rw [h] at hcode
  obtain ⟨hcode, hreloc⟩ := Prod.mk.inj (Option.some.inj hcode)
  refine ⟨mc, c', h, hcode, fun k hk base => ?_⟩
  obtain ⟨body, c₁, -, hmain, hchecks⟩ := (operands_checked_iff (wellFormed_bare _)).1 _ _ _ h
  have hnote : ∀ q java, mc.reloc[q]? = some (some java) →
      (body.layout atMostCode {}).reloc.getLocal 0 q = some java := by
    intro q java hq
    rw [hmain] at hq
    exact Relocation.mainMap_eq_some_iff.mp hq
  have htyped : StackTyped floatEnv ⟨6, .compareLE, [0, 0]⟩ [.double, .double] [.int] :=
    .relation (t := ⟨"sys", "Float", ""⟩) (u := ⟨"sys", "Float", ""⟩) rfl rfl rfl (by decide +kernel)
  have hnot : ¬Mistyped floatEnv bareClass.draft.name ⟨6, .compareLE, [0, 0]⟩ := by
    rintro (⟨-, ht | ht, h⟩ | ⟨-, hneeds | ⟨hneeds | hneeds, -⟩, -⟩)
    · cases ht
      exact h (by decide +kernel)
    · cases ht
      exact h (by decide +kernel)
    · cases hneeds
    · cases hneeds
    · cases hneeds
  have halong : TakesAlong floatEnv atMostCode 6 ⟨6, .compareLE, [0, 0]⟩ ⟨11, .jumpFalse, [15]⟩ := by
    refine ⟨rfl, by decide +kernel, rfl, fun t hop => ?_⟩
    obtain hop | hop := hop <;> cases hop
  obtain ⟨dest, stop, hdest, hstop, hiff⟩ := (hchecks k hk 0 6 2 _ _ _
    (hnote 6 2 (by rw [hreloc]; rfl)) (by decide +kernel) htyped).1 _ halong
  cases hstop.symm.trans (hnote 14 6 (by rw [hreloc]; rfl))
  obtain rfl : dest = 7 := hdest.unique (.here (hnote 15 7 (by rw [hreloc]; rfl)))
  exact (hiff base).mpr hnot

-- A method with two integers of the machine, which returns whether they are the same.
--    0 LoadVar 0    3 LoadVar 1    6 CompareEQ int int    11 ReturnObj
def sameIntsFrame : Frame :=
  { bareFrame with
    regs := #[some ⟨0, .int⟩, some ⟨1, .int⟩]
    paramCount := 2
    maxLocals := 2
    ret := .bool }

def sameIntsCode : Bytes :=
  #[10, 0, 0, 10, 0, 1, 31, 0, 0, 0, 0, 43]

def machineIntEnv : ClassEnv :=
  { bareEnv with
    pod := { bareEnv.pod with symbols := { typeRefs := #[⟨"[java]", "int", ""⟩] } } }

-- The method of the runtime that compares them.
def sameIntsMethod : String :=
  "fanx/util/OpUtil.compareEQ(Ljava/lang/Object;Ljava/lang/Object;)Z"

def sameIntsItems (method : UInt16) : Array (Item UInt16) :=
  #[.mark 0, .load .int 0, .mark 3, .load .int 1, .mark 6, .const invokeStatic method, .mark 11,
    .op ireturn, .mark 12]

-- The names of the method find a place in the pool of the class.
theorem exists_interned_sameInts : ∃ method c, Item.Interned machineIntEnv bareClass
    [.const invokeStatic (.method sameIntsMethod)] [.const invokeStatic method] c := by
  have hcut : ∃ m, Member.ofMethod sameIntsMethod = .ok m := ⟨_, by cbv⟩
  obtain ⟨method, p, hp, -⟩ :=
    ClassFile.Pool.fits_member .methodref hcut bareClass.draft.pool (by decide)
  exact ⟨method, _, .cons (ClassM.map_eq_ok.mpr
    ⟨method, ClassM.onPool_eq_ok.mpr ⟨p, hp, rfl⟩, rfl⟩) .nil⟩

theorem exists_emitBody_sameInts : ∃ method c,
    emitBody sameIntsFrame sameIntsCode {} machineIntEnv bareClass =
      .ok ((), ⟨sameIntsItems method, {}⟩) c := by
  obtain ⟨method, c, hmethod⟩ := exists_interned_sameInts
  have hdecode : Instr.decodeRange sameIntsCode 0 sameIntsCode.size =
      ⟨[⟨0, .loadVar, [0]⟩, ⟨3, .loadVar, [1]⟩, ⟨6, .compareEQ, [0, 0]⟩, ⟨11, .returnObj, []⟩],
        none⟩ := by
    decide +kernel
  have hcompared : Comparison.relation .eq ⟨"[java]", "int", ""⟩ ⟨"[java]", "int", ""⟩
      (.ofRest [⟨11, .returnObj, []⟩] none) =
        { items := [.const invokeStatic (.method sameIntsMethod)] } := rfl
  have hcompare : ∀ copy, emitInstr sameIntsFrame copy ⟨6, .compareEQ, [0, 0]⟩
      (.ofRest [⟨11, .returnObj, []⟩] none)
      ⟨#[.mark 0, .load .int 0, .mark 3, .load .int 1, .mark 6], {}⟩ machineIntEnv bareClass =
        .ok (false, ⟨#[.mark 0, .load .int 0, .mark 3, .load .int 1, .mark 6,
          .const invokeStatic method], {}⟩) c := by
    intro copy
    refine BodyM.bind_eq_ok.mpr
      ⟨(⟨"[java]", "int", ""⟩, ⟨"[java]", "int", ""⟩), _, bareClass, rfl, ?_⟩
    dsimp only
    rw [hcompared]
    exact BodyM.bind_eq_ok.mpr ⟨(), _, c, BodyM.emit_eq_ok.mpr ⟨_, hmethod, rfl⟩, rfl⟩
  refine ⟨method, c, BodyM.bind_eq_ok.mpr ⟨(), ⟨(sameIntsItems method).pop, {}⟩, c, ?_, rfl⟩⟩
  unfold maxInlineDepth emitRange
  dsimp only
  rw [hdecode]
  refine emitInstrs_cons_iff.mpr ⟨false, _, bareClass, rfl, ?_⟩
  refine emitInstrs_cons_iff.mpr ⟨false, _, bareClass, rfl, ?_⟩
  refine emitInstrs_cons_iff.mpr ⟨false, _, c, hcompare _, ?_⟩
  exact emitInstrs_cons_iff.mpr ⟨false, _, c, rfl, rfl⟩

theorem exists_lowerCode_sameInts : ∃ mc c,
    lowerCode sameIntsFrame sameIntsCode {} {} machineIntEnv bareClass = .ok mc c ∧
    mc.reloc[6]? = some (some 2) ∧ mc.reloc[11]? = some (some 5) := by
  obtain ⟨method, c, hbody⟩ := exists_emitBody_sameInts
  have hnote : ∀ pre post q, (sameIntsItems method).toList = pre ++ Item.mark q :: post → _ :=
    fun pre post q hsplit => layout_note {} hbody hsplit (.inl rfl)
  obtain ⟨p, hp, hnone, hcompare, hreturn⟩ : ∃ p : PlacedCode,
      placeCode sameIntsFrame sameIntsCode {} machineIntEnv bareClass = .ok p c ∧
      p.finallies = {} ∧ p.reloc.getLocal 0 6 = some 2 ∧ p.reloc.getLocal 0 11 = some 5 :=
    ⟨_, placeCode_eq hbody, rfl,
      hnote [.mark 0, .load .int 0, .mark 3, .load .int 1] _ 6 rfl,
      hnote [.mark 0, .load .int 0, .mark 3, .load .int 1, .mark 6, .const invokeStatic method] _
        11 rfl⟩
  obtain ⟨mc, hfinish, hreloc⟩ :
      ∃ mc, p.finish sameIntsFrame = .ok mc ∧ mc.reloc = p.reloc.mainMap :=
    ⟨_, except_bind_eq_ok.mpr ⟨2, by rw [hnone]; rfl, rfl⟩, rfl⟩
  refine ⟨mc, c, ClassM.bind_eq_ok.mpr ⟨p, c, hp, ClassM.bind_eq_ok.mpr ⟨#[], c, rfl,
    ClassM.bind_eq_ok.mpr ⟨[], c, table_nil _ _, ClassM.bind_eq_ok.mpr ⟨machineIntEnv, c, rfl,
      ClassM.ofExcept_eq_ok.mpr ⟨hfinish, rfl⟩⟩⟩⟩⟩, ?_, ?_⟩
  · rw [hreloc]
    exact Relocation.mainMap_eq_some_iff.mpr hcompare
  · rw [hreloc]
    exact Relocation.mainMap_eq_some_iff.mpr hreturn

-- The integers go to a method of the runtime that takes objects.
theorem operands_unchecked_sameInts : ∃ mc c',
    lowerCode sameIntsFrame sameIntsCode {} {} machineIntEnv bareClass = .ok mc c' ∧
    mc.reloc[6]? = some (some 2) ∧ mc.reloc[11]? = some (some 5) ∧
    StackTyped machineIntEnv ⟨6, .compareEQ, [0, 0]⟩ [.int, .int] [.int] ∧
    ∀ k : Constants, k.Extends c'.draft.pool.get? → ∀ base,
      ¬TypeChecks k mc.code.code 2 5 [(5, .int :: base)] 2 (.int :: .int :: base) := by
  obtain ⟨mc, c', h, hcompare, hreturn⟩ := exists_lowerCode_sameInts
  have htyped : StackTyped machineIntEnv ⟨6, .compareEQ, [0, 0]⟩ [.int, .int] [.int] :=
    .relation (t := ⟨"[java]", "int", ""⟩) (u := ⟨"[java]", "int", ""⟩) rfl rfl rfl
      (by decide +kernel)
  refine ⟨mc, c', h, hcompare, hreturn, htyped, fun k hk base => ?_⟩
  obtain ⟨body, c₁, hl, hextends⟩ := lowered_of_wellFormed (wellFormed_bare _) h
  have hnote : ∀ q java, mc.reloc[q]? = some (some java) →
      (body.layout sameIntsCode {}).reloc.getLocal 0 q = some java := by
    intro q java hq
    rw [hl.filled.main] at hq
    exact Relocation.mainMap_eq_some_iff.mp hq
  have hmistyped : Mistyped machineIntEnv bareClass.draft.name ⟨6, .compareEQ, [0, 0]⟩ :=
    .operand (.inr rfl) (.inl rfl) (by decide +kernel)
  have halone : ¬∃ j, TakesAlong machineIntEnv sameIntsCode 6 ⟨6, .compareEQ, [0, 0]⟩ j := by
    rintro ⟨j, -, hj, hsense, -⟩
    cases hj
    cases hsense
  obtain ⟨stop, hstop, hiff⟩ := (hl.checksOperands (wellFormed_bare _) (hk.trans hextends) 0 6 2 _ _ _
    (hnote 6 2 hcompare) (by decide +kernel) htyped).2 halone
  cases hstop.symm.trans (hnote 11 5 hreturn)
  exact fun hchecks => (hiff base).mp hchecks hmistyped

end PodCompiler.Lowering
