import PodCompiler.Proofs.Jvm.LocalAccess
import PodCompiler.Proofs.Lowering.BodyLayout
import PodCompiler.Proofs.Lowering.ClassSteps

namespace PodCompiler.Lowering

open ClassFile (CodeBuffer)
open ClassFile.Op
open Jvm (namesLocal)

namespace Item

variable {ρ : Type}

-- The bytes of an item that is neither a mark nor a switch nor the edge of a copy.
def size : Item ρ → Nat
  | .op _ => 1
  | .byte _ _ => 2
  | .const _ _ | .hop _ _ | .jump .. => 3
  | .interface _ _ => 5
  | .load _ slot | .store _ slot => if slot ≤ 3 then 1 else if slot ≤ 0xFF then 2 else 4
  | .onSlot _ slot => if slot ≤ 0xFF then 2 else 4
  | .mark _ | .reserve _ | .switch _ | .enter | .leave .. => 0

-- Whether an opcode is an instruction of its own that has no local.
def isLone (o : UInt8) : Bool :=
  fixedLength? o = some 1 && !namesLocal o

-- Whether the opcode of an item takes the bytes that are written behind it, and has no local but that
-- of the item. Only a subroutine call goes into a finally block.
def isWhole : Item ρ → Bool
  | .op o => isLone o
  | .byte o _ => fixedLength? o = some 2 && !namesLocal o
  | .const o _ => fixedLength? o = some 3 && !isBranch o && !namesLocal o
  | .onSlot o _ => fixedLength? o = some 2
  | .hop o _ => isBranch o
  | .jump kind o _ => isBranch o && (kind = .branch || kind = .finally_ && o = jsr)
  | _ => true

-- Whether a way of `n` bytes from the beginning of the items comes to the beginning of one of them,
-- or behind the last one.
def lands : (n : Nat) → List (Item ρ) → Bool
  | n, [] => n == 0
  | n, x :: rest => n == 0 || (x.isInert && (x.size ≤ n && lands (n - x.size) rest))

-- Whether a jump by a fixed distance, before the items `rest`, comes to one of them.
def hopLands (rest : List (Item ρ)) : Item ρ → Bool
  | .hop _ distance =>
    3 ≤ distance.toNat && (distance.toNat < 0x8000 && lands (distance.toNat - 3) rest)
  | _ => true

-- Whether items are whole instructions, whose jumps by a fixed distance stay among them.
def isTidy : List (Item ρ) → Bool
  | [] => true
  | x :: rest => x.isWhole && (hopLands rest x && isTidy rest)

theorem lands_append {n : Nat} {xs : List (Item ρ)} (h : lands n xs = true)
    (ys : List (Item ρ)) : lands n (xs ++ ys) = true := by
  induction xs generalizing n with
  | nil =>
    have hn : n = 0 := by simpa [lands] using h
    subst hn
    cases ys <;> rfl
  | cons x rest ih =>
    simp only [lands, List.cons_append, Bool.or_eq_true, Bool.and_eq_true] at h ⊢
    obtain h | ⟨hx, hle, hrest⟩ := h
    · exact .inl h
    · exact .inr ⟨hx, hle, ih hrest⟩

theorem hopLands_append {x : Item ρ} {xs : List (Item ρ)} (h : hopLands xs x = true)
    (ys : List (Item ρ)) : hopLands (xs ++ ys) x = true := by
  cases x with
  | hop o distance =>
    simp only [hopLands, Bool.and_eq_true] at h ⊢
    exact ⟨h.1, h.2.1, lands_append h.2.2 ys⟩
  | _ => rfl

theorem isTidy_append {xs ys : List (Item ρ)} (hx : isTidy xs = true) (hy : isTidy ys = true) :
    isTidy (xs ++ ys) = true := by
  induction xs with
  | nil => exact hy
  | cons x rest ih =>
    simp only [isTidy, List.cons_append, Bool.and_eq_true] at hx ⊢
    exact ⟨hx.1, hopLands_append hx.2.1 ys, ih hx.2.2⟩

-- An item that stands for itself before tidy items.
theorem isTidy_cons {x : Item ρ} {xs : List (Item ρ)} (hx : isTidy [x] = true)
    (hxs : isTidy xs = true) : isTidy (x :: xs) = true :=
  isTidy_append hx hxs

theorem isTidy_ops {codes : List UInt8} (h : ∀ o ∈ codes, isLone o = true) :
    isTidy (codes.map (op : UInt8 → Item ρ)) = true := by
  induction codes with
  | nil => rfl
  | cons o rest ih =>
    rw [List.forall_mem_cons] at h
    simp [isTidy, isWhole, hopLands, h.1, ih h.2]

-- A constant changes neither what an item is nor how long it is.
theorem of_mapM {env : ClassEnv} {c c' : OpenClass} {i : Item Ref} {j : Item UInt16}
    (h : i.mapM Ref.intern env c = .ok j c') :
    j.size = i.size ∧ j.isWhole = i.isWhole ∧ ∀ o d, i = .hop o d ↔ j = .hop o d := by
  cases i with
  | reserve r | const o r | interface r slots =>
    obtain ⟨x, -, hx⟩ := ClassM.map_eq_ok.mp h
    subst hx
    simp [size, isWhole]
  | _ =>
    cases h
    simp [size, isWhole]

theorem Interned.lands {env : ClassEnv} {c c' : OpenClass} {is : List (Item Ref)}
    {js : List (Item UInt16)} (h : Interned env c is js c') (n : Nat) :
    lands n js = lands n is := by
  induction h generalizing n with
  | nil => rfl
  | cons hj _ ih => rw [Item.lands, Item.lands, (isInert_of_mapM hj).1, (of_mapM hj).1, ih]

theorem Interned.isTidy {env : ClassEnv} {c c' : OpenClass} {is : List (Item Ref)}
    {js : List (Item UInt16)} (h : Interned env c is js c') (hi : isTidy is = true) :
    isTidy js = true := by
  induction h with
  | nil => rfl
  | @cons _ _ _ i j is js hj hjs ih =>
    simp only [Item.isTidy, Bool.and_eq_true] at hi ⊢
    obtain ⟨hwhole, hhop, hrest⟩ := hi
    obtain ⟨-, hwhole', hsame⟩ := of_mapM hj
    refine ⟨hwhole'.trans hwhole, ?_, ih hrest⟩
    cases j with
    | hop o d =>
      obtain rfl := (hsame o d).mpr rfl
      simp only [hopLands, hjs.lands] at hhop ⊢
      exact hhop
    | _ => rfl

end Item

section Tidy

open BodyM (Appends Concatenative)

-- Items that are whole instructions.
def Tidy (its : List (Item UInt16)) : Prop :=
  Item.isTidy its = true

instance : Concatenative Tidy where
  nil := rfl
  append := Item.isTidy_append

@[simp] theorem tidy_emit {items : List (Item Ref)} (h : Item.isTidy items = true) :
    Appends Tidy (BodyM.emit items) :=
  BodyM.appends_emit fun _ _ _ _ hits => hits.isTidy h

@[simp] theorem tidy_plain {items : List (Item Ref)} (h : Item.isTidy items = true) :
    Appends Tidy (plain items) := by
  simp [plain, h]

theorem tidy_emitOk {x : Except LoweringError (List (Item Ref))}
    (hx : ∀ items, x = .ok items → Item.isTidy items = true) : Appends Tidy (BodyM.emitOk x) :=
  BodyM.appends_emitOk fun items hok => tidy_emit (hx items hok)

variable (t u : TypeRef)

theorem tidy_pushType : Item.isTidy (Conversion.pushType t) = true := by
  unfold Conversion.pushType
  split
  · split <;> rfl
  · rfl

theorem tidy_isInstance : Item.isTidy (Conversion.isInstance t) = true := by
  unfold Conversion.isInstance
  split
  · exact Item.isTidy_append (tidy_pushType t) rfl
  · rfl

theorem tidy_asInstance : Item.isTidy (Conversion.asInstance t) = true := by
  unfold Conversion.asInstance
  dsimp only
  split
  · rw [List.cons_append]
    simp only [Item.isTidy, Item.isWhole, Item.hopLands, Bool.true_and]
    exact Item.isTidy_append (tidy_pushType t) rfl
  · rfl

theorem tidy_box {stack : StackType} {items : List (Item Ref)}
    (h : Conversion.box stack = .ok items) : Item.isTidy items = true := by
  unfold Conversion.box at h
  split at h <;> cases h
  rfl

theorem tidy_unbox {stack : StackType} {items : List (Item Ref)}
    (h : Conversion.unbox stack = .ok items) : Item.isTidy items = true := by
  unfold Conversion.unbox at h
  split at h <;> cases h
  rfl

theorem tidy_cast {items : List (Item Ref)} (h : Conversion.cast t = .ok items) :
    Item.isTidy items = true := by
  unfold Conversion.cast at h
  split at h
  · exact tidy_unbox h
  · cases h
    rfl

-- Numbers are converted by instructions without operands.
theorem isLone_convert {source target : StackType} {codes : List UInt8}
    (h : Conversion.convert? source target = some codes) :
    ∀ o ∈ codes, Item.isLone o = true := by
  have hkind : ∀ a b, ∀ o ∈ Conversion.convertKind a b, Item.isLone o = true := by
    intro a b
    cases a <;> cases b <;> simp [Conversion.convertKind] <;> rfl
  have hnarrow : ∀ s, ∀ o ∈ Conversion.narrow s, Item.isLone o = true := by
    intro s
    cases s <;> simp [Conversion.narrow] <;> rfl
  unfold Conversion.convert? at h
  split at h <;> cases h
  intro o ho
  obtain ho | ho := List.mem_append.mp ho
  · exact hkind _ _ o ho
  · exact hnarrow _ o ho

theorem tidy_coerce {items : List (Item Ref)} (h : Conversion.coerce t u = .ok items) :
    Item.isTidy items = true := by
  unfold Conversion.coerce at h
  dsimp only at h
  split at h
  · cases h
  · cases h
  · cases h
    refine Item.isTidy_append ?_ ?_
    · split <;> rfl
    · split <;> rfl
  · exact tidy_box h
  · obtain ⟨unboxed, hu, h⟩ := except_bind_eq_ok.mp h
    cases h
    refine Item.isTidy_append ?_ (tidy_unbox hu)
    split <;> rfl
  · split at h
    · cases h
      rfl
    · split at h
      · rename_i codes hcodes
        cases h
        exact Item.isTidy_ops (isLone_convert hcodes)
      · cases h

theorem tidy_popItems : Item.isTidy (popItems t) = true := by
  unfold popItems
  split
  · rfl
  · split <;> rfl

theorem tidy_returnOp (s : StackType) : Item.isTidy [(.op (returnOp s) : Item Ref)] = true := by
  cases s <;> rfl

-- What stands for a jump of an instruction is a jump of the machine.
theorem tidy_fusedJump {pos : Nat} {before : List (Item Ref)} {o : UInt8} {sense : Bool}
    {target : UInt16} (hbefore : Item.isTidy before = true) (ho : isBranch o = true) :
    Item.isTidy (Comparison.fusedJump pos before o sense target).items = true := by
  have hsense := Comparison.isBranch_sense ho sense
  simp only [Comparison.fusedJump, List.cons_append, Item.isTidy, Item.isWhole, Item.hopLands,
    Bool.true_and]
  refine Item.isTidy_append hbefore ?_
  simp [Item.isTidy, Item.isWhole, Item.hopLands, hsense]

theorem tidy_jumpOr {next : Following} {before : List (Item Ref)} {o : UInt8} {unfused : Compared}
    (hbefore : Item.isTidy before = true) (ho : isBranch o = true)
    (hunfused : Item.isTidy unfused.items = true) :
    Item.isTidy (Comparison.jumpOr next before o unfused).items = true := by
  unfold Comparison.jumpOr
  split
  · exact tidy_fusedJump hbefore ho
  · rfl
  · exact hunfused

theorem tidy_byRuntime (rel : Relation) (next : Following) :
    Item.isTidy (Comparison.byRuntime rel t u next).items = true := by
  unfold Comparison.byRuntime
  dsimp only
  split
  · rename_i pos sense target
    have hjump : Item.isTidy (Comparison.fusedJump pos [] ifne sense target).items = true :=
      tidy_fusedJump rfl rfl
    exact Item.isTidy_cons rfl hjump
  · rfl
  · rfl

theorem tidy_direct? {rel : Relation} {lhs rhs : StackType} {before : List (Item Ref)} {o : UInt8}
    (h : Comparison.direct? rel lhs rhs = some (before, o)) : Item.isTidy before = true := by
  unfold Comparison.direct? at h
  split at h
  · split at h <;> cases h <;> rfl
  · cases h

theorem Compares.tidy {env : ClassEnv} {i : Instr} {next : Following} {cmp : Compared}
    (h : Compares env i next cmp) : Item.isTidy cmp.items = true := by
  have hrelation : ∀ (rel : Relation) (t u : TypeRef),
      Item.isTidy (Comparison.relation rel t u next).items = true := by
    intro rel t u
    unfold Comparison.relation
    split
    · rename_i before o hdirect
      exact tidy_jumpOr (tidy_direct? hdirect) (Comparison.direct?_eq_some hdirect).2 (tidy_byRuntime _ _ _ _)
    · exact tidy_byRuntime _ _ _ _
  have hsame : ∀ want, Item.isTidy (Comparison.same want next).items = true := by
    intro want
    cases want <;> exact tidy_jumpOr rfl rfl rfl
  have hnull : ∀ want (t : TypeRef), Item.isTidy (Comparison.null want t next).items = true := by
    intro want t
    unfold Comparison.null
    split
    · cases t.isWide <;> cases want <;> rfl
    · cases want <;> exact tidy_jumpOr rfl rfl rfl
  cases h with
  | relation _ _ _ => exact hrelation _ _ _
  | same want _ => exact hsame want
  | null want _ _ => exact hnull want _

-- The instructions that a call becomes take no operands, but for those that name a constant or the
-- type of an element.
theorem isLone_of_lookup? {parent : TypeRef} {name : String} {codes : List UInt8}
    (h : Intrinsic.lookup? parent name = some (.ops codes)) :
    ∀ o ∈ codes, Item.isLone o = true := by
  have hbool : ∀ name codes, Intrinsic.boolOps? name = some codes →
      codes.all Item.isLone = true := by
    intro name codes h
    unfold Intrinsic.boolOps? at h
    split at h <;> cases h <;> rfl
  have hint : ∀ name codes, Intrinsic.intOps? name = some codes →
      codes.all Item.isLone = true := by
    intro name codes h
    unfold Intrinsic.intOps? at h
    split at h <;> cases h <;> rfl
  have hfloat : ∀ name codes, Intrinsic.floatOps? name = some codes →
      codes.all Item.isLone = true := by
    intro name codes h
    unfold Intrinsic.floatOps? at h
    split at h <;> cases h <;> rfl
  have harray : ∀ element name codes, Intrinsic.ofArray? element name = some (.ops codes) →
      codes.all Item.isLone = true := by
    intro element name codes h
    unfold Intrinsic.ofArray? at h
    split at h
    · rename_i code load store hcode helement
      split at h <;> cases h
      · rfl
      · cases element <;> cases helement <;> rfl
      · cases element <;> cases helement <;> rfl
    · cases h
  rw [← List.all_eq_true]
  unfold Intrinsic.lookup? at h
  repeat' split at h
  · cases h
  · cases h
  · exact harray _ _ _ h
  · obtain ⟨codes', hcodes, heq⟩ := Option.map_eq_some_iff.mp h
    cases heq
    exact hbool _ _ hcodes
  · obtain ⟨codes', hcodes, heq⟩ := Option.map_eq_some_iff.mp h
    cases heq
    exact hint _ _ hcodes
  · obtain ⟨codes', hcodes, heq⟩ := Option.map_eq_some_iff.mp h
    cases heq
    exact hfloat _ _ hcodes
  · cases h

-- A call that is an instruction of the machine takes three bytes, or five with the slots.
theorem tidy_invoke {kind : CallKind} {parent ret : TypeRef} {name : String}
    {params : List TypeRef} {inv : Invoke}
    (h : Resolver.invoke kind parent name params ret = .ok inv) :
    Item.isTidy (Call.invoke inv).items = true := by
  unfold Resolver.invoke at h
  cases kind with
  | ctor | virtual | mixinVirtual =>
    dsimp only at h
    split at h <;> cases h <;> rfl
  | _ =>
    cases h
    rfl

theorem tidy_call {symbols : Pod.Symbols} {index : UInt16} {kind : CallKind} {call : Call}
    (h : Resolver.computeCall symbols index kind = .ok call) :
    Item.isTidy call.items = true := by
  obtain ⟨m, -, h⟩ := except_bind_eq_ok.mp h
  obtain ⟨parent, -, h⟩ := except_bind_eq_ok.mp h
  split at h
  · rename_i intrinsic hlookup
    cases h
    split at hlookup
    · cases intrinsic with
      | ops codes => exact Item.isTidy_ops (isLone_of_lookup? hlookup)
      | newObject cls | classLiteral cls | newArray element => rfl
    · cases hlookup
  · obtain ⟨params, -, h⟩ := except_bind_eq_ok.mp h
    obtain ⟨ret, -, h⟩ := except_bind_eq_ok.mp h
    cases hinvoke : Resolver.invoke kind parent m.name params ret with
    | error e =>
      rw [hinvoke] at h
      cases h
    | ok inv =>
      rw [hinvoke] at h
      cases h
      exact tidy_invoke hinvoke

variable (f : Frame) (i : Instr)

@[simp] theorem tidy_emitLiteral (kind : Pod.LiteralKind) :
    Appends Tidy (emitLiteral kind i) := by
  unfold emitLiteral
  refine BodyM.appends_bind BodyM.appends_read fun env => ?_
  refine BodyM.appends_bind (BodyM.appends_ofExcept _) fun r => tidy_emit ?_
  cases kind <;> rfl

theorem tidy_emitField {o : UInt8} (ho : fixedLength? o = some 3) (hbranch : isBranch o = false)
    (hlocal : namesLocal o = false) (mixin : Bool) : Appends Tidy (emitField o i mixin) := by
  unfold emitField
  refine BodyM.appends_bind (BodyM.appends_lift _) fun symbols => ?_
  refine BodyM.appends_bind (BodyM.appends_lift _) fun sig => tidy_emit ?_
  simp [Item.isTidy, Item.isWhole, Item.hopLands, ho, hbranch, hlocal]

-- Where a finally block is a subroutine, the call at its start goes over what throws the exception
-- again.
@[simp] theorem tidy_emitFinallyStart : Appends Tidy (emitFinallyStart f i) := by
  unfold emitFinallyStart
  refine BodyM.appends_bind BodyM.appends_read fun env => ?_
  split
  · refine BodyM.appends_bind (BodyM.appends_slots _) fun slots => tidy_emit ?_
    obtain ⟨exception, address⟩ := slots
    unfold FinallySlots.slotOpSize
    by_cases hslot : exception ≤ 0xFF
    · simp [Item.isTidy, Item.isWhole, Item.hopLands, Item.lands, Item.size, hslot]
      decide
    · simp [Item.isTidy, Item.isWhole, Item.hopLands, Item.lands, Item.size, hslot]
      decide
  · refine BodyM.appends_bind (BodyM.appends_slots _) fun slot => ?_
    exact BodyM.appends_bind (BodyM.appends_modify fun _ => rfl) fun _ => tidy_emit rfl

@[simp] theorem tidy_emitFinallyEnd : Appends Tidy (emitFinallyEnd f i) := by
  unfold emitFinallyEnd
  refine BodyM.appends_bind BodyM.appends_read fun env => ?_
  split
  · exact BodyM.appends_bind (BodyM.appends_slots _) fun slots => tidy_emit rfl
  · refine BodyM.appends_bind BodyM.appends_get fun s => ?_
    dsimp only
    split
    · exact BodyM.appends_throw _
    · refine BodyM.appends_bind (BodyM.appends_modify fun _ => rfl) fun _ => ?_
      split
      · exact BodyM.appends_throw _
      · exact tidy_emit rfl

@[simp] theorem tidy_emitJumpFinally : Appends Tidy (emitJumpFinally (noCopy f) i) := by
  unfold emitJumpFinally
  refine BodyM.appends_bind BodyM.appends_read fun env => ?_
  split
  · exact tidy_emit rfl
  · exact BodyM.appends_throw _

-- An instruction that calls nothing and compares nothing.
theorem tidy_emitInstr (next : Following) (hcall : CallKind.ofOpcode? i.op = none)
    (hcompare : isComparison i.op = false) : Appends Tidy (emitInstr f (noCopy f) i next) := by
  have hfalse : ∀ {m : BodyM Unit}, Appends Tidy m → Appends Tidy (m >>= fun _ => pure false) :=
    fun hm => BodyM.appends_bind hm fun _ => BodyM.appends_pure _
  have htype : ∀ {k : TypeRef → BodyM Bool}, (∀ t, Appends Tidy (k t)) →
      Appends Tidy (liftM (ClassM.typeRef i.arg) >>= k) :=
    fun hk => BodyM.appends_bind (BodyM.appends_lift _) hk
  unfold emitInstr
  cases hop : i.op <;> rw [hop] at hcall hcompare
  case callNew | callCtor | callStatic | callVirtual | callNonVirtual | callMixinStatic |
      callMixinVirtual | callMixinNonVirtual => cases hcall
  case compareEQ | compareNE | compareLT | compareLE | compareGT | compareGE | compareSame |
      compareNotSame | compareNull | compareNotNull => cases hcompare
  case nop | catchEnd => exact BodyM.appends_pure _
  case loadInt | loadFloat | loadDecimal | loadStr | loadDuration | loadUri =>
    exact hfalse (tidy_emitLiteral i _)
  case loadVar | storeVar =>
    exact BodyM.appends_bind (BodyM.appends_ofExcept _) fun l => tidy_plain rfl
  case loadInstance | storeInstance | loadStatic | storeStatic | loadMixinStatic |
      storeMixinStatic => exact hfalse (tidy_emitField i rfl rfl rfl _)
  case loadType => exact htype fun t => tidy_plain (tidy_pushType t)
  case pop => exact htype fun t => tidy_plain (tidy_popItems t)
  case is => exact htype fun t => tidy_plain (tidy_isInstance t)
  case as => exact htype fun t => tidy_plain (tidy_asInstance t)
  case dup =>
    refine htype fun t => tidy_plain ?_
    cases t.isWide <;> rfl
  case cast => exact htype fun t => hfalse (tidy_emitOk fun _ h => tidy_cast t h)
  case catchErrStart =>
    refine BodyM.appends_bind (tidy_emit rfl) fun _ => ?_
    exact htype fun t => hfalse (tidy_emitOk fun _ h => tidy_cast t h)
  case coerce =>
    refine BodyM.appends_bind (BodyM.appends_lift _) fun pair => ?_
    exact hfalse (tidy_emitOk fun _ h => tidy_coerce _ _ h)
  case compare => exact BodyM.appends_bind (BodyM.appends_lift _) fun pair => tidy_plain rfl
  case returnObj => exact tidy_plain (tidy_returnOp _)
  case jumpFinally => exact hfalse (tidy_emitJumpFinally f i)
  case finallyStart => exact hfalse (tidy_emitFinallyStart f i)
  case finallyEnd => exact hfalse (tidy_emitFinallyEnd f i)
  all_goals exact tidy_plain rfl

end Tidy

section Body

variable {env : ClassEnv} {f : Frame} {code : Bytes}

-- What an instruction is lowered to, in a class that keeps calls as they are resolved.
theorem Emits.tidy {i : Instr} {next : Following} {e e' : EmitState} {fused : Bool}
    {its : List (Item UInt16)} (h : Emits env f i next e fused its e')
    (hc : e.cls.WellFormed env) : Tidy its := by
  cases hcall : CallKind.ofOpcode? i.op with
  | some kind =>
    have hrun : (emitCall kind i >>= fun _ => pure false) ⟨#[], e.slots⟩ env e.cls =
        .ok (fused, ⟨its.toArray, e'.slots⟩) e'.cls := by
      unfold Emits emitInstr at h
      unfold CallKind.ofOpcode? at hcall
      split at hcall <;> cases hcall <;> simpa [*] using h
    obtain ⟨u, s₁, c₁, h₁, h₂⟩ := BodyM.bind_eq_ok.mp hrun
    obtain ⟨call, c₂, hresolve, hemit⟩ := emitCall_eq_ok h₁
    obtain ⟨hcompute, -, -⟩ := ClassM.onResolver_call_eq_ok hc hresolve
    obtain ⟨js, hjs, rfl⟩ := BodyM.emit_eq_ok.mp hemit
    obtain ⟨-, hs, -⟩ := BodyM.pure_eq_ok.mp h₂
    have hits : its = js := by simpa using congrArg (fun s => s.items.toList) hs
    rw [hits]
    exact hjs.isTidy (tidy_call hcompute)
  | none =>
    cases hcompare : Lowering.isComparison i.op with
    | true =>
      obtain ⟨cmp, hcmp, hits, -, -⟩ := h.comparison hcompare
      exact hits.isTidy hcmp.tidy
    | false =>
      obtain ⟨js, hjs, htidy⟩ := tidy_emitInstr f i next hcall hcompare _ _ _ _ _ _ h
      have hits : its = js := by simpa using congrArg Array.toList hjs
      rw [hits]
      exact htidy

theorem Emission.tidy {e e' : EmitState} {instrs : List Instr} {its : List (Item UInt16)}
    (h : Emission env f code e instrs its e') (hc : e.cls.WellFormed env) : Tidy its := by
  have hmark : ∀ {p : Nat} {xs : List (Item UInt16)}, Tidy xs → Tidy (.mark p :: xs) :=
    fun hxs => Item.isTidy_cons rfl hxs
  induction h with
  | nil => rfl
  | one hi _ ih => exact hmark (Item.isTidy_append (hi.tidy hc) (ih (hi.advances hc).1))
  | fused hi _ ih => exact hmark (Item.isTidy_append (hi.tidy hc) (ih (hi.advances hc).1))
  | copy _ _ _ _ hbody _ ihbody ihrest =>
    refine hmark (Item.isTidy_cons rfl ?_)
    refine Item.isTidy_append (ihbody hc) ?_
    exact Item.isTidy_cons rfl (ihrest (hbody.later.advances hc).1)

-- The items of a whole method.
theorem tidy_of_emitBody {c c₁ : OpenClass} {body : BodyState}
    (h : emitBody f code {} env c = .ok ((), body) c₁) (hc : c.WellFormed env) :
    Tidy body.items.toList := by
  obtain ⟨instrs, its, -, hder, hitems⟩ := items_of_emitBody h
  rw [hitems]
  exact Item.isTidy_append (hder.tidy hc) rfl

end Body

end PodCompiler.Lowering
