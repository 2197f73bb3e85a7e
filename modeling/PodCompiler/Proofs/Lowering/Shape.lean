import PodCompiler.Proofs.Lowering.Steps

namespace PodCompiler.Lowering

open ClassFile.Op

namespace Item

variable {ρ : Type}

-- Whether an item is neither a mark nor the edge of a copy nor a jump into the method.
def isInert : Item ρ → Bool
  | .mark _ | .jump .. | .switch _ | .enter | .leave .. => false
  | _ => true

@[simp] theorem isInert_op {o : UInt8} : (op o : Item ρ).isInert = true := rfl

@[simp] theorem isInert_const {o : UInt8} {r : ρ} : (const o r).isInert = true := rfl

@[simp] theorem isInert_load {t : StackType} {n : UInt16} : (load t n : Item ρ).isInert = true := rfl

@[simp] theorem isInert_store {t : StackType} {n : UInt16} :
    (store t n : Item ρ).isInert = true := rfl

@[simp] theorem isInert_onSlot {o : UInt8} {n : UInt16} : (onSlot o n : Item ρ).isInert = true := rfl

@[simp] theorem isInert_hop {o : UInt8} {n : UInt16} : (hop o n : Item ρ).isInert = true := rfl

@[simp] theorem isInert_callStatic {sig : String} : (callStatic sig).isInert = true := rfl

@[simp] theorem isInert_callVirtual {sig : String} : (callVirtual sig).isInert = true := rfl

def Inert (items : List (Item ρ)) : Prop :=
  ∀ x ∈ items, x.isInert = true

@[simp] theorem inert_nil : Inert ([] : List (Item ρ)) := by
  simp [Inert]

@[simp] theorem inert_cons {x : Item ρ} {xs : List (Item ρ)} :
    Inert (x :: xs) ↔ x.isInert = true ∧ Inert xs := by
  simp [Inert]

@[simp] theorem inert_append {xs ys : List (Item ρ)} :
    Inert (xs ++ ys) ↔ Inert xs ∧ Inert ys := by
  simp [Inert, or_imp, forall_and]

-- Whether an item is an instruction that does not say which slot it is on.
def isSlotless : Item ρ → Bool
  | .reserve _ | .op _ | .byte _ _ | .const _ _ | .interface _ _ | .hop _ _ => true
  | _ => false

@[simp] theorem isSlotless_reserve {r : ρ} : (reserve r).isSlotless = true := rfl

@[simp] theorem isSlotless_op {o : UInt8} : (op o : Item ρ).isSlotless = true := rfl

@[simp] theorem isSlotless_byte {o x : UInt8} : (byte o x : Item ρ).isSlotless = true := rfl

@[simp] theorem isSlotless_const {o : UInt8} {r : ρ} : (const o r).isSlotless = true := rfl

@[simp] theorem isSlotless_interface {r : ρ} {n : UInt8} :
    (interface r n).isSlotless = true := rfl

@[simp] theorem isSlotless_hop {o : UInt8} {n : UInt16} :
    (hop o n : Item ρ).isSlotless = true := rfl

@[simp] theorem isSlotless_callStatic {sig : String} : (callStatic sig).isSlotless = true := rfl

@[simp] theorem isSlotless_callVirtual {sig : String} : (callVirtual sig).isSlotless = true := rfl

def Slotless (items : List (Item ρ)) : Prop :=
  ∀ x ∈ items, x.isSlotless = true

@[simp] theorem slotless_nil : Slotless ([] : List (Item ρ)) := by
  simp [Slotless]

@[simp] theorem slotless_cons {x : Item ρ} {xs : List (Item ρ)} :
    Slotless (x :: xs) ↔ x.isSlotless = true ∧ Slotless xs := by
  simp [Slotless]

@[simp] theorem slotless_append {xs ys : List (Item ρ)} :
    Slotless (xs ++ ys) ↔ Slotless xs ∧ Slotless ys := by
  simp [Slotless, or_imp, forall_and]

@[simp] theorem slotless_map_op {codes : List UInt8} :
    Slotless (codes.map (op : UInt8 → Item ρ)) := by
  simp [Slotless]

theorem isInert_of_isSlotless {x : Item ρ} (h : x.isSlotless = true) : x.isInert = true := by
  cases x with
  | mark | jump | switch | enter | leave => cases h
  | _ => rfl

theorem Slotless.inert {items : List (Item ρ)} (h : Slotless items) : Inert items :=
  fun x hx => isInert_of_isSlotless (h x hx)

-- Items whose constants entered the pool in their order, which took a class to another state.
inductive Interned (env : ClassEnv) :
    OpenClass → List (Item Ref) → List (Item UInt16) → OpenClass → Prop where
  | nil {c : OpenClass} : Interned env c [] [] c
  | cons {c c₁ c₂ : OpenClass} {i : Item Ref} {j : Item UInt16} {is : List (Item Ref)}
      {js : List (Item UInt16)} :
      i.mapM Ref.intern env c = .ok j c₁ → Interned env c₁ is js c₂ →
      Interned env c (i :: is) (j :: js) c₂

-- The index of a constant takes its place, and nothing else changes.
theorem isInert_of_mapM {env : ClassEnv} {c c' : OpenClass} {i : Item Ref} {j : Item UInt16}
    (h : i.mapM Ref.intern env c = .ok j c') :
    j.isInert = i.isInert ∧ j.isSlotless = i.isSlotless := by
  cases i with
  | reserve r | const o r | interface r slots =>
    obtain ⟨x, -, hx⟩ := ClassM.map_eq_ok.mp h
    subst hx
    exact ⟨rfl, rfl⟩
  | _ =>
    cases h
    exact ⟨rfl, rfl⟩

theorem Interned.inert {env : ClassEnv} {c c' : OpenClass} {is : List (Item Ref)}
    {js : List (Item UInt16)} (h : Interned env c is js c') (hi : Inert is) : Inert js := by
  induction h with
  | nil => exact inert_nil
  | cons hj _ ih =>
    rw [inert_cons] at hi ⊢
    exact ⟨(isInert_of_mapM hj).1.trans hi.1, ih hi.2⟩

theorem Interned.slotless {env : ClassEnv} {c c' : OpenClass} {is : List (Item Ref)}
    {js : List (Item UInt16)} (h : Interned env c is js c') (hi : Slotless is) : Slotless js := by
  induction h with
  | nil => exact slotless_nil
  | cons hj _ ih =>
    rw [slotless_cons] at hi ⊢
    exact ⟨(isInert_of_mapM hj).2.trans hi.1, ih hi.2⟩

-- A list of items is taken apart with its constants.
theorem Interned.append_left {env : ClassEnv} {c c' : OpenClass} {is₁ is₂ : List (Item Ref)}
    {js : List (Item UInt16)} (h : Interned env c (is₁ ++ is₂) js c') :
    ∃ js₁ js₂ c₁, js = js₁ ++ js₂ ∧ Interned env c is₁ js₁ c₁ ∧ Interned env c₁ is₂ js₂ c' := by
  induction is₁ generalizing c js with
  | nil => exact ⟨[], js, c, rfl, .nil, h⟩
  | cons i is₁ ih =>
    cases h with
    | @cons _ c₁ _ _ j _ js hj hjs =>
      obtain ⟨js₁, js₂, c₂, rfl, h₁, h₂⟩ := ih hjs
      exact ⟨j :: js₁, js₂, c₂, rfl, .cons hj h₁, h₂⟩

end Item

namespace BodyM

variable {α β : Type} {env : ClassEnv} {s s' : BodyState} {c c' : OpenClass} {a : α}

theorem emit_eq_ok {items : List (Item Ref)} :
    emit items s env c = .ok ((), s') c' ↔
      ∃ its, Item.Interned env c items its c' ∧
        s' = { s with items := s.items ++ its.toArray } := by
  induction items generalizing s c with
  | nil =>
    rw [emit, pure_eq_ok]
    constructor
    · rintro ⟨-, rfl, rfl⟩
      exact ⟨[], .nil, by simp⟩
    · rintro ⟨its, hits, rfl⟩
      cases hits
      exact ⟨rfl, by simp, rfl⟩
  | cons i rest ih =>
    unfold emit
    simp only [bind_eq_ok, lift_eq_ok]
    constructor
    · rintro ⟨j, s₁, c₁, ⟨hj, rfl⟩, u, s₂, c₂, hmod, hrest⟩
      cases hmod
      obtain ⟨its, hits, rfl⟩ := ih.mp hrest
      exact ⟨j :: its, .cons hj hits, by simp⟩
    · rintro ⟨its, hits, rfl⟩
      cases hits with
      | @cons _ c₁ _ _ j _ js hj hjs =>
        refine ⟨j, s, c₁, ⟨hj, rfl⟩, (), ⟨s.items.push j, s.finallies⟩, c₁, rfl, ?_⟩
        exact ih.mpr ⟨js, hjs, by simp⟩

-- What holds of no items, and of items with others behind them if it holds of both.
class Concatenative (P : List (Item UInt16) → Prop) : Prop where
  nil : P []
  append {xs ys : List (Item UInt16)} : P xs → P ys → P (xs ++ ys)

-- A step that appends items of which `P` holds.
def Appends (P : List (Item UInt16) → Prop) (m : BodyM α) : Prop :=
  ∀ s env c a s' c', m s env c = .ok (a, s') c' →
    ∃ its : List (Item UInt16), s'.items = s.items ++ its.toArray ∧ P its

section Appends

variable {P : List (Item UInt16) → Prop} [Concatenative P]

-- A step that leaves the items as they are appends none.
theorem appends_of_eq {m : BodyM α}
    (h : ∀ s env c a s' c', m s env c = .ok (a, s') c' → s'.items = s.items) : Appends P m := by
  intro s env c a s' c' hm
  exact ⟨[], by simpa using h s env c a s' c' hm, Concatenative.nil⟩

@[simp] theorem appends_pure (a : α) : Appends P (pure a) := by
  refine appends_of_eq ?_
  intro s env c b s' c' h
  rw [(pure_eq_ok.mp h).2.1]

omit [Concatenative P] in
@[simp] theorem appends_throw (e : LoweringError) : Appends P (throw e : BodyM α) := by
  intro s env c a s' c' h
  cases h

@[simp] theorem appends_read : Appends P (read : BodyM ClassEnv) := by
  refine appends_of_eq ?_
  intro s env c r s' c' h
  rw [(read_eq_ok.mp h).2.1]

@[simp] theorem appends_get : Appends P (get : BodyM BodyState) := by
  refine appends_of_eq ?_
  intro s env c r s' c' h
  cases h
  rfl

@[simp] theorem appends_lift (x : ClassM α) : Appends P (liftM x : BodyM α) := by
  refine appends_of_eq ?_
  intro s env c a s' c' h
  rw [(lift_eq_ok.mp h).2]

@[simp] theorem appends_ofExcept (x : Except LoweringError α) :
    Appends P (ofExcept x : BodyM α) := by
  cases x with
  | ok a => exact appends_pure a
  | error e => exact appends_throw e

@[simp] theorem appends_bind {m : BodyM α} {k : α → BodyM β} (hm : Appends P m)
    (hk : ∀ a, Appends P (k a)) : Appends P (m >>= k) := by
  intro s env c b s' c' h
  obtain ⟨a, s₁, c₁, h₁, h₂⟩ := bind_eq_ok.mp h
  obtain ⟨its₁, e₁, hi₁⟩ := hm s env c a s₁ c₁ h₁
  obtain ⟨its₂, e₂, hi₂⟩ := hk a s₁ env c₁ b s' c' h₂
  exact ⟨its₁ ++ its₂, by simp [e₁, e₂], Concatenative.append hi₁ hi₂⟩

@[simp] theorem appends_map {m : BodyM α} (hm : Appends P m) (g : α → β) :
    Appends P (g <$> m) := by
  rw [map_eq_pure_bind]
  exact appends_bind hm fun _ => appends_pure _

theorem appends_modify {g : BodyState → BodyState} (hg : ∀ s, (g s).items = s.items) :
    Appends P (modify g) := by
  refine appends_of_eq ?_
  intro s env c a s' c' h
  cases h
  exact hg s

@[simp] theorem appends_slots (m : FinallySlots → Except LoweringError (α × FinallySlots)) :
    Appends P (slots m) := by
  refine appends_of_eq ?_
  rintro ⟨items, fs⟩ env c a s' c' h
  simp only [slots] at h
  cases hm : m fs with
  | ok r =>
    rw [hm] at h
    cases h
    rfl
  | error e =>
    rw [hm] at h
    cases h

omit [Concatenative P] in
theorem appends_emit {items : List (Item Ref)}
    (hi : ∀ env c its c', Item.Interned env c items its c' → P its) : Appends P (emit items) := by
  intro s env c a s' c' h
  obtain ⟨its, hits, rfl⟩ := emit_eq_ok.mp h
  exact ⟨its, rfl, hi env c its c' hits⟩

omit [Concatenative P] in
theorem appends_emitOk {x : Except LoweringError (List (Item Ref))}
    (hx : ∀ items, x = .ok items → Appends P (emit items)) : Appends P (emitOk x) := by
  intro s env c a s' c' h
  obtain ⟨items, s₁, c₁, h₁, h₂⟩ := bind_eq_ok.mp h
  obtain ⟨hok, rfl, rfl⟩ := ofExcept_eq_ok.mp h₁
  exact hx items hok _ env _ _ _ _ h₂

end Appends

instance : Concatenative (Item.Inert (ρ := UInt16)) where
  nil := Item.inert_nil
  append hx hy := Item.inert_append.mpr ⟨hx, hy⟩

-- A step that appends inert items only.
abbrev Quiet (m : BodyM α) : Prop :=
  Appends Item.Inert m

@[simp] theorem quiet_emit {items : List (Item Ref)} (hi : Item.Inert items) :
    Quiet (emit items) :=
  appends_emit fun _ _ _ _ hits => hits.inert hi

instance : Concatenative (Item.Slotless (ρ := UInt16)) where
  nil := Item.slotless_nil
  append hx hy := Item.slotless_append.mpr ⟨hx, hy⟩

-- A step that appends instructions without slots only.
abbrev Bare (m : BodyM α) : Prop :=
  Appends Item.Slotless m

theorem Bare.quiet {m : BodyM α} (h : Bare m) : Quiet m := by
  intro s env c a s' c' hm
  obtain ⟨its, hits, hslotless⟩ := h s env c a s' c' hm
  exact ⟨its, hits, hslotless.inert⟩

@[simp] theorem bare_emit {items : List (Item Ref)} (hi : Item.Slotless items) :
    Bare (emit items) :=
  appends_emit fun _ _ _ _ hits => hits.slotless hi

theorem bare_emitOk {x : Except LoweringError (List (Item Ref))}
    (hx : ∀ items, x = .ok items → Item.Slotless items) : Bare (emitOk x) :=
  appends_emitOk fun items hok => bare_emit (hx items hok)

end BodyM

section Slotless

open Item (Slotless)

variable (t u : TypeRef)

@[simp] theorem slotless_pushType : Slotless (Conversion.pushType t) := by
  unfold Conversion.pushType
  split
  · split <;> simp
  · simp

@[simp] theorem slotless_isInstance : Slotless (Conversion.isInstance t) := by
  unfold Conversion.isInstance
  split <;> simp

@[simp] theorem slotless_asInstance : Slotless (Conversion.asInstance t) := by
  unfold Conversion.asInstance
  dsimp only
  split <;> simp

theorem slotless_box {stack : StackType} {items : List (Item Ref)}
    (h : Conversion.box stack = .ok items) : Slotless items := by
  unfold Conversion.box at h
  split at h <;> cases h
  simp

theorem slotless_unbox {stack : StackType} {items : List (Item Ref)}
    (h : Conversion.unbox stack = .ok items) : Slotless items := by
  unfold Conversion.unbox at h
  split at h <;> cases h
  simp

theorem slotless_cast {items : List (Item Ref)} (h : Conversion.cast t = .ok items) :
    Slotless items := by
  unfold Conversion.cast at h
  split at h
  · exact slotless_unbox h
  · cases h
    simp

@[simp] theorem slotless_throwErr : Slotless Conversion.throwErr := by
  simp [Conversion.throwErr]

@[simp] theorem slotless_nullCheck : Slotless Conversion.nullCheck := by
  simp [Conversion.nullCheck]

theorem slotless_coerce {items : List (Item Ref)} (h : Conversion.coerce t u = .ok items) :
    Slotless items := by
  unfold Conversion.coerce at h
  dsimp only at h
  split at h
  · cases h
  · cases h
  · cases h
    rw [Item.slotless_append]
    constructor
    · split <;> simp
    · split <;> simp
  · exact slotless_box h
  · obtain ⟨unboxed, hu, h⟩ := except_bind_eq_ok.mp h
    cases h
    rw [Item.slotless_append]
    refine ⟨?_, slotless_unbox hu⟩
    split <;> simp
  · split at h
    · cases h
      simp
    · split at h <;> cases h
      simp

@[simp] theorem slotless_popItems : Slotless (popItems t) := by
  unfold popItems
  split <;> simp

@[simp] theorem slotless_literalValue (kind : Pod.LiteralKind) : Slotless (literalValue kind) := by
  cases kind <;> simp [literalValue]

@[simp] theorem slotless_callItems (call : Call) : Slotless call.items := by
  unfold Call.items
  split <;> try split
  all_goals simp

end Slotless

section Bare

open BodyM (Bare)

variable (i : Instr)

@[simp] theorem bare_plain {items : List (Item Ref)} (hi : Item.Slotless items) :
    Bare (plain items) := by
  simp [plain, hi]

@[simp] theorem bare_emitLiteral (kind : Pod.LiteralKind) : Bare (emitLiteral kind i) := by
  unfold emitLiteral
  refine BodyM.appends_bind BodyM.appends_read ?_
  simp

@[simp] theorem bare_emitCall (kind : CallKind) : Bare (emitCall kind i) := by
  unfold emitCall
  refine BodyM.appends_bind (BodyM.appends_lift _) ?_
  simp

@[simp] theorem bare_emitField (op : UInt8) (mixin : Bool) : Bare (emitField op i mixin) := by
  unfold emitField
  refine BodyM.appends_bind (BodyM.appends_lift _) ?_
  simp

@[simp] theorem bare_coerce (t u : TypeRef) : Bare (BodyM.emitOk (Conversion.coerce t u)) :=
  BodyM.bare_emitOk fun _ h => slotless_coerce t u h

@[simp] theorem bare_cast (t : TypeRef) : Bare (BodyM.emitOk (Conversion.cast t)) :=
  BodyM.bare_emitOk fun _ h => slotless_cast t h

end Bare

section Quiet

open BodyM (Quiet)

variable (f : Frame) (i : Instr)

@[simp] theorem quiet_plain {items : List (Item Ref)} (hi : Item.Inert items) :
    Quiet (plain items) := by
  simp [plain, hi]

@[simp] theorem quiet_emitFinallyStart : Quiet (emitFinallyStart f i) := by
  unfold emitFinallyStart
  refine BodyM.appends_bind BodyM.appends_read ?_
  intro env
  split
  · simp
  · refine BodyM.appends_bind (BodyM.appends_slots _) ?_
    intro slot
    refine BodyM.appends_bind (BodyM.appends_modify fun _ => rfl) ?_
    simp

@[simp] theorem quiet_emitFinallyEnd : Quiet (emitFinallyEnd f i) := by
  unfold emitFinallyEnd
  refine BodyM.appends_bind BodyM.appends_read ?_
  intro env
  split
  · simp
  · refine BodyM.appends_bind BodyM.appends_get ?_
    intro s
    dsimp only
    split
    · simp
    · refine BodyM.appends_bind (BodyM.appends_modify fun _ => rfl) ?_
      intro _
      split <;> simp

end Quiet

-- A step that never says that the jump behind an instruction is lowered too.
def Unfused (m : BodyM Bool) : Prop :=
  ∀ s env c a s' c', m s env c = .ok (a, s') c' → a = false

@[simp] theorem unfused_pure : Unfused (pure false) := by
  intro s env c a s' c' h
  exact (BodyM.pure_eq_ok.mp h).1

@[simp] theorem unfused_bind {α : Type} {m : BodyM α} {k : α → BodyM Bool}
    (hk : ∀ a, Unfused (k a)) : Unfused (m >>= k) := by
  intro s env c b s' c' h
  obtain ⟨a, s₁, c₁, -, h₂⟩ := BodyM.bind_eq_ok.mp h
  exact hk a s₁ env c₁ b s' c' h₂

@[simp] theorem unfused_map {α : Type} (m : BodyM α) : Unfused ((fun _ => false) <$> m) := by
  rw [map_eq_pure_bind]
  exact unfused_bind fun _ => unfused_pure

@[simp] theorem unfused_plain (items : List (Item Ref)) : Unfused (plain items) :=
  unfused_bind fun _ => unfused_pure

-- The item of a jump or a switch.
def branchItem? (i : Instr) : Option (Item UInt16) :=
  match i.op with
  | .jump | .leave => some (.jump .branch goto i.arg)
  | .jumpTrue => some (.jump .branch ifne i.arg)
  | .jumpFalse => some (.jump .branch ifeq i.arg)
  | .switch => some (.switch i.args)
  | .jumpFinally => some (.jump .finally_ jsr i.arg)
  | _ => none

-- The relation that an instruction decides.
def relation? : Opcode → Option Relation
  | .compareEQ => some .eq
  | .compareNE => some .ne
  | .compareLT => some .lt
  | .compareLE => some .le
  | .compareGT => some .gt
  | .compareGE => some .ge
  | _ => none

-- What the comparison `i` becomes before `next`.
inductive Compares (env : ClassEnv) (i : Instr) (next : Following) : Compared → Prop where
  | relation {rel : Relation} {lhs rhs : TypeRef} (hop : relation? i.op = some rel)
      (hl : typeRefAt env.pod.symbols i.arg = .ok lhs)
      (hr : typeRefAt env.pod.symbols (i.args.getD 1 0) = .ok rhs) :
      Compares env i next (Comparison.relation rel lhs rhs next)
  | same (want : Bool) (hop : i.op = if want then .compareSame else .compareNotSame) :
      Compares env i next (Comparison.same want next)
  | null (want : Bool) {t : TypeRef}
      (hop : i.op = if want then .compareNull else .compareNotNull)
      (ht : typeRefAt env.pod.symbols i.arg = .ok t) :
      Compares env i next (Comparison.null want t next)

def isComparison (op : Opcode) : Bool :=
  (relation? op).isSome || op = .compareSame || op = .compareNotSame || op = .compareNull ||
    op = .compareNotNull

-- Whether an instruction is lowered to instructions on slots.
def namesSlot (op : Opcode) : Bool :=
  op = .loadVar || op = .storeVar || op = .finallyStart || op = .finallyEnd

-- The copies that an instruction asks for, where there are none.
def noCopy (f : Frame) (_ : Instr) : BodyM Unit :=
  throw (.internal (.finallyTooDeep f.name))

@[simp] theorem uniform_noCopy (f : Frame) (i : Instr) : BodyM.Uniform (noCopy f i) := by
  simp [noCopy]

theorem typeRef_eq_ok {env : ClassEnv} {c c' : OpenClass} {i : UInt16} {t : TypeRef} :
    ClassM.typeRef i env c = .ok t c' ↔ typeRefAt env.pod.symbols i = .ok t ∧ c' = c :=
  ClassM.ofExcept_eq_ok

theorem typePair_eq_ok {env : ClassEnv} {c c' : OpenClass} {i : Instr} {t u : TypeRef}
    (h : typePair i env c = .ok (t, u) c') :
    typeRefAt env.pod.symbols i.arg = .ok t ∧
      typeRefAt env.pod.symbols (i.args.getD 1 0) = .ok u ∧ c' = c := by
  obtain ⟨lhs, c₁, h₁, hrest⟩ := ClassM.bind_eq_ok.mp h
  obtain ⟨rhs, c₂, h₂, hpair⟩ := ClassM.bind_eq_ok.mp hrest
  obtain ⟨hl, rfl⟩ := typeRef_eq_ok.mp h₁
  obtain ⟨hr, rfl⟩ := typeRef_eq_ok.mp h₂
  cases hpair
  exact ⟨hl, hr, rfl⟩

section Emits

variable {env : ClassEnv} {f : Frame} {i : Instr} {next : Following} {s s' : BodyState}
  {c c' : OpenClass} {fused : Bool} {copy : Instr → BodyM Unit}

theorem emitCompared_eq_ok {cmp : Compared}
    (h : emitCompared cmp s env c = .ok (fused, s') c') :
    ∃ its, Item.Interned env c cmp.items its c' ∧
      s' = { s with items := s.items ++ its.toArray } ∧ fused = cmp.fused := by
  obtain ⟨u, s₁, c₁, h₁, h₂⟩ := BodyM.bind_eq_ok.mp h
  obtain ⟨its, hits, rfl⟩ := BodyM.emit_eq_ok.mp h₁
  obtain ⟨rfl, rfl, rfl⟩ := BodyM.pure_eq_ok.mp h₂
  exact ⟨its, hits, rfl, rfl⟩

theorem emitRelation_eq_ok {rel : Relation} (hop : relation? i.op = some rel)
    (h : emitRelation rel i next s env c = .ok (fused, s') c') :
    ∃ cmp its, Compares env i next cmp ∧ Item.Interned env c cmp.items its c' ∧
      s' = { s with items := s.items ++ its.toArray } ∧ fused = cmp.fused := by
  obtain ⟨⟨lhs, rhs⟩, s₁, c₁, h₁, h₂⟩ := BodyM.bind_eq_ok.mp h
  obtain ⟨hpair, rfl⟩ := BodyM.lift_eq_ok.mp h₁
  obtain ⟨hl, hr, rfl⟩ := typePair_eq_ok hpair
  obtain ⟨its, hits, hs, hfused⟩ := emitCompared_eq_ok h₂
  exact ⟨_, its, .relation hop hl hr, hits, hs, hfused⟩

theorem emitNull_eq_ok (want : Bool) (hop : i.op = if want then .compareNull else .compareNotNull)
    (h : (liftM (ClassM.typeRef i.arg) >>= fun t => emitCompared (Comparison.null want t next))
      s env c = .ok (fused, s') c') :
    ∃ cmp its, Compares env i next cmp ∧ Item.Interned env c cmp.items its c' ∧
      s' = { s with items := s.items ++ its.toArray } ∧ fused = cmp.fused := by
  obtain ⟨t, s₁, c₁, h₁, h₂⟩ := BodyM.bind_eq_ok.mp h
  obtain ⟨hread, rfl⟩ := BodyM.lift_eq_ok.mp h₁
  obtain ⟨ht, rfl⟩ := typeRef_eq_ok.mp hread
  obtain ⟨its, hits, hs, hfused⟩ := emitCompared_eq_ok h₂
  exact ⟨_, its, .null want hop ht, hits, hs, hfused⟩

-- A comparison writes the items of what it becomes.
theorem emitInstr_comparison (hi : isComparison i.op = true)
    (h : emitInstr f copy i next s env c = .ok (fused, s') c') :
    ∃ cmp its, Compares env i next cmp ∧ Item.Interned env c cmp.items its c' ∧
      s' = { s with items := s.items ++ its.toArray } ∧ fused = cmp.fused := by
  unfold emitInstr at h
  cases hop : i.op <;> rw [hop] at h hi <;> try cases hi
  case compareEQ | compareNE | compareLT | compareLE | compareGT | compareGE =>
    exact emitRelation_eq_ok (by rw [hop]; rfl) h
  case compareSame =>
    obtain ⟨its, hits, hs, hfused⟩ := emitCompared_eq_ok h
    exact ⟨_, its, .same true hop, hits, hs, hfused⟩
  case compareNotSame =>
    obtain ⟨its, hits, hs, hfused⟩ := emitCompared_eq_ok h
    exact ⟨_, its, .same false hop, hits, hs, hfused⟩
  case compareNull => exact emitNull_eq_ok true hop h
  case compareNotNull => exact emitNull_eq_ok false hop h

-- What holds neither a jump nor a comparison takes no jump along.
theorem emitInstr_unfused (hb : branchItem? i = none) (hc : isComparison i.op = false) :
    Unfused (emitInstr f copy i next) := by
  unfold emitInstr
  unfold branchItem? at hb
  cases hop : i.op <;> rw [hop] at hb hc <;> try cases hb
  case compareEQ | compareNE | compareLT | compareLE | compareGT | compareGE | compareSame |
      compareNotSame | compareNull | compareNotNull => cases hc
  all_goals simp

-- Of the rest only variables and finally blocks have slots.
theorem emitInstr_bare (hb : branchItem? i = none) (hc : isComparison i.op = false)
    (hs : namesSlot i.op = false) : BodyM.Bare (emitInstr f copy i next) := by
  unfold emitInstr
  unfold branchItem? at hb
  cases hop : i.op <;> rw [hop] at hb hc hs <;> try cases hb
  case catchErrStart => exact BodyM.appends_bind (BodyM.bare_emit (by simp)) (by simp)
  case compareEQ | compareNE | compareLT | compareLE | compareGT | compareGE | compareSame |
      compareNotSame | compareNull | compareNotNull => cases hc
  case loadVar | storeVar | finallyStart | finallyEnd => cases hs
  case compare => exact BodyM.appends_bind (BodyM.appends_lift _) (by simp [Comparison.threeWay])
  all_goals simp

-- All of it is inert.
theorem emitInstr_quiet (hb : branchItem? i = none) (hc : isComparison i.op = false) :
    BodyM.Quiet (emitInstr f copy i next) ∧ Unfused (emitInstr f copy i next) := by
  refine ⟨?_, emitInstr_unfused hb hc⟩
  cases hs : namesSlot i.op with
  | false => exact (emitInstr_bare hb hc hs).quiet
  | true =>
    unfold emitInstr
    cases hop : i.op <;> rw [hop] at hs <;> try cases hs
    all_goals simp

-- A jump or a switch writes its one item.
theorem emitInstr_branch {b : Item UInt16} (hb : branchItem? i = some b)
    (h : emitInstr f (noCopy f) i next s env c = .ok (fused, s') c') :
    fused = false ∧ s'.items = s.items ++ [b].toArray := by
  have hplain : ∀ r : Item Ref, (∀ j c₁, r.mapM Ref.intern env c = .ok j c₁ → j = b) →
      plain [r] s env c = .ok (fused, s') c' →
      fused = false ∧ s'.items = s.items ++ [b].toArray := by
    intro r hr hrun
    obtain ⟨u, s₁, c₁, h₁, h₂⟩ := BodyM.bind_eq_ok.mp hrun
    obtain ⟨its, hits, rfl⟩ := BodyM.emit_eq_ok.mp h₁
    obtain ⟨rfl, rfl, rfl⟩ := BodyM.pure_eq_ok.mp h₂
    cases hits with
    | cons hj hrest =>
      cases hrest
      rw [hr _ _ hj]
      exact ⟨rfl, rfl⟩
  unfold emitInstr at h
  unfold branchItem? at hb
  cases hop : i.op <;> rw [hop] at hb h <;> cases hb
  case jumpFinally =>
    obtain ⟨u, s₁, c₁, h₁, h₂⟩ := BodyM.bind_eq_ok.mp h
    obtain ⟨env', s₂, c₂, h₃, h₄⟩ := BodyM.bind_eq_ok.mp h₁
    obtain ⟨rfl, rfl, rfl⟩ := BodyM.read_eq_ok.mp h₃
    cases hf : env'.config.finallyStrategy with
    | subroutine =>
      rw [hf] at h₄
      refine hplain (.jump .finally_ jsr i.arg) ?_ (BodyM.bind_eq_ok.mpr ⟨u, s₁, c₁, h₄, h₂⟩)
      intro j c₁ hj
      cases hj
      rfl
    | inline =>
      rw [hf] at h₄
      cases h₄
  all_goals
    refine hplain _ ?_ h
    intro j c₁ hj
    cases hj
    rfl

end Emits

-- What a comparison becomes: its result on the stack, or the jump behind it with its mark.
inductive Compared.Shape (next : Following) : Compared → Prop where
  | unfused {items : List (Item Ref)} (hi : Item.Slotless items) : Shape next { items }
  | fused {pos : Nat} {sense : Bool} {target : UInt16} {op : UInt8}
      (pre before : List (Item Ref)) (hnext : next = .jump pos sense target)
      (hpre : Item.Slotless pre) (hbefore : Item.Slotless before) (hop : isBranch op = true) :
      Shape next
        { items := pre ++ .mark pos :: (before ++ [.jump .branch op target]), fused := true }

namespace Comparison

variable {next : Following}

theorem isBranch_ite {p : Prop} [Decidable p] {op op' : UInt8} (h : isBranch op = true)
    (h' : isBranch op' = true) : isBranch (if p then op else op') = true := by
  split
  · exact h
  · exact h'

-- The opposite of a conditional jump is one too.
theorem isBranch_negateBranch {op : UInt8} (h : isBranch op = true) :
    isBranch (negateBranch op) = true := by
  unfold negateBranch
  iterate 12 refine isBranch_ite (by decide) ?_
  exact h

theorem isBranch_sense {op : UInt8} (h : isBranch op = true) (sense : Bool) :
    isBranch (if sense then op else negateBranch op) = true :=
  isBranch_ite h (isBranch_negateBranch h)

theorem shape_jumpOr {before : List (Item Ref)} {op : UInt8} {unfused : Compared}
    (hbefore : Item.Slotless before) (hop : isBranch op = true) (hunfused : unfused.Shape next) :
    (jumpOr next before op unfused).Shape next := by
  cases next with
  | jump pos sense target =>
    exact .fused [] before rfl Item.slotless_nil hbefore (isBranch_sense hop sense)
  | cutOff => exact .unfused Item.slotless_nil
  | other => exact hunfused

theorem shape_byRuntime (rel : Relation) (lhs rhs : TypeRef) :
    (byRuntime rel lhs rhs next).Shape next := by
  cases next with
  | jump pos sense target =>
    exact .fused [_] [] rfl (by simp) Item.slotless_nil (isBranch_sense (by decide) sense)
  | cutOff => exact .unfused (by simp)
  | other => exact .unfused (by simp)

-- The machine's own comparisons come before a conditional jump.
theorem direct?_eq_some {rel : Relation} {lhs rhs : StackType} {before : List (Item Ref)}
    {op : UInt8} (h : direct? rel lhs rhs = some (before, op)) :
    Item.Slotless before ∧ isBranch op = true := by
  have hrel : isBranch rel.jumpOp = true := by cases rel <;> decide
  unfold direct? at h
  split at h
  · split at h <;> cases h <;> exact ⟨by simp, hrel⟩
  · cases h

theorem shape_relation (rel : Relation) (lhs rhs : TypeRef) :
    (relation rel lhs rhs next).Shape next := by
  unfold relation
  split
  · rename_i before op hd
    obtain ⟨hbefore, hop⟩ := direct?_eq_some hd
    exact shape_jumpOr hbefore hop (shape_byRuntime rel lhs rhs)
  · exact shape_byRuntime rel lhs rhs

theorem shape_same (want : Bool) : (same want next).Shape next := by
  refine shape_jumpOr Item.slotless_nil ?_ (.unfused (by simp))
  cases want <;> decide

theorem shape_null (want : Bool) (t : TypeRef) : (null want t next).Shape next := by
  unfold null
  split
  · exact .unfused (by simp)
  · refine shape_jumpOr Item.slotless_nil ?_ (.unfused (by simp))
    cases want <;> decide

end Comparison

theorem Compares.shape {env : ClassEnv} {i : Instr} {next : Following} {cmp : Compared}
    (h : Compares env i next cmp) : cmp.Shape next := by
  cases h with
  | relation _ _ _ => exact Comparison.shape_relation _ _ _
  | same want _ => exact Comparison.shape_same want
  | null want _ _ => exact Comparison.shape_null want _

-- What a conditional jump is lowered to where it is no part of a comparison.
theorem branchItem?_of_sense {j : Instr} {sense : Bool} (h : Following.sense? j.op = some sense) :
    branchItem? j = some (.jump .branch (if sense then ifne else ifeq) j.arg) := by
  unfold Following.sense? at h
  unfold branchItem?
  split at h <;> cases h <;> simp [*]

theorem isComparison_of_sense {j : Instr} {sense : Bool} (h : Following.sense? j.op = some sense) :
    isComparison j.op = false := by
  unfold Following.sense? at h
  split at h <;> cases h <;> simp [*, isComparison, relation?]

end PodCompiler.Lowering
