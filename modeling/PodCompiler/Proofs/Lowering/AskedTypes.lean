import PodCompiler.Proofs.Lowering.TypedInstructions

namespace PodCompiler.Lowering

open ClassFile.Op

-- Texts without those that stood before are all different.
theorem nodup_eraseDups : (l : List String) → l.eraseDups.Nodup
  | [] => by simp
  | s :: rest => by
    rw [List.eraseDups_cons, List.nodup_cons]
    exact ⟨by simp, nodup_eraseDups _⟩
termination_by l => l.length
decreasing_by
  have hle := List.length_filter_le (fun b => !b == s) rest
  rw [List.length_cons]
  omega

theorem eraseDups_prefix (l l' : List String) : l.eraseDups <+: (l ++ l').eraseDups := by
  rw [List.eraseDups_append]
  exact List.prefix_append _ _

theorem eraseDups_append_of_mem {l : List String} {s : String} (h : s ∈ l) :
    (l ++ [s]).eraseDups = l.eraseDups := by
  simp [List.eraseDups_append, List.removeAll, h]

theorem eraseDups_append_of_not_mem {l : List String} {s : String} (h : s ∉ l) :
    (l ++ [s]).eraseDups = l.eraseDups ++ [s] := by
  simp [List.eraseDups_append, List.removeAll, h, List.eraseDups_cons]

namespace OpenClass

-- The types that a class keeps are those that it was asked for.
def Keeps (c : OpenClass) (asked : List String) : Prop :=
  c.literals.toList = asked.eraseDups

-- On the way from a class to a later one these types are asked for, in this order.
def Asked (c : OpenClass) (sigs : List String) (c' : OpenClass) : Prop :=
  ∀ asked, c.Keeps asked → c'.Keeps (asked ++ sigs)

variable {c c₁ c' : OpenClass} {sigs sigs' asked : List String} {sig : String} {n : Nat}

theorem Asked.refl (c : OpenClass) : c.Asked [] c := by
  intro asked h
  rwa [List.append_nil]

theorem Asked.of_eq (h : c'.literals = c.literals) : c.Asked [] c' := by
  intro asked hasked
  rw [List.append_nil, Keeps, h]
  exact hasked

theorem Asked.trans (h : c.Asked sigs c₁) (h' : c₁.Asked sigs' c') :
    c.Asked (sigs ++ sigs') c' := by
  intro asked hasked
  rw [← List.append_assoc]
  exact h' _ (h _ hasked)

-- What is kept stays where it is.
theorem Keeps.getElem? (hc : c.Keeps asked) (h : c.Asked sigs c') (hn : c.literals[n]? = some sig) :
    c'.literals[n]? = some sig := by
  have hprefix : c.literals.toList <+: c'.literals.toList := by
    rw [hc, h _ hc]
    exact eraseDups_prefix _ _
  rw [← Array.getElem?_toList] at hn ⊢
  obtain ⟨more, hmore⟩ := hprefix
  obtain ⟨hlt, -⟩ := List.getElem?_eq_some_iff.mp hn
  rw [← hmore, List.getElem?_append_left hlt, hn]

-- A type is kept at one place.
theorem Keeps.idxOf_eq (hc : c.Keeps asked) (hn : c.literals[n]? = some sig) :
    asked.eraseDups.idxOf sig = n := by
  rw [← Array.getElem?_toList, hc] at hn
  obtain ⟨hlt, rfl⟩ := List.getElem?_eq_some_iff.mp hn
  exact (nodup_eraseDups asked).idxOf_getElem n hlt

end OpenClass

-- A class is asked for one type.
theorem asked_literalIndex {sig : String} {env : ClassEnv} {c c' : OpenClass} {n : Nat}
    (h : literalIndex sig env c = .ok n c') : c.Asked [sig] c' := by
  intro asked hasked
  obtain ⟨hn, -, rfl | ⟨hnew, hpush⟩⟩ := literalIndex_eq_ok h
  · have hmem : sig ∈ asked := by
      rw [← Array.getElem?_toList, hasked] at hn
      exact List.mem_eraseDups.mp (List.mem_of_getElem? hn)
    rw [OpenClass.Keeps, eraseDups_append_of_mem hmem]
    exact hasked
  · have hnot : sig ∉ asked := by
      rwa [← Array.mem_toList_iff, hasked, List.mem_eraseDups] at hnew
    rw [OpenClass.Keeps, hpush, Array.toList_push, eraseDups_append_of_not_mem hnot, hasked]

-- Asked again, it gives the same place and stays as it is.
theorem literalIndex_again {sig : String} {env : ClassEnv} {c c' d : OpenClass} {n : Nat}
    (h : literalIndex sig env c = .ok n c') (hd : d.literals = c'.literals) :
    literalIndex sig env d = .ok n d := by
  rw [ClassM.literalIndex_eq] at h ⊢
  rw [hd]
  split at h
  · rename_i m hm
    cases h
    rw [hm]
  · rename_i hnew
    cases h
    rw [Array.toList_push, List.findIdx?_append, hnew]
    simp

namespace ClassM

variable {α β : Type}

-- A step that asks for no type.
def AsksNone (m : ClassM α) : Prop :=
  ∀ env c a c', m env c = .ok a c' → c'.literals = c.literals

@[simp] theorem asksNone_pure (a : α) : AsksNone (pure a) := by
  intro env c b c' h
  rw [(pure_eq_ok.mp h).2]

@[simp] theorem asksNone_bind {m : ClassM α} {k : α → ClassM β} (hm : AsksNone m)
    (hk : ∀ a, AsksNone (k a)) : AsksNone (m >>= k) := by
  intro env c b c' h
  obtain ⟨a, c₁, ha, hb⟩ := bind_eq_ok.mp h
  exact (hk a env c₁ b c' hb).trans (hm env c a c₁ ha)

@[simp] theorem asksNone_map {m : ClassM α} (hm : AsksNone m) (g : α → β) : AsksNone (g <$> m) := by
  rw [map_eq_pure_bind]
  exact asksNone_bind hm fun _ => asksNone_pure _

@[simp] theorem asksNone_ofExcept (x : Except LoweringError α) :
    AsksNone (ofExcept x : ClassM α) := by
  intro env c a c' h
  rw [(ofExcept_eq_ok.mp h).2]

@[simp] theorem asksNone_ofFormat (x : Except Pod.FormatError α) : AsksNone (ofFormat x) := by
  cases x with
  | ok a => exact asksNone_pure a
  | error e =>
    intro env c a c' h
    cases h

@[simp] theorem asksNone_read : AsksNone (read : ClassM ClassEnv) := by
  intro env c a c' h
  cases h
  rfl

@[simp] theorem asksNone_get : AsksNone (get : ClassM OpenClass) := by
  intro env c a c' h
  cases h
  rfl

@[simp] theorem asksNone_symbols : AsksNone symbols :=
  asksNone_bind asksNone_read fun _ => asksNone_pure _

@[simp] theorem asksNone_typeRef (i : UInt16) : AsksNone (typeRef i) :=
  asksNone_bind asksNone_symbols fun _ => asksNone_ofExcept _

@[simp] theorem asksNone_className : AsksNone className :=
  asksNone_bind asksNone_get fun _ => asksNone_pure _

@[simp] theorem asksNone_mapM {g : α → ClassM β} {xs : List α} (hg : ∀ x ∈ xs, AsksNone (g x)) :
    AsksNone (xs.mapM g) := by
  induction xs with
  | nil => exact asksNone_pure _
  | cons x xs ih =>
    rw [List.forall_mem_cons] at hg
    rw [List.mapM_cons]
    exact asksNone_bind hg.1 fun _ => asksNone_bind (ih hg.2) fun _ => asksNone_pure _

@[simp] theorem asksNone_onDraft (m : ClassFile.DraftM α) : AsksNone (onDraft m) := by
  intro env c a c' h
  obtain ⟨d, -, rfl⟩ := onDraft_eq_ok h
  rfl

@[simp] theorem asksNone_onPool (m : ClassFile.PoolM α) : AsksNone (onPool m) :=
  asksNone_onDraft _

@[simp] theorem asksNone_onResolver (m : ResolverM α) : AsksNone (onResolver m) := by
  intro env c a c' h
  obtain ⟨draft, resolver, literals⟩ := c
  unfold onResolver at h
  dsimp only at h
  split at h
  · cases h
    rfl
  · cases h

end ClassM

namespace Item

-- Whether an item names no type that is kept.
def isTypeless : Item Ref → Bool
  | .reserve (.typeLiteral _) | .const _ (.typeLiteral _) | .interface (.typeLiteral _) _ => false
  | _ => true

def Typeless (items : List (Item Ref)) : Prop :=
  items.all isTypeless = true

variable {x : Item Ref} {xs ys : List (Item Ref)}

theorem typeless_nil : Typeless [] := rfl

theorem typeless_cons : Typeless (x :: xs) ↔ x.isTypeless = true ∧ Typeless xs := by
  simp [Typeless]

theorem typeless_append : Typeless (xs ++ ys) ↔ Typeless xs ∧ Typeless ys := by
  simp [Typeless]

theorem typeless_ops (codes : List UInt8) : Typeless (codes.map .op) := by
  simp [Typeless, isTypeless]

theorem asksNone_mapM (hx : x.isTypeless = true) : ClassM.AsksNone (x.mapM Ref.intern) := by
  cases x with
  | reserve r | const o r | interface r slots =>
    refine ClassM.asksNone_map ?_ _
    cases r with
    | typeLiteral => cases hx
    | _ => exact ClassM.asksNone_onPool _
  | _ => exact ClassM.asksNone_pure _

theorem Interned.literals_eq {env : ClassEnv} {c c' : OpenClass} {its : List (Item UInt16)}
    (h : Interned env c xs its c') (hxs : Typeless xs) : c'.literals = c.literals := by
  induction h with
  | nil => rfl
  | cons hitem _ ih =>
    rw [typeless_cons] at hxs
    exact (ih hxs.2).trans (asksNone_mapM hxs.1 _ _ _ _ hitem)

section Typeless

variable (t u : TypeRef)

theorem typeless_box {stack : StackType} (h : Conversion.box stack = .ok xs) : Typeless xs := by
  unfold Conversion.box at h
  split at h <;> cases h
  rfl

theorem typeless_unbox {stack : StackType} (h : Conversion.unbox stack = .ok xs) : Typeless xs := by
  unfold Conversion.unbox at h
  split at h <;> cases h
  rfl

theorem typeless_cast (h : Conversion.cast t = .ok xs) : Typeless xs := by
  unfold Conversion.cast at h
  split at h
  · exact typeless_unbox h
  · cases h
    rfl

theorem typeless_coerce (h : Conversion.coerce t u = .ok xs) : Typeless xs := by
  unfold Conversion.coerce at h
  dsimp only at h
  split at h
  · cases h
  · cases h
  · cases h
    refine typeless_append.mpr ⟨?_, ?_⟩
    · split <;> rfl
    · split <;> rfl
  · exact typeless_box h
  · obtain ⟨unboxed, hu, h⟩ := except_bind_eq_ok.mp h
    cases h
    refine typeless_append.mpr ⟨?_, typeless_unbox hu⟩
    split <;> rfl
  · split at h
    · cases h
      exact typeless_nil
    · split at h
      · cases h
        exact typeless_ops _
      · cases h

theorem typeless_popItems : Typeless (popItems t) := by
  unfold popItems
  split <;> rfl

theorem typeless_literalValue (kind : Pod.LiteralKind) : Typeless (literalValue kind) := by
  cases kind <;> rfl

theorem typeless_callItems (call : Call) : Typeless call.items := by
  unfold Call.items
  split
  · exact typeless_ops _
  · rfl
  · rfl
  · rfl
  · split <;> rfl

theorem typeless_fusedJump {pos : Nat} {o : UInt8} {sense : Bool} {target : UInt16}
    (hxs : Typeless xs) : Typeless (Comparison.fusedJump pos xs o sense target).items := by
  unfold Comparison.fusedJump
  dsimp only
  rw [List.cons_append]
  exact typeless_cons.mpr ⟨rfl, typeless_append.mpr ⟨hxs, rfl⟩⟩

theorem typeless_jumpOr {next : Following} {o : UInt8} {unfused : Compared} (hxs : Typeless xs)
    (hunfused : Typeless unfused.items) :
    Typeless (Comparison.jumpOr next xs o unfused).items := by
  unfold Comparison.jumpOr
  split
  · exact typeless_fusedJump hxs
  · exact typeless_nil
  · exact hunfused

theorem typeless_byRuntime (rel : Relation) (next : Following) :
    Typeless (Comparison.byRuntime rel t u next).items := by
  unfold Comparison.byRuntime
  dsimp only
  split
  · exact typeless_cons.mpr ⟨rfl, typeless_fusedJump typeless_nil⟩
  · rfl
  · rfl

theorem typeless_relation (rel : Relation) (next : Following) :
    Typeless (Comparison.relation rel t u next).items := by
  unfold Comparison.relation
  split
  · rename_i before o hdirect
    refine typeless_jumpOr ?_ (typeless_byRuntime _ _ _ _)
    unfold Comparison.direct? at hdirect
    split at hdirect
    · split at hdirect <;> cases hdirect <;> rfl
    · cases hdirect
  · exact typeless_byRuntime _ _ _ _

theorem typeless_compared {env : ClassEnv} {i : Instr} {next : Following} {cmp : Compared}
    (h : Compares env i next cmp) : Typeless cmp.items := by
  cases h with
  | relation => exact typeless_relation _ _ _ _
  | same => exact typeless_jumpOr typeless_nil rfl
  | @null want t =>
    unfold Comparison.null
    split
    · cases t.isWide <;> cases want <;> rfl
    · exact typeless_jumpOr typeless_nil rfl

end Typeless

end Item

namespace BodyM

variable {α β : Type}

-- A step of a body that asks for no type.
def AsksNone (m : BodyM α) : Prop :=
  ∀ s env c a s' c', m s env c = .ok (a, s') c' → c'.literals = c.literals

@[simp] theorem asksNone_pure (a : α) : AsksNone (pure a) := by
  intro s env c b s' c' h
  rw [(pure_eq_ok.mp h).2.2]

@[simp] theorem asksNone_throw (e : LoweringError) : AsksNone (throw e : BodyM α) := by
  intro s env c a s' c' h
  cases h

@[simp] theorem asksNone_bind {m : BodyM α} {k : α → BodyM β} (hm : AsksNone m)
    (hk : ∀ a, AsksNone (k a)) : AsksNone (m >>= k) := by
  intro s env c b s' c' h
  obtain ⟨a, s₁, c₁, ha, hb⟩ := bind_eq_ok.mp h
  exact (hk a s₁ env c₁ b s' c' hb).trans (hm s env c a s₁ c₁ ha)

@[simp] theorem asksNone_lift {x : ClassM α} (hx : ClassM.AsksNone x) :
    AsksNone (liftM x : BodyM α) := by
  intro s env c a s' c' h
  exact hx env c a c' (lift_eq_ok.mp h).1

@[simp] theorem asksNone_ofExcept (x : Except LoweringError α) :
    AsksNone (ofExcept x : BodyM α) := by
  intro s env c a s' c' h
  rw [(ofExcept_eq_ok.mp h).2.2]

@[simp] theorem asksNone_read : AsksNone (read : BodyM ClassEnv) := by
  intro s env c a s' c' h
  rw [(read_eq_ok.mp h).2.2]

@[simp] theorem asksNone_get : AsksNone (get : BodyM BodyState) := by
  intro s env c a s' c' h
  cases h
  rfl

@[simp] theorem asksNone_modify (g : BodyState → BodyState) : AsksNone (modify g) := by
  intro s env c a s' c' h
  cases h
  rfl

@[simp] theorem asksNone_slots (m : FinallySlots → Except LoweringError (α × FinallySlots)) :
    AsksNone (slots m) := by
  intro s env c a s' c' h
  obtain ⟨fs, -, -, rfl⟩ := slots_eq_ok.mp h
  rfl

theorem asksNone_emit {items : List (Item Ref)} (hitems : Item.Typeless items) :
    AsksNone (emit items) := by
  intro s env c u s' c' h
  obtain ⟨its, hits, -⟩ := emit_eq_ok.mp h
  exact hits.literals_eq hitems

theorem asksNone_emitOk {x : Except LoweringError (List (Item Ref))}
    (hx : ∀ items, x = .ok items → Item.Typeless items) : AsksNone (emitOk x) := by
  intro s env c u s' c' h
  obtain ⟨items, s₁, c₁, h₁, h₂⟩ := bind_eq_ok.mp h
  obtain ⟨hok, rfl, rfl⟩ := ofExcept_eq_ok.mp h₁
  exact asksNone_emit (hx items hok) _ _ _ _ _ _ h₂

end BodyM

section Instructions

open BodyM (AsksNone)

variable {f : Frame} {i : Instr}

theorem asksNone_plain {items : List (Item Ref)} (hitems : Item.Typeless items) :
    AsksNone (plain items) :=
  BodyM.asksNone_bind (BodyM.asksNone_emit hitems) fun _ => BodyM.asksNone_pure _

theorem asksNone_emitLiteral (kind : Pod.LiteralKind) : AsksNone (emitLiteral kind i) := by
  refine BodyM.asksNone_bind BodyM.asksNone_read fun env => ?_
  intro s env' c u s' c' h
  obtain ⟨r, s₁, c₁, h₁, h₂⟩ := BodyM.bind_eq_ok.mp h
  obtain ⟨hr, rfl, rfl⟩ := BodyM.ofExcept_eq_ok.mp h₁
  refine BodyM.asksNone_emit (Item.typeless_cons.mpr ⟨?_, Item.typeless_literalValue _⟩)
    _ _ _ _ _ _ h₂
  unfold literalRef at hr
  dsimp only at hr
  split at hr <;> cases hr
  rfl

theorem asksNone_emitCall (kind : CallKind) : AsksNone (emitCall kind i) :=
  BodyM.asksNone_bind (BodyM.asksNone_lift ClassM.asksNone_symbols) fun _ =>
    BodyM.asksNone_bind (BodyM.asksNone_lift (ClassM.asksNone_onResolver _)) fun call =>
      BodyM.asksNone_emit (Item.typeless_callItems call)

theorem asksNone_emitField (op : UInt8) (mixin : Bool) : AsksNone (emitField op i mixin) :=
  BodyM.asksNone_bind (BodyM.asksNone_lift ClassM.asksNone_symbols) fun _ =>
    BodyM.asksNone_bind (BodyM.asksNone_lift (ClassM.asksNone_onResolver _)) fun _ =>
      BodyM.asksNone_emit rfl

theorem asksNone_emitFinallyStart : AsksNone (emitFinallyStart f i) := by
  refine BodyM.asksNone_bind BodyM.asksNone_read fun env => ?_
  split
  · exact BodyM.asksNone_bind (BodyM.asksNone_slots _) fun _ => BodyM.asksNone_emit rfl
  · exact BodyM.asksNone_bind (BodyM.asksNone_slots _) fun _ =>
      BodyM.asksNone_bind (BodyM.asksNone_modify _) fun _ => BodyM.asksNone_emit rfl

theorem asksNone_emitFinallyEnd : AsksNone (emitFinallyEnd f i) := by
  refine BodyM.asksNone_bind BodyM.asksNone_read fun env => ?_
  split
  · exact BodyM.asksNone_bind (BodyM.asksNone_slots _) fun _ => BodyM.asksNone_emit rfl
  · refine BodyM.asksNone_bind BodyM.asksNone_get fun s => ?_
    dsimp only
    split
    · exact BodyM.asksNone_throw _
    · refine BodyM.asksNone_bind (BodyM.asksNone_modify _) fun _ => ?_
      split
      · exact BodyM.asksNone_throw _
      · exact BodyM.asksNone_emit rfl

theorem asksNone_emitJumpFinally : AsksNone (emitJumpFinally (noCopy f) i) := by
  refine BodyM.asksNone_bind BodyM.asksNone_read fun env => ?_
  split
  · exact BodyM.asksNone_emit rfl
  · exact BodyM.asksNone_throw _

-- Whether an instruction has to do with a type as a value.
def usesType (op : Opcode) : Bool :=
  op = .loadType || op = .is || op = .as

theorem asksNone_typePair : ClassM.AsksNone (typePair i) :=
  ClassM.asksNone_bind (ClassM.asksNone_typeRef _) fun _ =>
    ClassM.asksNone_bind (ClassM.asksNone_typeRef _) fun _ => ClassM.asksNone_pure _

-- Other instructions ask for no type.
theorem asksNone_emitInstr (next : Following) (htype : usesType i.op = false)
    (hcompare : isComparison i.op = false) : AsksNone (emitInstr f (noCopy f) i next) := by
  have hfalse : ∀ {m : BodyM Unit}, AsksNone m → AsksNone (m >>= fun _ => pure false) :=
    fun hm => BodyM.asksNone_bind hm fun _ => BodyM.asksNone_pure _
  have hread : ∀ {k : TypeRef → BodyM Bool}, (∀ t, AsksNone (k t)) →
      AsksNone (liftM (ClassM.typeRef i.arg) >>= k) :=
    fun hk => BodyM.asksNone_bind (BodyM.asksNone_lift (ClassM.asksNone_typeRef _)) hk
  have hpair : ∀ {k : TypeRef × TypeRef → BodyM Bool}, (∀ p, AsksNone (k p)) →
      AsksNone (liftM (typePair i) >>= k) :=
    fun hk => BodyM.asksNone_bind (BodyM.asksNone_lift asksNone_typePair) hk
  unfold emitInstr
  cases hop : i.op <;> rw [hop] at htype hcompare
  case loadType | is | as => cases htype
  case compareEQ | compareNE | compareLT | compareLE | compareGT | compareGE | compareSame |
      compareNotSame | compareNull | compareNotNull => cases hcompare
  case nop | catchEnd => exact BodyM.asksNone_pure _
  case loadInt | loadFloat | loadDecimal | loadStr | loadDuration | loadUri =>
    exact hfalse (asksNone_emitLiteral _)
  case loadVar | storeVar =>
    exact BodyM.asksNone_bind (BodyM.asksNone_ofExcept _) fun l => asksNone_plain rfl
  case loadInstance | storeInstance | loadStatic | storeStatic | loadMixinStatic |
      storeMixinStatic => exact hfalse (asksNone_emitField _ _)
  case callNew | callCtor | callStatic | callVirtual | callNonVirtual | callMixinStatic |
      callMixinVirtual | callMixinNonVirtual => exact hfalse (asksNone_emitCall _)
  case pop => exact hread fun t => asksNone_plain (Item.typeless_popItems t)
  case dup => exact hread fun t => asksNone_plain rfl
  case cast => exact hread fun t => hfalse (BodyM.asksNone_emitOk fun _ => Item.typeless_cast t)
  case catchErrStart =>
    refine BodyM.asksNone_bind (BodyM.asksNone_emit rfl) fun _ => ?_
    exact hread fun t => hfalse (BodyM.asksNone_emitOk fun _ => Item.typeless_cast t)
  case coerce =>
    exact hpair fun p => hfalse (BodyM.asksNone_emitOk fun _ => Item.typeless_coerce _ _)
  case compare => exact hpair fun p => asksNone_plain rfl
  case jumpFinally => exact hfalse asksNone_emitJumpFinally
  case finallyStart => exact hfalse asksNone_emitFinallyStart
  case finallyEnd => exact hfalse asksNone_emitFinallyEnd
  all_goals exact asksNone_plain rfl

end Instructions

-- The type that an instruction pushes as a value. A test pushes it only if the machine has no class
-- for it.
def pushedType? (s : Pod.Symbols) (i : Instr) : Option TypeRef :=
  match i.op, typeRefAt s i.arg with
  | .loadType, .ok t => some t
  | .is, .ok t | .as, .ok t => if t.isGenericInstance then some t else none
  | _, _ => none

-- Whether a class keeps a type that it pushes: `sys` has a field for each of its own types, but not
-- for generic instances.
def isKeptType (t : TypeRef) : Bool :=
  !(t.isSys && !t.isGenericInstance)

-- The type that a class is asked for by an instruction.
def askedType? (s : Pod.Symbols) (i : Instr) : Option String :=
  ((pushedType? s i).filter isKeptType).map TypeRef.signature

-- What a class does with what it read from the field of a type: if that is null, it looks the type up
-- by its signature.
def lookupItems (signature : String) : List (Item Ref) := [
  .op dup,
  .hop ifNonNull 15,
  .op pop,
  .const ldcW (.string signature),
  .op iconst1,
  .callStatic "fan/sys/Type.find(Ljava/lang/String;Z)Lfan/sys/Type;",
  .op dup]

-- How a class pushes the type that it keeps under an index. What it looked up it writes to the field.
def keptTypeItems (cls : String) (index : Nat) (signature : String) : List (Item Ref) :=
  let field := Ref.field s!"{cls}.{literalField index}:{typeDesc}"
  .const getStatic field :: (lookupItems signature ++ [.const putStatic field])

section Pushed

variable {env : ClassEnv} {f : Frame} {i : Instr} {next : Following} {e e' : EmitState}
  {fused : Bool} {xs ys : List (Item Ref)} {its its' : List (Item UInt16)} {t : TypeRef}
  {c c₁ c' : OpenClass}

theorem Item.Interned.append (h : Item.Interned env c xs its c₁)
    (h' : Item.Interned env c₁ ys its' c') : Item.Interned env c (xs ++ ys) (its ++ its') c' := by
  induction h with
  | nil => exact h'
  | cons hitem _ ih => exact .cons hitem (ih h')

-- The field of a type is a field like others, once the class keeps the type.
theorem intern_typeLiteral_eq_ok {sig : String} {k : UInt16}
    (h : (Ref.typeLiteral sig).intern env c = .ok k c') :
    ∃ n c₁, literalIndex sig env c = .ok n c₁ ∧
      (Ref.field s!"{c.draft.name}.{literalField n}:{typeDesc}").intern env c₁ = .ok k c' := by
  obtain ⟨sig', c₁, hsig, hfield⟩ := ClassM.bind_eq_ok.mp h
  obtain ⟨n, hn, rfl⟩ := typeLiteralField_eq_ok hsig
  exact ⟨n, c₁, hn, hfield⟩

theorem pushType_of_isKept (ht : isKeptType t = true) : Conversion.pushType t =
    .const getStatic (.typeLiteral t.signature) ::
      (lookupItems t.signature ++ [Item.const putStatic (Ref.typeLiteral t.signature)]) := by
  have hsys : ¬(t.isSys && !t.isGenericInstance) = true := by
    rw [isKeptType, Bool.not_eq_true'] at ht
    simp [ht]
  rw [Conversion.pushType, if_neg hsys]
  rfl

-- A type that is not kept is pushed without asking for it.
theorem typeless_pushType (ht : isKeptType t = false) : Item.Typeless (Conversion.pushType t) := by
  have hsys : (t.isSys && !t.isGenericInstance) = true := by
    rwa [isKeptType, Bool.not_eq_false'] at ht
  rw [Conversion.pushType, if_pos hsys]
  split <;> rfl

-- A class that pushes a type is asked for it once; in its field it finds the type again.
theorem interned_kept (hc : c.WellFormed env)
    (h : Item.Interned env c (Conversion.pushType t) its c') (ht : isKeptType t = true) :
    ∃ n c₁, literalIndex t.signature env c = .ok n c₁ ∧ c'.literals = c₁.literals ∧
      Item.Interned env c₁ (keptTypeItems c.draft.name n t.signature) its c' := by
  rw [pushType_of_isKept ht] at h
  cases h with
  | @cons _ c₂ _ _ _ _ js hget hrest =>
    obtain ⟨k, hk, rfl⟩ := ClassM.map_eq_ok.mp hget
    obtain ⟨n, c₁, hn, hfield⟩ := intern_typeLiteral_eq_ok hk
    obtain ⟨middle, last, c₃, rfl, hmiddle, hlast⟩ := hrest.append_left
    have hlits₂ : c₂.literals = c₁.literals := ClassM.asksNone_onPool _ _ _ _ _ hfield
    have hlits₃ : c₃.literals = c₁.literals := (hmiddle.literals_eq rfl).trans hlits₂
    cases hlast with
    | cons hput hnil =>
      cases hnil
      obtain ⟨k', hk', rfl⟩ := ClassM.map_eq_ok.mp hput
      obtain ⟨n', c₄, hn', hfield'⟩ := intern_typeLiteral_eq_ok hk'
      cases (literalIndex_again hn hlits₃).symm.trans hn'
      have hname : c₃.draft.name = c.draft.name := by
        obtain ⟨hc₂, hgrows⟩ := ClassM.advancing_item _ _ _ _ _ hget hc
        rw [((hmiddle.advances hc₂).2).members, hgrows.members]
      rw [hname] at hfield'
      refine ⟨n, c₁, hn, (ClassM.asksNone_onPool _ _ _ _ _ hfield').trans hlits₃, ?_⟩
      refine .cons (ClassM.map_eq_ok.mpr ⟨k, hfield, rfl⟩) (hmiddle.append ?_)
      exact .cons (ClassM.map_eq_ok.mpr ⟨k', hfield', rfl⟩) .nil

-- The items of an instruction that has to do with a type as a value.
theorem Emits.typeItems (h : Emits env f i next e fused its e') (hop : usesType i.op = true) :
    ∃ t xs, typeRefAt env.pod.symbols i.arg = .ok t ∧ Item.Interned env e.cls xs its e'.cls ∧
      (i.op = .loadType ∧ xs = Conversion.pushType t ∨
        i.op = .is ∧ xs = Conversion.isInstance t ∨
        i.op = .as ∧ xs = Conversion.asInstance t) := by
  have hread : ∀ {k : TypeRef → List (Item Ref)},
      (liftM (ClassM.typeRef i.arg) >>= fun t => plain (k t) : BodyM Bool) ⟨#[], e.slots⟩ env e.cls =
        .ok (fused, ⟨its.toArray, e'.slots⟩) e'.cls →
      ∃ t, typeRefAt env.pod.symbols i.arg = .ok t ∧ Item.Interned env e.cls (k t) its e'.cls := by
    intro k hrun
    obtain ⟨t, s₁, c₁, h₁, h₂⟩ := BodyM.bind_eq_ok.mp hrun
    obtain ⟨htype, rfl⟩ := BodyM.lift_eq_ok.mp h₁
    obtain ⟨ht, rfl⟩ := typeRef_eq_ok.mp htype
    exact ⟨t, ht, plain_eq_ok h₂⟩
  unfold Emits emitInstr at h
  cases hi : i.op <;> rw [hi] at h hop <;> try cases hop
  case loadType =>
    obtain ⟨t, ht, hits⟩ := hread h
    exact ⟨t, _, ht, hits, .inl ⟨rfl, rfl⟩⟩
  case is =>
    obtain ⟨t, ht, hits⟩ := hread h
    exact ⟨t, _, ht, hits, .inr (.inl ⟨rfl, rfl⟩)⟩
  case as =>
    obtain ⟨t, ht, hits⟩ := hread h
    exact ⟨t, _, ht, hits, .inr (.inr ⟨rfl, rfl⟩)⟩

theorem usesType_of_pushed {s : Pod.Symbols} (ht : pushedType? s i = some t) :
    usesType i.op = true := by
  unfold pushedType? at ht
  split at ht <;> simp_all [usesType]

-- What an instruction is lowered to that pushes a type: the items that push it, and others that ask
-- for no type, of which the ones in front take no room.
theorem Emits.pushes (h : Emits env f i next e fused its e')
    (ht : pushedType? env.pod.symbols i = some t) :
    ∃ before behind, Item.Interned env e.cls (before ++ (Conversion.pushType t ++ behind)) its e'.cls ∧
      Item.Typeless before ∧ Item.Typeless behind ∧ Item.Inert before ∧
      Stretch.sizes before = 0 := by
  have hop := usesType_of_pushed ht
  obtain ⟨u, xs, hu, hits, ⟨hi, rfl⟩ | ⟨hi, rfl⟩ | ⟨hi, rfl⟩⟩ := h.typeItems hop
  · unfold pushedType? at ht
    rw [hi, hu] at ht
    cases ht
    exact ⟨[], [], by simpa using hits, rfl, rfl, Item.inert_nil, rfl⟩
  · unfold pushedType? at ht
    rw [hi, hu] at ht
    dsimp only at ht
    split at ht
    · rename_i hgeneric
      cases ht
      unfold Conversion.isInstance at hits
      rw [if_pos hgeneric] at hits
      exact ⟨[], _, hits, rfl, rfl, Item.inert_nil, rfl⟩
    · cases ht
  · unfold pushedType? at ht
    rw [hi, hu] at ht
    dsimp only at ht
    split at ht
    · rename_i hgeneric
      cases ht
      unfold Conversion.asInstance at hits
      dsimp only at hits
      rw [if_pos hgeneric] at hits
      exact ⟨[.reserve _], _, hits, rfl, rfl, by simp [Item.isInert], rfl⟩
    · cases ht

-- All other instructions ask for no type.
theorem Emits.asksNone (h : Emits env f i next e fused its e')
    (ht : pushedType? env.pod.symbols i = none) : e'.cls.literals = e.cls.literals := by
  cases hop : usesType i.op with
  | false =>
    cases hc : Lowering.isComparison i.op with
    | false => exact asksNone_emitInstr next hop hc _ _ _ _ _ _ h
    | true =>
      obtain ⟨cmp, hcmp, hits, -⟩ := h.comparison hc
      exact hits.literals_eq (Item.typeless_compared hcmp)
  | true =>
    obtain ⟨u, xs, hu, hits, ⟨hi, rfl⟩ | ⟨hi, rfl⟩ | ⟨hi, rfl⟩⟩ := h.typeItems hop
    · rw [pushedType?, hi, hu] at ht
      cases ht
    · rw [pushedType?, hi, hu] at ht
      dsimp only at ht
      split at ht
      · cases ht
      · rename_i hgeneric
        unfold Conversion.isInstance at hits
        rw [if_neg hgeneric] at hits
        exact hits.literals_eq rfl
    · rw [pushedType?, hi, hu] at ht
      dsimp only at ht
      split at ht
      · cases ht
      · rename_i hgeneric
        unfold Conversion.asInstance at hits
        dsimp only at hits
        rw [if_neg hgeneric] at hits
        exact hits.literals_eq rfl

-- An instruction asks for its type.
theorem Emits.asked (h : Emits env f i next e fused its e') (he : e.cls.WellFormed env) :
    e.cls.Asked (askedType? env.pod.symbols i).toList e'.cls := by
  cases ht : pushedType? env.pod.symbols i with
  | none =>
    rw [askedType?, ht]
    exact .of_eq (h.asksNone ht)
  | some t =>
    obtain ⟨before, behind, hits, hbefore, hbehind, -, -⟩ := h.pushes ht
    obtain ⟨its₁, rest, c₁, rfl, hfirst, hrest⟩ := hits.append_left
    obtain ⟨own, its₂, c₂, rfl, hown, hlast⟩ := hrest.append_left
    cases hkept : isKeptType t with
    | false =>
      rw [askedType?, ht, Option.filter_some, hkept]
      exact .of_eq ((hlast.literals_eq hbehind).trans
        ((hown.literals_eq (typeless_pushType hkept)).trans (hfirst.literals_eq hbefore)))
    | true =>
      obtain ⟨n, c₃, hn, hlits, -⟩ := interned_kept (hfirst.advances he).1 hown hkept
      have hasked : e.cls.Asked ([] ++ [t.signature] ++ []) e'.cls :=
        ((OpenClass.Asked.of_eq (hfirst.literals_eq hbefore)).trans
          (asked_literalIndex hn)).trans (.of_eq ((hlast.literals_eq hbehind).trans hlits))
      rw [askedType?, ht, Option.filter_some, hkept]
      simpa using hasked

end Pushed

-- The types that a class is asked for by the instructions whose marks are among the items, in their
-- order.
def askedBy (s : Pod.Symbols) (code : Bytes) (its : List (Item UInt16)) : List String :=
  its.filterMap fun
    | .mark q => (Instr.decodeAt code q).toOption.bind (askedType? s)
    | _ => none

section AskedBy

variable {s : Pod.Symbols} {code : Bytes} {xs ys : List (Item UInt16)} {i : Instr} {q : Nat}

theorem askedBy_append : askedBy s code (xs ++ ys) = askedBy s code xs ++ askedBy s code ys :=
  List.filterMap_append ..

theorem askedBy_of_inert (h : Item.Inert xs) : askedBy s code xs = [] := by
  rw [askedBy, List.filterMap_eq_nil_iff]
  intro x hx
  have hinert := h x hx
  cases x with
  | mark q => cases hinert
  | _ => rfl

theorem askedBy_mark (hi : Instr.decodeAt code q = .ok i) :
    askedBy s code (.mark q :: xs) = (askedType? s i).toList ++ askedBy s code xs := by
  have hmark : askedBy s code [.mark q] = (askedType? s i).toList := by
    simp only [askedBy, List.filterMap_cons, hi, Except.toOption, Option.bind_some, List.filterMap_nil]
    cases askedType? s i <;> rfl
  rw [← hmark, ← askedBy_append, List.singleton_append]

-- Behind the code there is nothing that asks.
theorem askedBy_end : askedBy s code [.mark code.size] = [] := by
  cases hi : Instr.decodeAt code code.size with
  | error e => simp [askedBy, hi, Except.toOption]
  | ok i =>
    have hsize := Instr.decodeAt_size_le hi
    have hpos := i.size_pos
    omega

-- Only what pushes a type asks for one.
theorem askedType?_eq_none (h : usesType i.op = false) : askedType? s i = none := by
  cases ht : pushedType? s i with
  | none =>
    rw [askedType?, ht]
    rfl
  | some t =>
    rw [usesType_of_pushed ht] at h
    cases h

-- No jump does.
theorem usesType_of_sense {sense : Bool} (h : Following.sense? i.op = some sense) :
    usesType i.op = false := by
  unfold Following.sense? at h
  split at h <;> simp_all [usesType]

theorem usesType_of_comparison (h : isComparison i.op = true) : usesType i.op = false := by
  cases hi : i.op <;> rw [hi] at h <;> first | rfl | cases h

end AskedBy

section Trace

variable {env : ClassEnv} {f : Frame} {code : Bytes} {c c₁ : OpenClass} {body : BodyState}

-- The items of one instruction have no marks, but for the one of a jump that is taken along.
theorem Emits.askedBy_eq {i : Instr} {rest : List Instr} {e e' : EmitState} {fused : Bool}
    {its : List (Item UInt16)} (h : Emits env f i (.ofRest rest none) e fused its e')
    (s : Pod.Symbols) (hrest : ∀ j ∈ rest, Instr.decodeAt code j.pos = .ok j) :
    askedBy s code its = [] := by
  cases h.shape with
  | branch hb =>
    unfold branchItem? at hb
    split at hb <;> cases hb <;> rfl
  | inert _ hi => exact askedBy_of_inert hi
  | fused _ hnext hpre hbefore _ =>
    obtain ⟨j, more, rfl, rfl, -, hsense⟩ := ofRest_eq_jump hnext
    have hj := hrest j List.mem_cons_self
    rw [askedBy_append, askedBy_of_inert hpre, askedBy_mark hj, askedBy_append,
      askedBy_of_inert hbefore, askedType?_eq_none (usesType_of_sense hsense)]
    rfl

-- Instructions ask for their types one after the other, and those of copies where they are copied.
theorem Emission.asked {e e' : EmitState} {instrs : List Instr} {its : List (Item UInt16)}
    (h : Emission env f code e instrs its e') (he : e.cls.WellFormed env)
    (hinstrs : ∀ i ∈ instrs, Instr.decodeAt code i.pos = .ok i) :
    e.cls.Asked (askedBy env.pod.symbols code its) e'.cls := by
  induction h with
  | nil => exact .refl _
  | one hi _ ih =>
    obtain ⟨hfirst, hrest⟩ := List.forall_mem_cons.mp hinstrs
    have hown := (hi.asked he).trans (ih (hi.advances he).1 hrest)
    rwa [askedBy_mark hfirst, askedBy_append, hi.askedBy_eq _ hrest, List.nil_append]
  | fused hi _ ih =>
    obtain ⟨hfirst, hrest⟩ := List.forall_mem_cons.mp hinstrs
    have hown := (hi.asked he).trans (ih (hi.advances he).1 (List.forall_mem_cons.mp hrest).2)
    rwa [askedBy_mark hfirst, askedBy_append, hi.askedBy_eq _ hrest, List.nil_append]
  | @copy e e₁ e₂ i rest inner stop body more hop _ _ hinner hbody _ ihbody ihrest =>
    obtain ⟨hfirst, hrest⟩ := List.forall_mem_cons.mp hinstrs
    have he₁ := (hbody.later.advances he).1
    have hboth := (ihbody he fun j hj => (hinner.decodeAt_of_mem hj).1).trans (ihrest he₁ hrest)
    have hnone : askedType? env.pod.symbols i = none := askedType?_eq_none (by simp [hop, usesType])
    have hitems : askedBy env.pod.symbols code
        (.mark i.pos :: .enter :: (body ++ Item.leave i.pos i.arg.toNat stop :: more)) =
        askedBy env.pod.symbols code body ++ askedBy env.pod.symbols code more := by
      rw [askedBy_mark hfirst, hnone, ← askedBy_append]
      simp [askedBy]
    rwa [hitems]

-- Without copies each instruction asks once.
theorem Emission.askedBy_eq {e e' : EmitState} {instrs : List Instr} {its : List (Item UInt16)}
    (h : Emission env f code e instrs its e') (s : Pod.Symbols)
    (hinstrs : ∀ i ∈ instrs, Instr.decodeAt code i.pos = .ok i)
    (hnone : ∀ i ∈ instrs, i.op ≠ .jumpFinally) :
    askedBy s code its = instrs.filterMap (askedType? s) := by
  induction h with
  | nil => rfl
  | @one _ _ _ i rest _ _ hi _ ih =>
    obtain ⟨hfirst, hrest⟩ := List.forall_mem_cons.mp hinstrs
    rw [askedBy_mark hfirst, askedBy_append, hi.askedBy_eq _ hrest,
      ih hrest (List.forall_mem_cons.mp hnone).2, List.filterMap_cons]
    cases askedType? s i <;> rfl
  | @fused _ _ _ i j rest _ _ hi _ ih =>
    obtain ⟨hfirst, hrest⟩ := List.forall_mem_cons.mp hinstrs
    obtain ⟨-, hnone⟩ := List.forall_mem_cons.mp hnone
    have hj : askedType? s j = none := by
      cases hi.shape with
      | fused _ hnext _ _ _ =>
        obtain ⟨j', more, heq, -, -, hsense⟩ := ofRest_eq_jump hnext
        obtain ⟨rfl, -⟩ := List.cons.inj heq
        exact askedType?_eq_none (usesType_of_sense hsense)
    have hown : askedType? s i = none := askedType?_eq_none (usesType_of_comparison hi.isComparison)
    rw [askedBy_mark hfirst, askedBy_append, hi.askedBy_eq _ hrest,
      ih (List.forall_mem_cons.mp hrest).2 (List.forall_mem_cons.mp hnone).2, List.filterMap_cons,
      List.filterMap_cons, hown, hj]
    rfl
  | copy hop => exact absurd hop (List.forall_mem_cons.mp hnone).1

-- A body asks for the types of all its instructions.
theorem emitBody_asked (h : emitBody f code {} env c = .ok ((), body) c₁) (hc : c.WellFormed env) :
    c.Asked (askedBy env.pod.symbols code body.items.toList) c₁ := by
  obtain ⟨instrs, its, hstream, hder, hitems⟩ := items_of_emitBody h
  have hasked := hder.asked hc fun i hi => (hstream.decodeAt_of_mem hi).1
  rwa [hitems, askedBy_append, askedBy_end, List.append_nil]

-- Without jumps to finally blocks, these are their types one by one.
theorem askedBy_of_emitBody {instrs : List Instr} (s : Pod.Symbols)
    (h : emitBody f code {} env c = .ok ((), body) c₁) (hinstrs : Instr.disassemble code = .ok instrs)
    (hnone : ∀ i ∈ instrs, i.op ≠ .jumpFinally) :
    askedBy s code body.items.toList = instrs.filterMap (askedType? s) := by
  obtain ⟨instrs', its, hstream, hder, hitems⟩ := items_of_emitBody h
  cases hinstrs.symm.trans (Instr.disassemble_eq_ok_iff.mpr hstream)
  rw [hitems, askedBy_append, askedBy_end, List.append_nil]
  exact hder.askedBy_eq s (fun i hi => (hstream.decodeAt_of_mem hi).1) hnone

end Trace

-- What items without jumps say does not hang on where jumps lead.
theorem Stretch.Reads.congr {r : Stretch} {p : Nat} {xs : List (Item Ref)} (h : r.Reads p xs)
    (hxs : Item.Inert xs) (leads : UInt16 → Nat → Prop) : { r with leads }.Reads p xs := by
  induction xs generalizing p with
  | nil => exact h
  | cons x xs ih =>
    rw [Item.inert_cons] at hxs
    refine ⟨?_, ih h.2 hxs.2⟩
    cases x with
    | jump => cases hxs.1
    | op | const | hop => exact h.1
    | _ => trivial

-- The code of a class has the items at a position, none of which is a jump to an instruction.
def ReadsAt (cls : String) (k : ClassFile.Constants) (bytes : Bytes) (pc : Nat)
    (xs : List (Item Ref)) : Prop :=
  Stretch.Reads ⟨cls, k, bytes, pc, pc + Stretch.sizes xs, fun _ _ => False⟩ pc xs

section Lookups

variable {env : ClassEnv} {f : Frame} {code : Bytes} {out : ClassFile.CodeBuffer}
  {c c₁ d d₁ : OpenClass} {body : BodyState} {mc : MethodCode} {s pos q : Nat}
  {xs : List (Item Ref)} {own more pre post : List (Item UInt16)} {i : Instr} {t : TypeRef}
  {asked : List String}

theorem asked_of_later (h : Later env f c d) (hc : c.WellFormed env) : ∃ sigs, c.Asked sigs d := by
  induction h with
  | refl => exact ⟨[], .refl _⟩
  | tail hfirst hstep ih =>
    obtain ⟨sigs, hsigs⟩ := ih
    obtain ⟨i, next, slots, fused, its, slots', hi⟩ := hstep
    have hd := (Later.advances hfirst hc).1
    exact ⟨_, hsigs.trans (hi.asked hd)⟩

-- Items that are put somewhere are there in the final code.
theorem Lowered.readsAt (hl : Lowered env f code out c c₁ body mc) (hd : d.WellFormed env)
    (hits : Item.Interned env d xs own d₁) (hxs : Item.Inert xs)
    (hx : body.Stands code out s pos (own ++ more)) :
    (∀ k : ClassFile.Constants, k.Extends d₁.draft.pool.get? →
      ReadsAt d.draft.name k mc.code.code pos xs) ∧
    body.Stands code out s (pos + Stretch.sizes xs) more := by
  have hflat : ∀ x ∈ xs, x.isSteady = true := fun x hx => Item.isSteady_of_isInert (hxs x hx)
  constructor
  · intro k hk
    exact (hl.reads_items hd hits hk hflat hx (Nat.le_refl _) rfl).1.congr hxs _
  · exact (hl.reads_items hd hits (fun _ _ h => h) hflat hx (Nat.le_refl _) rfl).2

-- Where an instruction stands that pushes a type, the items stand that push it.
theorem Lowered.stands_pushing (hl : Lowered env f code out c c₁ body mc) (hc : c.WellFormed env)
    (hsplit : body.items.toList = pre ++ Item.mark q :: post) (hi : Instr.decodeAt code q = .ok i)
    (ht : pushedType? env.pod.symbols i = some t) :
    ∃ d d₁ own more, d.WellFormed env ∧ d.draft.name = c.draft.name ∧ (∃ sigs, c.Asked sigs d) ∧
      Item.Interned env d (Conversion.pushType t) own d₁ ∧ (∃ sigs, d₁.Asked sigs c₁) ∧
      ClassFile.Constants.Extends c₁.draft.pool.get? d₁.draft.pool.get? ∧
      body.Stands code out ((Layout.start out code.size).puts pre).scope
        ((Layout.start out code.size).puts pre).out.pos (own ++ more) := by
  have hop := usesType_of_pushed ht
  cases site_of_mark hl.emits hsplit hi with
  | @one i' next e e₁ _ own more hi' hown _ _ hfirst hlast =>
    cases hi.symm.trans hi'
    have hx : body.Stands code out ((Layout.start out code.size).puts pre).scope
        ((Layout.start out code.size).puts pre).out.pos (.mark q :: (own ++ more)) :=
      ⟨pre, hsplit, rfl, rfl⟩
    have he := (hfirst.later.advances hc).1
    have he₁ := (hown.advances he).1
    obtain ⟨before, behind, hits, hbefore, hbehind, hinert, hsize⟩ := hown.pushes ht
    obtain ⟨its₁, rest, d, rfl, hreserve, hrest⟩ := hits.append_left
    obtain ⟨push, its₂, d₁, rfl, hpush, hafter⟩ := hrest.append_left
    have hd := (hreserve.advances he).1
    have hd₁ := (hpush.advances hd).1
    obtain ⟨sigs, hfirstAsked⟩ := asked_of_later hfirst.later hc
    obtain ⟨sigs', hlastAsked⟩ := asked_of_later hlast.later he₁
    have hname : d.draft.name = c.draft.name := by
      rw [(hreserve.advances he).2.members]
      exact name_of_later hfirst.later hc
    rw [List.append_assoc] at hx
    obtain ⟨-, hx⟩ := hl.readsAt he hreserve hinert hx.unmark
    rw [hsize, Nat.add_zero, List.append_assoc] at hx
    exact ⟨d, d₁, push, its₂ ++ more, hd, hname,
      ⟨_, hfirstAsked.trans (.of_eq (hreserve.literals_eq hbefore))⟩, hpush,
      ⟨_, (OpenClass.Asked.of_eq (hafter.literals_eq hbehind)).trans hlastAsked⟩,
      (hlast.later.advances.extends he₁).trans (hafter.advances.extends hd₁), hx⟩
  | fused hi' _ hown _ _ _ =>
    cases hi.symm.trans hi'
    rw [usesType_of_comparison hown.isComparison] at hop
    cases hop
  | swallowed _ _ hi' hown _ =>
    cases hi.symm.trans hi'
    obtain ⟨sense, target, _, _, hnext, -, -, -⟩ := hown.shape.of_mark
    obtain ⟨j, rest, hj, -, -, hsense⟩ := ofRest_eq_jump hnext
    cases hj
    rw [usesType_of_sense hsense] at hop
    cases hop
  | copy hi' hop' _ =>
    cases hi.symm.trans hi'
    rw [hop'] at hop
    cases hop

-- Wherever it stands, the final code pushes the type.
theorem Lowered.pushes (hl : Lowered env f code out c c₁ body mc) (hc : c.WellFormed env)
    (hsplit : body.items.toList = pre ++ Item.mark q :: post) (hi : Instr.decodeAt code q = .ok i)
    (ht : pushedType? env.pod.symbols i = some t) {k : ClassFile.Constants} (hk : k.Extends c₁.draft.pool.get?) :
    ReadsAt c.draft.name k mc.code.code ((Layout.start out code.size).puts pre).out.pos
      (Conversion.pushType t) := by
  obtain ⟨d, d₁, own, more, hd, hname, -, hits, -, hextends, hx⟩ := hl.stands_pushing hc hsplit hi ht
  rw [← hname]
  exact (hl.readsAt hd hits (slotless_pushType t).inert hx).1 k (hk.trans hextends)

theorem inert_keptTypeItems (cls : String) (n : Nat) (sig : String) :
    Item.Inert (keptTypeItems cls n sig) := by
  simp [keptTypeItems, lookupItems]

-- A type that is kept is pushed from the field that the class has for it.
theorem Lowered.pushes_kept (hl : Lowered env f code out c c₁ body mc) (hc : c.WellFormed env)
    (hasked : c.Keeps asked) (hsplit : body.items.toList = pre ++ Item.mark q :: post)
    (hi : Instr.decodeAt code q = .ok i) (ht : pushedType? env.pod.symbols i = some t) (hkept : isKeptType t = true) :
    ∃ n, c₁.literals[n]? = some t.signature ∧
      ∀ k : ClassFile.Constants, k.Extends c₁.draft.pool.get? →
        ReadsAt c.draft.name k mc.code.code ((Layout.start out code.size).puts pre).out.pos
          (keptTypeItems c.draft.name n t.signature) := by
  obtain ⟨d, d₁, own, more, hd, hname, ⟨sigs, hfirst⟩, hits, ⟨sigs', hlast⟩, hextends, hx⟩ :=
    hl.stands_pushing hc hsplit hi ht
  obtain ⟨n, d₂, hn, hlits, hits₂⟩ := interned_kept hd hits hkept
  have hd₂ := (ClassM.advancing_literalIndex _ _ _ _ _ hn hd).1
  have hname₂ : d₂.draft.name = c.draft.name := by
    rw [(literalIndex_eq_ok hn).2.1, hname]
  have hkeeps := asked_literalIndex hn _ (hfirst _ hasked)
  have hfound := hkeeps.getElem? ((OpenClass.Asked.of_eq hlits).trans hlast)
    (literalIndex_eq_ok hn).1
  refine ⟨n, hfound, fun k hk => ?_⟩
  rw [hname, ← hname₂] at hits₂
  have hreads := (hl.readsAt hd₂ hits₂ (inert_keptTypeItems _ _ _) hx).1 k (hk.trans hextends)
  rwa [hname₂] at hreads

end Lookups

end PodCompiler.Lowering
