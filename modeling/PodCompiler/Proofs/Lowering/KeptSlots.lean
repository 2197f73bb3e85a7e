import PodCompiler.Proofs.Lowering.CodeStream
import PodCompiler.Proofs.Lowering.CoreItems
import PodCompiler.Proofs.Lowering.FrameSlots

namespace PodCompiler.Lowering

open ClassFile (CodeBuffer)
open ClassFile.Op

namespace Item

-- The slots that an item stores into.
def stores {ρ : Type} : Item ρ → List Nat
  | .store t slot => if t.isWide then [slot.toNat, slot.toNat + 1] else [slot.toNat]
  | .onSlot o slot => storedAt o slot.toNat
  | _ => []

-- The shortest instruction on a slot stores what its general form does.
theorem stored_localRaw {bytes : Bytes} {pos : Nat} {compact general : UInt8} {slot : UInt16}
    (hcompact : ∀ n < 4, fixedLength? (compact + n.toUInt8) = some 1 ∧
      storedAt (compact + n.toUInt8) 0 = [] ∧
      storedBy (compact + n.toUInt8) = storedAt general n)
    (hgeneral : fixedLength? general = some 2 ∧ storedBy general = [])
    (h : bytes.Spells pos (localRaw compact general slot)) :
    stored bytes pos = storedAt general slot.toNat := by
  unfold localRaw at h
  split at h
  · rename_i hle
    obtain ⟨hfixed, hat, hby⟩ := hcompact slot.toNat (Nat.lt_succ_of_le hle)
    rw [stored_compact (Bytes.spells_cons.mp h).1 (ne_wide_of_fixed hfixed) hat]
    exact hby
  · split at h
    · rename_i hle
      obtain ⟨hop, hrest⟩ := Bytes.spells_cons.mp h
      rw [stored_general hop (Bytes.spells_cons.mp hrest).1 (ne_wide_of_fixed hgeneral.1)
        hgeneral.2]
      have hsmall : slot.toNat < 256 := Nat.lt_succ_of_le hle
      rw [show slot.toUInt8.toNat = slot.toNat from Nat.mod_eq_of_lt hsmall]
    · obtain ⟨hwide, hrest⟩ := Bytes.spells_cons.mp h
      obtain ⟨hop, hslot⟩ := Bytes.spells_cons.mp hrest
      exact stored_wide hwide hop (Bytes.be2?_of_spells hslot)

theorem stored_load {bytes : Bytes} {pos : Nat} {t : StackType} {slot : UInt16}
    (h : bytes.Spells pos (loadRaw t slot)) : stored bytes pos = [] := by
  obtain ⟨compact, general, hraw, hcompact, hgeneral, hnone⟩ : ∃ compact general,
      loadRaw t slot = localRaw compact general slot ∧
      (∀ n < 4, fixedLength? (compact + n.toUInt8) = some 1 ∧
        storedAt (compact + n.toUInt8) 0 = [] ∧
        storedBy (compact + n.toUInt8) = storedAt general n) ∧
      (fixedLength? general = some 2 ∧ storedBy general = []) ∧ storedAt general 0 = [] := by
    cases t <;> exact ⟨_, _, code_localOp {} _ _ _, by decide +kernel, by decide, by decide⟩
  rw [hraw] at h
  rw [stored_localRaw hcompact hgeneral h, storedAt_eq_nil hnone]

theorem stored_store {bytes : Bytes} {pos : Nat} {t : StackType} {slot : UInt16}
    (h : bytes.Spells pos (storeRaw t slot)) :
    stored bytes pos = (Item.store t slot : Item UInt16).stores := by
  obtain ⟨compact, general, hraw, hcompact, hgeneral, hstores⟩ : ∃ compact general,
      storeRaw t slot = localRaw compact general slot ∧
      (∀ n < 4, fixedLength? (compact + n.toUInt8) = some 1 ∧
        storedAt (compact + n.toUInt8) 0 = [] ∧
        storedBy (compact + n.toUInt8) = storedAt general n) ∧
      (fixedLength? general = some 2 ∧ storedBy general = []) ∧
      (Item.store t slot : Item UInt16).stores = storedAt general slot.toNat := by
    cases t <;> exact ⟨_, _, code_localOp {} _ _ _, by decide +kernel, by decide, rfl⟩
  rw [hraw] at h
  rw [stored_localRaw hcompact hgeneral h, hstores]

-- No opcode with one byte behind it has its slot fixed.
theorem storedBy_of_fixed {o : UInt8} (h : fixedLength? o = some 2) : storedBy o = [] := by
  revert o
  decide +kernel

theorem stored_onSlot {bytes : Bytes} {pos : Nat} {o : UInt8} {slot : UInt16}
    (ho : fixedLength? o = some 2) (h : bytes.Spells pos ((onSlot o slot).raw pos)) :
    stored bytes pos = storedAt o slot.toNat := by
  rw [raw, CodeBuffer.slotOp] at h
  split at h
  · rename_i hle
    obtain ⟨hop, hrest⟩ := Bytes.spells_cons.mp h
    rw [stored_general hop (Bytes.spells_cons.mp hrest).1 (ne_wide_of_fixed ho)
      (storedBy_of_fixed ho)]
    have hsmall : slot.toNat < 256 := Nat.lt_succ_of_le hle
    rw [show slot.toUInt8.toNat = slot.toNat from Nat.mod_eq_of_lt hsmall]
  · obtain ⟨hwide, hrest⟩ := Bytes.spells_cons.mp h
    obtain ⟨hop, hslot⟩ := Bytes.spells_cons.mp hrest
    exact stored_wide hwide hop (Bytes.be2?_of_spells hslot)

end Item

section Code

variable {env : ClassEnv} {f : Frame} {code : Bytes} {out : CodeBuffer} {c c₁ : OpenClass}
  {body : BodyState} {mc : MethodCode} {s pos p : Nat} {x : Item UInt16}
  {rest : List (Item UInt16)}

-- Whether an item is an instruction on a slot.
def Item.hasSlot {ρ : Type} : Item ρ → Bool
  | .load .. | .store .. | .onSlot .. => true
  | _ => false

-- An item on a slot is one instruction, and those of other items name no slot.
theorem Lowered.start_cases (hl : Lowered env f code out c c₁ body mc)
    (hx : body.Stands code out s pos (x :: rest)) (hwhole : x.isWhole = true)
    (hp : p ∈ x.starts pos) :
    (x.hasSlot = true ∧ p = pos ∧ mc.code.code.Spells p (x.raw p)) ∨
      x.hasSlot = false ∧ ∃ o, mc.code.code[p]? = some o ∧ o ≠ wide ∧
        Jvm.namesLocal o = false := by
  have hfixed : ∀ {o : UInt8} {n : Nat}, mc.code.code[p]? = some o → fixedLength? o = some n →
      Jvm.namesLocal o = false → ∃ o, mc.code.code[p]? = some o ∧ o ≠ wide ∧
        Jvm.namesLocal o = false :=
    fun hop hn hnames => ⟨_, hop, ne_wide_of_fixed hn, hnames⟩
  cases x with
  | mark | reserve | enter | leave => cases hp
  | op o =>
    obtain ⟨ho, hnames⟩ : fixedLength? o = some 1 ∧ Jvm.namesLocal o = false := by
      simpa [Item.isWhole, Item.isLone] using hwhole
    obtain rfl := List.mem_singleton.mp hp
    exact .inr ⟨rfl, hfixed (Bytes.spells_cons.mp (hl.spells hx rfl)).1 ho hnames⟩
  | byte o arg =>
    obtain ⟨ho, hnames⟩ : fixedLength? o = some 2 ∧ Jvm.namesLocal o = false := by
      simpa [Item.isWhole] using hwhole
    obtain rfl := List.mem_singleton.mp hp
    exact .inr ⟨rfl, hfixed (Bytes.spells_cons.mp (hl.spells hx rfl)).1 ho hnames⟩
  | const o r =>
    obtain ⟨⟨ho, -⟩, hnames⟩ :
        (fixedLength? o = some 3 ∧ isBranch o = false) ∧ Jvm.namesLocal o = false := by
      simpa [Item.isWhole] using hwhole
    obtain rfl := List.mem_singleton.mp hp
    exact .inr ⟨rfl, hfixed (Bytes.spells_cons.mp (hl.spells hx rfl)).1 ho hnames⟩
  | interface r slots =>
    obtain rfl := List.mem_singleton.mp hp
    have hop : mc.code.code[p]? = some invokeInterface :=
      hl.spells hx rfl 0 (by simp [Item.raw])
    exact .inr ⟨rfl, hfixed hop (n := 5) rfl rfl⟩
  | load | store | onSlot =>
    obtain rfl := List.mem_singleton.mp hp
    exact .inl ⟨rfl, rfl, hl.spells hx rfl⟩
  | hop o distance =>
    obtain rfl := List.mem_singleton.mp hp
    exact .inr ⟨rfl, hfixed (Bytes.spells_cons.mp (hl.spells hx rfl)).1
      (fixedLength?_of_isBranch hwhole) (Jvm.not_namesLocal_of_isBranch hwhole)⟩
  | jump kind o target =>
    have ho : isBranch o = true := by
      simp only [Item.isWhole, Bool.and_eq_true] at hwhole
      exact hwhole.1
    obtain rfl := List.mem_singleton.mp hp
    exact .inr ⟨rfl, hfixed (hl.getElem?_jump hx) (fixedLength?_of_isBranch ho)
      (Jvm.not_namesLocal_of_isBranch ho)⟩
  | switch targets =>
    refine .inr ⟨rfl, ?_⟩
    by_cases hne : targets = []
    · subst hne
      obtain rfl := List.mem_singleton.mp hp
      have hop : mc.code.code[p]? = some pop2 := (Bytes.spells_cons.mp (hl.spells hx rfl)).1
      exact hfixed hop (n := 1) rfl rfl
    · obtain ⟨hconvert, htable, -⟩ := hl.spells_switch hx hne
      have hstarts : (Item.switch targets).starts pos = [pos, pos + 1] :=
        if_neg (by simpa using hne)
      rw [hstarts, List.mem_cons, List.mem_singleton] at hp
      obtain rfl | rfl := hp
      · exact hfixed hconvert (n := 1) rfl rfl
      · exact ⟨_, htable, by decide, rfl⟩

-- The instructions of an item store into the slots that the item says.
theorem Lowered.stored_start (hl : Lowered env f code out c c₁ body mc)
    (hx : body.Stands code out s pos (x :: rest)) (hwhole : x.isWhole = true)
    (hp : p ∈ x.starts pos) : stored mc.code.code p = x.stores := by
  obtain ⟨hslot, rfl, hspells⟩ | ⟨hslot, o, hop, hwide, hnames⟩ := hl.start_cases hx hwhole hp
  · cases x with
    | load => exact Item.stored_load hspells
    | store => exact Item.stored_store hspells
    | onSlot o slot => exact Item.stored_onSlot (by simpa [Item.isWhole] using hwhole) hspells
    | _ => cases hslot
  · rw [stored_of_not_isStore hop (Jvm.isStore_of_not_namesLocal hnames) hwide]
    cases x with
    | load | store | onSlot => cases hslot
    | _ => rfl

-- An instruction of items one behind the other is one of an item.
theorem BodyState.Stands.exists_item {own : List (Item UInt16)}
    (hx : body.Stands code out s pos (own ++ rest)) (htidy : Item.isTidy (own ++ rest) = true)
    (hp : p ∈ Item.allStarts pos own) :
    ∃ x ∈ own, x.isWhole = true ∧ ∃ s' pos' more,
      body.Stands code out s' pos' (x :: more) ∧ p ∈ x.starts pos' := by
  induction own generalizing s pos with
  | nil => cases hp
  | cons x own ih =>
    simp only [List.cons_append, Item.isTidy, Bool.and_eq_true] at htidy
    obtain hp | hp := List.mem_append.mp hp
    · exact ⟨x, List.mem_cons_self, htidy.1, s, pos, _, hx, hp⟩
    · obtain ⟨s', hnext⟩ := hx.next
      obtain ⟨y, hy, hitem⟩ := ih hnext htidy.2.2 hp
      exact ⟨y, List.mem_cons_of_mem _ hy, hitem⟩

theorem Lowered.exists_stores_of_start (hl : Lowered env f code out c c₁ body mc)
    {own : List (Item UInt16)} (hx : body.Stands code out s pos (own ++ rest))
    (htidy : Item.isTidy (own ++ rest) = true) (hp : p ∈ Item.allStarts pos own) :
    ∃ x ∈ own, stored mc.code.code p = x.stores := by
  obtain ⟨x, hmem, hwhole, s', pos', more, hx', hp'⟩ := hx.exists_item htidy hp
  exact ⟨x, hmem, hl.stored_start hx' hwhole hp'⟩

-- An item that stores is an instruction there.
theorem Lowered.exists_start_of_stores (hl : Lowered env f code out c c₁ body mc)
    {own : List (Item UInt16)} (hx : body.Stands code out s pos (own ++ rest))
    (htidy : Item.isTidy (own ++ rest) = true) (hmem : x ∈ own) (hstores : x.stores ≠ []) :
    ∃ p ∈ Item.allStarts pos own, stored mc.code.code p = x.stores := by
  induction own generalizing s pos with
  | nil => cases hmem
  | cons y own ih =>
    simp only [List.cons_append, Item.isTidy, Bool.and_eq_true] at htidy
    obtain rfl | hmem := List.mem_cons.mp hmem
    · have hstart : pos ∈ x.starts pos := by
        cases x with
        | store | onSlot => exact List.mem_singleton_self _
        | _ => exact absurd rfl hstores
      exact ⟨pos, List.mem_append_left _ hstart, hl.stored_start hx htidy.1 hstart⟩
    · obtain ⟨s', hnext⟩ := hx.next
      obtain ⟨p, hp, hsame⟩ := ih hnext htidy.2.2 hmem
      exact ⟨p, List.mem_append_right _ hp, hsame⟩

end Code

section Instructions

variable {env : ClassEnv} {f : Frame} {code : Bytes} {e e' : EmitState} {i : Instr}
  {next : Following} {fused : Bool} {its : List (Item UInt16)}

theorem Item.hasSlot_of_isSlotless {ρ : Type} {x : Item ρ} (h : x.isSlotless = true) :
    x.hasSlot = false := by
  cases x with
  | load | store | onSlot => cases h
  | _ => rfl

theorem Item.stores_of_not_hasSlot {ρ : Type} {x : Item ρ} (h : x.hasSlot = false) :
    x.stores = [] := by
  cases x with
  | store | onSlot => cases h
  | _ => rfl

theorem hasSlot_of_branchItem? {b : Item UInt16} (h : branchItem? i = some b) :
    b.hasSlot = false := by
  unfold branchItem? at h
  split at h <;> cases h <;> rfl

-- Only variables and finally blocks have slots.
theorem Emits.hasSlot_eq_false (h : Emits env f i next e fused its e')
    (hs : namesSlot i.op = false) : ∀ x ∈ its, x.hasSlot = false := by
  have hslotless : ∀ {items : List (Item UInt16)}, Item.Slotless items →
      ∀ x ∈ items, x.hasSlot = false :=
    fun hitems x hx => Item.hasSlot_of_isSlotless (hitems x hx)
  cases hb : branchItem? i with
  | some b =>
    rw [h.branch hb]
    intro x hx
    obtain rfl := List.mem_singleton.mp hx
    exact hasSlot_of_branchItem? hb
  | none =>
    cases hc : Lowering.isComparison i.op with
    | false =>
      obtain ⟨js, hjs, hbare⟩ := emitInstr_bare hb hc hs _ _ _ _ _ _ h
      have hits : its = js := by simpa using congrArg Array.toList hjs
      rw [hits]
      exact hslotless hbare
    | true =>
      obtain ⟨cmp, hcmp, hits, -, -⟩ := h.comparison hc
      cases hcmp.shape with
      | unfused hi => exact hslotless (hits.slotless hi)
      | fused pre before hnext hpre hbefore hop =>
        obtain ⟨pre', before', rfl, -, -, c₁, hits₁, hits₂⟩ := hits.fused hpre.inert hbefore.inert
        intro x hx
        rw [List.mem_append, List.mem_cons, List.mem_append, List.mem_singleton] at hx
        obtain hx | rfl | hx | rfl := hx
        · exact hslotless (hits₁.slotless hpre) x hx
        · rfl
        · exact hslotless (hits₂.slotless hbefore) x hx
        · rfl

theorem Emits.stores_eq_nil (h : Emits env f i next e fused its e') (hs : namesSlot i.op = false) :
    ∀ x ∈ its, x.stores = [] :=
  fun x hx => Item.stores_of_not_hasSlot (h.hasSlot_eq_false hs x hx)

end Instructions

end PodCompiler.Lowering
