import PodCompiler.Proofs.Lowering.FaithfulCopies
import PodCompiler.Proofs.Lowering.FinallyCalls

namespace PodCompiler.Lowering

open ClassFile (CodeBuffer)
open ClassFile.Op
open Jvm (Kind accessed? compact? generalKind?)

namespace Item

-- The local that an item is an instruction on.
def accessed? {ρ : Type} : Item ρ → Option (Kind × Nat)
  | .load t slot => some (.ofStack t, slot.toNat)
  | .store t slot => some (.ofStack t, slot.toNat)
  | .onSlot o slot => (generalKind? o).map fun k => (k, slot.toNat)
  | _ => none

theorem accessed?_of_not_hasSlot {ρ : Type} {x : Item ρ} (h : x.hasSlot = false) :
    x.accessed? = none := by
  cases x with
  | load | store | onSlot => cases h
  | _ => rfl

theorem accessed?_onSlot {bytes : Bytes} {pos : Nat} {o : UInt8} {slot : UInt16}
    (ho : fixedLength? o = some 2) (h : bytes.Spells pos ((onSlot o slot).raw pos)) :
    Jvm.accessed? bytes pos = (generalKind? o).map fun k => (k, slot.toNat) := by
  rw [raw, CodeBuffer.slotOp] at h
  split at h
  · rename_i hle
    have hsmall : slot.toUInt8.toNat = slot.toNat := Nat.mod_eq_of_lt (Nat.lt_succ_of_le hle)
    obtain ⟨hop, hrest⟩ := Bytes.spells_cons.mp h
    rw [Jvm.accessed?_general hop (Bytes.spells_cons.mp hrest).1 (ne_wide_of_fixed ho)
      (Jvm.compact?_of_fixed ho), hsmall]
  · obtain ⟨hwide, hrest⟩ := Bytes.spells_cons.mp h
    obtain ⟨hop, hslot⟩ := Bytes.spells_cons.mp hrest
    exact Jvm.accessed?_wide hwide hop (Bytes.be2?_of_spells hslot)

-- The shortest instruction on a slot is on that of its general form.
theorem accessed?_localRaw {bytes : Bytes} {pos : Nat} {compact general : UInt8} {slot : UInt16}
    {k : Kind}
    (hcompact : ∀ n < 4, compact + n.toUInt8 ≠ wide ∧
      compact? (compact + n.toUInt8) = some (k, n))
    (hgeneral : fixedLength? general = some 2 ∧ generalKind? general = some k)
    (h : bytes.Spells pos (localRaw compact general slot)) :
    Jvm.accessed? bytes pos = some (k, slot.toNat) := by
  unfold localRaw at h
  split at h
  · rename_i hle
    obtain ⟨hne, hfixed⟩ := hcompact slot.toNat (Nat.lt_succ_of_le hle)
    exact Jvm.accessed?_compact (Bytes.spells_cons.mp h).1 hne hfixed
  · have honSlot : bytes.Spells pos ((onSlot general slot).raw pos) := by
      rw [raw, CodeBuffer.slotOp]
      split at h
      · rename_i hle
        rwa [if_pos hle]
      · rename_i hle
        rwa [if_neg hle]
    rw [accessed?_onSlot hgeneral.1 honSlot, hgeneral.2]
    rfl

-- The opcodes that load, and that store, a value of a type take their local for that.
theorem accessed?_variable {bytes : Bytes} {pos : Nat} {t : StackType} {slot : UInt16}
    {raw : List UInt8} (hraw : raw = loadRaw t slot ∨ raw = storeRaw t slot)
    (h : bytes.Spells pos raw) : Jvm.accessed? bytes pos = some (.ofStack t, slot.toNat) := by
  obtain ⟨compact, general, rfl, hcompact, hgeneral⟩ : ∃ compact general,
      raw = localRaw compact general slot ∧
      (∀ n < 4, compact + n.toUInt8 ≠ wide ∧
        compact? (compact + n.toUInt8) = some (.ofStack t, n)) ∧
      fixedLength? general = some 2 ∧ generalKind? general = some (.ofStack t) := by
    obtain rfl | rfl := hraw <;> cases t <;>
      exact ⟨_, _, code_localOp {} _ _ _, by decide, by decide⟩
  exact accessed?_localRaw hcompact hgeneral h

end Item

section Code

variable {env : ClassEnv} {f : Frame} {code : Bytes} {out : CodeBuffer} {c c₁ : OpenClass}
  {body : BodyState} {mc : MethodCode} {s pos p : Nat} {x : Item UInt16}
  {rest : List (Item UInt16)}

-- The instructions of an item are on the local that the item says.
theorem Lowered.accessed_start (hl : Lowered env f code out c c₁ body mc)
    (hx : body.Stands code out s pos (x :: rest)) (hwhole : x.isWhole = true)
    (hp : p ∈ x.starts pos) : accessed? mc.code.code p = x.accessed? := by
  obtain ⟨hslot, rfl, hspells⟩ | ⟨hslot, o, hop, hwide, hnames⟩ := hl.start_cases hx hwhole hp
  · cases x with
    | load => exact Item.accessed?_variable (.inl rfl) hspells
    | store => exact Item.accessed?_variable (.inr rfl) hspells
    | onSlot o slot => exact Item.accessed?_onSlot (by simpa [Item.isWhole] using hwhole) hspells
    | _ => cases hslot
  · rw [Jvm.accessed?_of_not_namesLocal hop hnames hwide, Item.accessed?_of_not_hasSlot hslot]

-- An instruction of an item is one of the body.
theorem BodyState.Stands.mem_allStarts (hx : body.Stands code out s pos (x :: rest))
    (hp : p ∈ x.starts pos) : p ∈ Item.allStarts out.pos body.items.toList := by
  obtain ⟨pre, hitems, -, rfl⟩ := hx
  have hsplit := Item.allStarts_append (Layout.start out code.size) pre (x :: rest)
  rw [hitems]
  exact hsplit ▸ List.mem_append_right _ (List.mem_append_left _ hp)

-- All items of a body stand behind the code that is there.
theorem Lowered.stands_all (hl : Lowered env f code out c c₁ body mc) (hc : c.WellFormed env) :
    body.Stands code out Relocation.mainScope out.pos (body.items.toList ++ []) ∧
      Item.isTidy (body.items.toList ++ []) = true := by
  rw [List.append_nil]
  exact ⟨⟨[], rfl, rfl, rfl⟩, tidy_of_emitBody hl.emits hc⟩

-- The new code is their instructions, however long it is.
theorem Lowered.walk (hl : Lowered env f code out c c₁ body mc) (hc : c.WellFormed env) :
    Walk mc.code.code out.pos (Item.allStarts out.pos body.items.toList) mc.code.pos := by
  obtain ⟨instrs, its, hs, hder, hitems⟩ := items_of_emitBody hl.emits
  obtain ⟨hx, htidy⟩ := hl.stands_all hc
  obtain ⟨s', stop, hend, hown⟩ := hl.exists_segment_of_lt hx htidy fun targets hmem => by
    rw [hitems, List.mem_append, List.mem_singleton] at hmem
    exact hder.targets_lt hs (hmem.resolve_right (by simp))
  rw [hl.eq_size hend] at hown
  exact hown.walk

end Code

namespace FinallySlots

-- A slot that is given out, for the exception of a block or to the subroutines of the method.
def Has (s : FinallySlots) (n : Nat) : Prop :=
  (∃ (q : Nat) (slot : UInt16), s.exceptions[q]? = some slot ∧ n = slot.toNat) ∨
    ∃ slots, s.subroutine = some slots ∧ (n = slots.1.toNat ∨ n = slots.2.toNat)

-- The slots are the ones behind the variables, and no two blocks have the same.
structure Behind (f : Frame) (s : FinallySlots) : Prop where
  bounds : ∀ n, s.Has n → f.maxLocals ≤ n ∧ n < f.maxLocals + s.extra
  apart : ∀ (q q' : Nat) (slot : UInt16), s.exceptions[q]? = some slot →
    s.exceptions[q']? = some slot → q = q'

variable {f : Frame} {s s' : FinallySlots}

theorem behind_empty (f : Frame) : Behind f {} where
  bounds n hn := by
    obtain ⟨q, slot, hslot, -⟩ | ⟨slots, hslots, -⟩ := hn
    · simp at hslot
    · cases hslots
  apart q q' slot hq := by simp at hq

theorem alloc_eq_ok {slot : UInt16} (h : s.alloc f = .ok (slot, s')) :
    slot.toNat = f.maxLocals + s.extra ∧ s' = { s with extra := s.extra + 1 } := by
  unfold alloc at h
  dsimp only at h
  split at h
  · rename_i hfits
    cases h
    refine ⟨?_, rfl⟩
    rw [Nat.toUInt16_eq, UInt16.toNat_ofNat']
    exact Nat.mod_eq_of_lt (by omega)
  · cases h

-- A block that has no slot yet takes the one behind all others.
theorem Behind.forBlock {pos : Nat} {slot : UInt16} (hs : s.Behind f)
    (h : s.forBlock f pos = .ok (slot, s')) :
    s'.Behind f ∧ (∀ n, s.Has n → s'.Has n) ∧ s'.exceptions[pos]? = some slot := by
  have hkept := (forBlock_eq_ok h).2
  unfold FinallySlots.forBlock at h
  split at h
  · cases h
    exact ⟨hs, fun n hn => hn, hkept.1⟩
  · rename_i hnew
    obtain ⟨⟨slot', s₁⟩, halloc, h⟩ := except_bind_eq_ok.mp h
    cases h
    obtain ⟨hslot, rfl⟩ := alloc_eq_ok halloc
    -- A slot of before, or the one of this block.
    have hcases : ∀ (q : Nat) (taken : UInt16), (s.exceptions.insert pos slot)[q]? = some taken →
        q = pos ∧ taken = slot ∨ s.exceptions[q]? = some taken ∧ taken.toNat < slot.toNat := by
      intro q taken hq
      rw [Std.HashMap.getElem?_insert] at hq
      split at hq
      · rename_i heq
        cases hq
        exact .inl ⟨(beq_iff_eq.mp heq).symm, rfl⟩
      · have hlt := (hs.bounds _ (.inl ⟨q, taken, hq, rfl⟩)).2
        exact .inr ⟨hq, by omega⟩
    refine ⟨⟨?_, ?_⟩, ?_, hkept.1⟩
    · rintro n (⟨q, taken, hq, rfl⟩ | hpair)
      · obtain ⟨-, rfl⟩ | ⟨hold, -⟩ := hcases q taken hq
        · exact ⟨by omega, by simp only; omega⟩
        · obtain ⟨hlo, hhi⟩ := hs.bounds _ (.inl ⟨q, taken, hold, rfl⟩)
          exact ⟨hlo, Nat.lt_succ_of_lt hhi⟩
      · obtain ⟨hlo, hhi⟩ := hs.bounds n (.inr hpair)
        exact ⟨hlo, Nat.lt_succ_of_lt hhi⟩
    · intro q q' taken hq hq'
      obtain ⟨rfl, htaken⟩ | ⟨hold, hlt⟩ := hcases q taken hq
      · obtain ⟨rfl, -⟩ | ⟨-, hlt⟩ := hcases q' taken hq'
        · rfl
        · rw [htaken] at hlt
          omega
      · obtain ⟨-, rfl⟩ | ⟨hold', -⟩ := hcases q' taken hq'
        · omega
        · exact hs.apart q q' taken hold hold'
    · rintro n (⟨q, taken, hq, rfl⟩ | hpair)
      · exact .inl ⟨q, taken, hkept.2 q taken hq, rfl⟩
      · exact .inr hpair

-- The subroutines of a method take two slots when the first of them is lowered.
theorem Behind.forSubroutine {slots : UInt16 × UInt16} (hs : s.Behind f)
    (h : s.forSubroutine f = .ok (slots, s')) :
    s'.Behind f ∧ (∀ n, s.Has n → s'.Has n) ∧ s'.subroutine = some slots := by
  unfold FinallySlots.forSubroutine at h
  split at h
  · rename_i hknown
    cases h
    exact ⟨hs, fun n hn => hn, hknown⟩
  · rename_i hnone
    obtain ⟨⟨exception, s₁⟩, hfirst, h⟩ := except_bind_eq_ok.mp h
    obtain ⟨⟨address, s₂⟩, hsecond, h⟩ := except_bind_eq_ok.mp h
    cases h
    obtain ⟨hexception, rfl⟩ := alloc_eq_ok hfirst
    obtain ⟨haddress, rfl⟩ := alloc_eq_ok hsecond
    simp only at haddress
    refine ⟨⟨?_, hs.apart⟩, ?_, rfl⟩
    · rintro n (hblock | ⟨slots, hslots, hn⟩)
      · obtain ⟨hlo, hhi⟩ := hs.bounds n (.inl hblock)
        exact ⟨hlo, by simp only; omega⟩
      · cases hslots
        simp only at hn ⊢
        omega
    · rintro n (hblock | ⟨slots, hslots, -⟩)
      · exact .inl hblock
      · cases hnone.symm.trans hslots

end FinallySlots

-- A register starts there, and is of that kind.
def Frame.Register (f : Frame) (k : Kind) (n : Nat) : Prop :=
  ∃ l, some l ∈ f.regs.toList ∧ k = .ofStack l.stack ∧ n = l.slot

-- What may be taken for a value of a kind: a register, or for a reference a slot of the finally
-- blocks.
def FinallySlots.Owns (f : Frame) (s : FinallySlots) (k : Kind) (n : Nat) : Prop :=
  f.Register k n ∨ k = .ref ∧ s.Has n

theorem FinallySlots.Owns.imp {f : Frame} {s s' : FinallySlots} {k : Kind} {n : Nat}
    (h : s.Owns f k n) (hkept : ∀ n, s.Has n → s'.Has n) : s'.Owns f k n :=
  Or.imp_right (And.imp_right (hkept n)) h

-- Items are on such locals only.
def Item.Own (f : Frame) (s : FinallySlots) (its : List (Item UInt16)) : Prop :=
  ∀ x ∈ its, ∀ k n, x.accessed? = some (k, n) → s.Owns f k n

section Emission

variable {env : ClassEnv} {f : Frame} {code : Bytes} {e e' : EmitState} {i : Instr}
  {next : Following} {fused : Bool} {its : List (Item UInt16)} {instrs : List Instr}

theorem Item.Own.imp {s s' : FinallySlots} (h : Item.Own f s its)
    (hkept : ∀ n, s.Has n → s'.Has n) : Item.Own f s' its :=
  fun x hx k n hn => (h x hx k n hn).imp hkept

theorem Item.own_of_hasSlot {s : FinallySlots} (h : ∀ x ∈ its, x.hasSlot = false) :
    Item.Own f s its := by
  intro x hx k n hn
  rw [Item.accessed?_of_not_hasSlot (h x hx)] at hn
  cases hn

-- An instruction keeps the slots that are given out.
theorem Emits.behind (h : Emits env f i next e fused its e') (he : e.slots.Behind f) :
    e'.slots.Behind f ∧ ∀ n, e.slots.Has n → e'.slots.Has n := by
  by_cases hstart : i.op = .finallyStart
  · cases hstrategy : env.config.finallyStrategy with
    | inline =>
      obtain ⟨-, -, slot, fs, hblock, hslots, -⟩ := h.finallyStart_slot hstart hstrategy
      obtain ⟨hbehind, hkept, -⟩ := he.forBlock hblock
      rw [hslots]
      exact ⟨⟨hbehind.bounds, hbehind.apart⟩, hkept⟩
    | subroutine =>
      obtain ⟨slots, hslots, -⟩ := h.finallyStart_jsr hstart hstrategy
      obtain ⟨hbehind, hkept, -⟩ := he.forSubroutine hslots
      exact ⟨hbehind, hkept⟩
  by_cases hend : i.op = .finallyEnd
  · cases hstrategy : env.config.finallyStrategy with
    | inline =>
      obtain ⟨-, -, pos, pending, slot, -, -, hslots, -⟩ := h.finallyEnd_slot hend hstrategy
      rw [hslots]
      exact ⟨⟨he.bounds, he.apart⟩, fun n hn => hn⟩
    | subroutine =>
      obtain ⟨slots, hslots, -⟩ := h.finallyEnd_ret hend hstrategy
      obtain ⟨hbehind, hkept, -⟩ := he.forSubroutine hslots
      exact ⟨hbehind, hkept⟩
  · rw [h.slots_eq hstart hend]
    exact ⟨he, fun n hn => hn⟩

theorem Item.own_singleton {s : FinallySlots} {x : Item UInt16}
    (h : ∀ k n, x.accessed? = some (k, n) → s.Owns f k n) : Item.Own f s [x] :=
  List.forall_mem_singleton.mpr h

-- The start and the end of a block are on slots that are given out then.
theorem Emits.own_finallyStart (h : Emits env f i next e fused its e') (he : e.slots.Behind f)
    (hop : i.op = .finallyStart) : Item.Own f e'.slots its := by
  cases hstrategy : env.config.finallyStrategy with
  | inline =>
    obtain ⟨-, -, -, slot, hslot, rfl⟩ := h.finallyStart hop hstrategy
    refine Item.own_singleton fun k n hn => ?_
    cases hn
    exact .inr ⟨rfl, .inl ⟨_, slot, hslot, rfl⟩⟩
  | subroutine =>
    obtain ⟨slots, hslots, rfl⟩ := h.finallyStart_jsr hop hstrategy
    obtain ⟨-, -, hpair⟩ := he.forSubroutine hslots
    intro x hx k n hn
    simp only [FinallySlots.subroutineItems, List.mem_cons, List.not_mem_nil, or_false] at hx
    obtain rfl | rfl | rfl | rfl | rfl := hx <;> cases hn
    · exact .inr ⟨rfl, .inr ⟨slots, hpair, .inl rfl⟩⟩
    · exact .inr ⟨rfl, .inr ⟨slots, hpair, .inl rfl⟩⟩
    · exact .inr ⟨rfl, .inr ⟨slots, hpair, .inr rfl⟩⟩

theorem Emits.own_finallyEnd (h : Emits env f i next e fused its e') (he : e.slots.Behind f)
    (hop : i.op = .finallyEnd) : Item.Own f e'.slots its := by
  cases hstrategy : env.config.finallyStrategy with
  | inline =>
    obtain ⟨-, -, pos, slot, -, hslot, rfl⟩ := h.finallyEnd hop hstrategy
    intro x hx k n hn
    simp only [List.mem_cons, List.not_mem_nil, or_false] at hx
    obtain rfl | rfl := hx <;> cases hn
    exact .inr ⟨rfl, .inl ⟨pos, slot, hslot, rfl⟩⟩
  | subroutine =>
    obtain ⟨slots, hslots, rfl⟩ := h.finallyEnd_ret hop hstrategy
    obtain ⟨-, -, hpair⟩ := he.forSubroutine hslots
    refine Item.own_singleton fun k n hn => ?_
    cases hn
    exact .inr ⟨rfl, .inr ⟨slots, hpair, .inr rfl⟩⟩

-- The other instructions are on registers, or on no local.
theorem Emits.own (h : Emits env f i next e fused its e')
    (hf : Frame.Consecutive 0 f.maxLocals f.regs.toList) (hfits : f.maxLocals ≤ 0xFFFF)
    (he : e.slots.Behind f) : Item.Own f e'.slots its := by
  have hregister : ∀ {l : Local}, f.local? i.arg = some l →
      f.Register (.ofStack l.stack) l.slot.toUInt16.toNat := fun {l} hl =>
    ⟨l, List.mem_of_getElem? (Frame.mem_of_local? hl), rfl, Frame.slot_toNat hf hfits hl⟩
  cases hs : namesSlot i.op with
  | false => exact Item.own_of_hasSlot (h.hasSlot_eq_false hs)
  | true =>
    simp only [namesSlot, Bool.or_eq_true, decide_eq_true_eq] at hs
    obtain ((hload | hstore) | hstart) | hend := hs
    · obtain ⟨l, hl, rfl⟩ := h.loadVar hload
      refine Item.own_singleton fun k n hn => ?_
      cases hn
      exact .inl (hregister hl)
    · obtain ⟨l, hl, rfl⟩ := h.storeVar hstore
      refine Item.own_singleton fun k n hn => ?_
      cases hn
      exact .inl (hregister hl)
    · exact h.own_finallyStart he hstart
    · exact h.own_finallyEnd he hend

-- So do instructions one after the other, and those in copies among them.
theorem Emission.behind (h : Emission env f code e instrs its e') (he : e.slots.Behind f) :
    e'.slots.Behind f ∧ ∀ n, e.slots.Has n → e'.slots.Has n := by
  induction h with
  | nil => exact ⟨he, fun n hn => hn⟩
  | one hi _ ih | fused hi _ ih =>
    obtain ⟨hfirst, hkept⟩ := hi.behind he
    obtain ⟨hrest, hkept'⟩ := ih hfirst
    exact ⟨hrest, fun n hn => hkept' n (hkept n hn)⟩
  | copy _ _ _ _ _ _ ihbody ihrest =>
    obtain ⟨hbody, hkept⟩ := ihbody he
    obtain ⟨hrest, hkept'⟩ := ihrest hbody
    exact ⟨hrest, fun n hn => hkept' n (hkept n hn)⟩

theorem Emission.own (h : Emission env f code e instrs its e')
    (hf : Frame.Consecutive 0 f.maxLocals f.regs.toList) (hfits : f.maxLocals ≤ 0xFFFF)
    (he : e.slots.Behind f) : Item.Own f e'.slots its := by
  have hmark : ∀ {s : FinallySlots} {x : Item UInt16} {xs : List (Item UInt16)},
      x.hasSlot = false → Item.Own f s xs → Item.Own f s (x :: xs) := fun hx hxs =>
    List.forall_mem_cons.mpr ⟨fun k n hn => absurd hn (by simp [Item.accessed?_of_not_hasSlot hx]),
      hxs⟩
  induction h with
  | nil => exact Item.own_of_hasSlot (by simp)
  | one hi hrest ih | fused hi hrest ih =>
    obtain ⟨hfirst, -⟩ := hi.behind he
    have hown := (hi.own hf hfits he).imp (hrest.behind hfirst).2
    exact hmark rfl (List.forall_mem_append.mpr ⟨hown, ih hfirst⟩)
  | copy _ _ _ _ hbody hrest ihbody ihrest =>
    obtain ⟨hinner, -⟩ := hbody.behind he
    have hown := (ihbody he).imp (hrest.behind hinner).2
    exact hmark rfl (hmark rfl (List.forall_mem_append.mpr ⟨hown, hmark rfl (ihrest hinner)⟩))

end Emission

section Room

variable {env : ClassEnv} {f : Frame} {code : Bytes} {out : CodeBuffer} {c c₁ c' : OpenClass}
  {body : BodyState} {mc : MethodCode} {attrs : Pod.Attributes} {p : PlacedCode}

-- The code of a method has room for its slots.
theorem lowered_room_of_finish {exceptions : Array ClassFile.ExceptionEntry}
    {lines : Array ClassFile.LineEntry} (hp : placeCode f code out env c = .ok p c₁)
    (h : PlacedCode.finish { p with out := { p.out with exceptions, lines } } f = .ok mc) :
    ∃ body, Lowered env f code out c c₁ body mc ∧
      f.maxLocals + body.finallies.extra ≤ mc.code.maxLocals.toNat := by
  obtain ⟨hcode, hreloc, hjumps⟩ := finish_eq_ok h
  obtain ⟨body, hbody, hexact⟩ := exact_of_placed hp hcode hreloc hjumps
  obtain ⟨body', hbody', -, rfl⟩ := placeCode_eq_ok hp
  cases hbody.symm.trans hbody'
  exact ⟨body, ⟨hbody, hexact⟩, room_of_finish h⟩

theorem lowered_room (h : lowerCode f code attrs out env c = .ok mc c' ∨
    lowerFragment f code out env c = .ok mc c') :
    ∃ body c₁, Lowered env f code out c c₁ body mc ∧
      f.maxLocals + body.finallies.extra ≤ mc.code.maxLocals.toNat := by
  obtain h | h := h
  · obtain ⟨p, c₁, exceptions, lines, hp, hfinish⟩ := finish_of_lowerCode h
    obtain ⟨body, hl⟩ := lowered_room_of_finish hp hfinish
    exact ⟨body, c₁, hl⟩
  · obtain ⟨p, c₁, hp, hrest⟩ := ClassM.bind_eq_ok.mp h
    obtain ⟨body, hl⟩ := lowered_room_of_finish hp (ClassM.ofExcept_eq_ok.mp hrest).1
    exact ⟨body, c₁, hl⟩

-- Every instruction on a local is on a register or on a slot of the finally blocks.
theorem Lowered.owns (hl : Lowered env f code out c c₁ body mc) (hc : c.WellFormed env)
    (hf : Frame.Consecutive 0 f.maxLocals f.regs.toList) (hfits : f.maxLocals ≤ 0xFFFF) {pos : Nat}
    (hpos : pos ∈ Item.allStarts out.pos body.items.toList) {k : Kind} {n : Nat}
    (hn : accessed? mc.code.code pos = some (k, n)) : body.finallies.Owns f k n := by
  obtain ⟨instrs, its, -, hder, hitems⟩ := items_of_emitBody hl.emits
  have hown : Item.Own f body.finallies body.items.toList := by
    rw [hitems]
    exact List.forall_mem_append.mpr ⟨hder.own hf hfits (FinallySlots.behind_empty f),
      Item.own_of_hasSlot (by simp [Item.hasSlot])⟩
  obtain ⟨hx, htidy⟩ := hl.stands_all hc
  obtain ⟨x, hmem, hwhole, s', pos', more, hx', hp⟩ := hx.exists_item htidy hpos
  rw [hl.accessed_start hx' hwhole hp] at hn
  exact hown x hmem k n hn

-- There is room for both halves of a value that is taken from one of them.
theorem FinallySlots.Owns.room {s : FinallySlots} {k : Kind} {n : Nat} (h : s.Owns f k n)
    (hf : Frame.Consecutive 0 f.maxLocals f.regs.toList) (hs : s.Behind f) :
    n + k.width ≤ f.maxLocals + s.extra := by
  obtain ⟨l, hl, rfl, rfl⟩ | ⟨rfl, hn⟩ := h
  · have hstop : l.stop ≤ f.maxLocals := (hf.bounds.2 l hl).2
    rw [Jvm.Kind.width_ofStack]
    exact Nat.le_trans hstop (Nat.le_add_right _ _)
  · exact (hs.bounds n hn).2

-- A block that is copied stores its exception in the slot of the block, in every copy.
theorem Lowered.accessed_finallyStart (hl : Lowered env f code out c c₁ body mc)
    (hinline : env.config.finallyStrategy = .inline) {scope q pos : Nat} {i : Instr}
    (hq : (body.layout code out).reloc.getLocal scope q = some pos)
    (hi : Instr.decodeAt code q = .ok i) (hop : i.op = .finallyStart) :
    pos ∈ Item.allStarts out.pos body.items.toList ∧ ∃ slot : UInt16,
      body.finallies.exceptions[q]? = some slot ∧
      accessed? mc.code.code pos = some (.ref, slot.toNat) := by
  obtain ⟨next, e, e₁, own, more, hown, hlast, -, hx⟩ :=
    hl.stands_alone hq hi (by rw [hop]; rfl) (by rw [hop]; rfl) (by simp [hop]) (by simp [hop])
  obtain ⟨-, -, -, slot, hslot, rfl⟩ := hown.finallyStart hop hinline
  have hstart : pos ∈ (Item.store .obj slot : Item UInt16).starts pos := List.mem_singleton_self _
  rw [Instr.decodeAt_pos hi] at hslot
  exact ⟨hx.mem_allStarts hstart, slot, (hlast.below hinline).exceptions _ _ hslot,
    hl.accessed_start hx rfl hstart⟩

end Room

-- No instruction of a body, or of a fragment, takes a local for something that it is not.
theorem locals_kept_apart {env : ClassEnv} {s : Pod.Symbols} {owner : String} {d : Pod.MethodDef}
    {mode : SelfMode} {f : Frame} {ret : StackType} {code : Bytes} {attrs : Pod.Attributes}
    {out : CodeBuffer} {c c' : OpenClass} {mc : MethodCode} (hc : c.WellFormed env)
    (hframe : Frame.forMethod s owner d mode = .ok f)
    (h : lowerCode (f.withRet ret) code attrs out env c = .ok mc c' ∨
      lowerFragment (f.withRet ret) code out env c = .ok mc c') :
    (∀ (r r' : Nat) l l', f.regs[r]? = some (some l) → f.regs[r']? = some (some l') → r ≠ r' →
      l.stop ≤ l'.slot ∨ l'.stop ≤ l.slot) ∧
    (∀ (r : Nat) l, f.regs[r]? = some (some l) → l.stop ≤ f.maxLocals) ∧
    ∃ body c₁ starts, Lowered env (f.withRet ret) code out c c₁ body mc ∧
      Walk mc.code.code out.pos starts mc.code.pos ∧
      (∀ p ∈ starts, ∀ k n, accessed? mc.code.code p = some (k, n) →
        n + k.width ≤ mc.code.maxLocals.toNat ∧
        (f.Register k n ∨ k = .ref ∧ body.finallies.Has n)) ∧
      (∀ n, body.finallies.Has n → f.maxLocals ≤ n) ∧
      (env.config.finallyStrategy = .inline →
        (∀ (q q' : Nat) slot, body.finallies.exceptions[q]? = some slot →
          body.finallies.exceptions[q']? = some slot → q = q') ∧
        ∀ scope q p i, (body.layout code out).reloc.getLocal scope q = some p →
          Instr.decodeAt code q = .ok i → i.op = .finallyStart → p ∈ starts ∧ ∃ slot : UInt16,
            body.finallies.exceptions[q]? = some slot ∧
            accessed? mc.code.code p = some (.ref, slot.toNat)) := by
  have hlaid : Frame.Consecutive 0 f.maxLocals f.regs.toList := Frame.consecutive_forMethod hframe
  obtain ⟨body, c₁, hl, hroom⟩ := lowered_room h
  have hroom : f.maxLocals + body.finallies.extra ≤ mc.code.maxLocals.toNat := hroom
  have hfits : f.maxLocals ≤ 0xFFFF := by
    have hlt := mc.code.maxLocals.toNat_lt
    omega
  obtain ⟨instrs, its, -, hder, -⟩ := items_of_emitBody hl.emits
  obtain ⟨hbehind, -⟩ := hder.behind (FinallySlots.behind_empty _)
  refine ⟨?_, ?_, body, c₁, _, hl, hl.walk hc, ?_, fun n hn => (hbehind.bounds n hn).1, ?_⟩
  · intro r r' l l' hr hr' hne
    rw [← Array.getElem?_toList] at hr hr'
    exact hlaid.disjoint hr hr' hne
  · intro r l hr
    rw [← Array.getElem?_toList] at hr
    exact (hlaid.bounds.2 l (List.mem_of_getElem? hr)).2
  · intro p hp k n hn
    have howns := hl.owns hc hlaid hfits hp hn
    exact ⟨Nat.le_trans (howns.room hlaid hbehind) hroom, howns⟩
  · intro hinline
    refine ⟨hbehind.apart, fun scope q p i hq hi hop => ?_⟩
    exact hl.accessed_finallyStart hinline hq hi hop

-- A method without variables.
def unitMethod : Pod.MethodDef where
  name := "m"
  flags := Pod.Flag.static_
  ret := 0
  inheritedRet := 0
  maxStack := 0
  paramCount := 0
  localCount := 0
  vars := #[]
  code := nestedTry
  attrs := nestedAttrs

-- Its finally block has the first slot.
theorem locals_kept_apart_nestedTry : errEnv.config.finallyStrategy = .inline ∧
    Frame.forMethod errEnv.pod.symbols "fan/p/T" unitMethod .bound =
      .ok { bareFrame with ret := .obj } ∧
    ∃ mc c', lowerCode (Frame.withRet { bareFrame with ret := .obj } .void) nestedTry nestedAttrs {}
        errEnv bareClass = .ok mc c' ∧
      (nestedBody.layout nestedTry {}).reloc.getLocal Relocation.mainScope 7 = some 9 ∧
      accessed? mc.code.code 9 = some (.ref, 0) ∧ 0 < mc.code.maxLocals.toNat := by
  have hframe : Frame.forMethod errEnv.pod.symbols "fan/p/T" unitMethod .bound =
      .ok { bareFrame with ret := .obj } := by
    rfl
  obtain ⟨mc, c', h, -⟩ := exists_lowerCode_nestedTry
  obtain ⟨-, -, body, c₁, starts, hl, -, haccess, -, hinline⟩ :=
    locals_kept_apart (wellFormed_bare _) hframe (.inl h)
  cases emitBody_nestedTry.symm.trans hl.emits
  have hknown : (nestedBody.layout nestedTry {}).reloc.getLocal Relocation.mainScope 7 = some 9 := by
    cbv
  have hi : Instr.decodeAt nestedTry 7 = .ok ⟨7, .finallyStart, []⟩ := rfl
  obtain ⟨hmem, slot, hslot, haccessed⟩ := (hinline rfl).2 _ _ _ _ hknown hi rfl
  obtain rfl : slot = 0 := by
    have hgiven : nestedBody.finallies.exceptions[7]? = some 0 := Std.HashMap.getElem?_insert_self
    exact Option.some.inj (hslot.symm.trans hgiven)
  obtain ⟨hroom, -⟩ := haccess 9 hmem _ _ haccessed
  refine ⟨rfl, hframe, mc, c', h, hknown, haccessed, ?_⟩
  exact Nat.lt_of_lt_of_le (by decide) hroom

end PodCompiler.Lowering
