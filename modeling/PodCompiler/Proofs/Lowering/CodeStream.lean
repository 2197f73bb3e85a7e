import PodCompiler.Proofs.Lowering.DispatchOrder
import PodCompiler.Proofs.Lowering.FinalCode
import PodCompiler.Proofs.Lowering.Protection
import PodCompiler.Proofs.Lowering.WholeItems

namespace PodCompiler.Lowering

open ClassFile (CodeBuffer ExceptionEntry LineEntry)
open ClassFile.Op

namespace Item

-- Where the instructions of an item start that is written at `pos`.
def starts (pos : Nat) : Item UInt16 → List Nat
  | .mark _ | .reserve _ | .enter | .leave .. => []
  | .switch targets => if targets.isEmpty then [pos] else [pos, pos + 1]
  | _ => [pos]

-- The same for items one behind the other.
def allStarts (pos : Nat) : List (Item UInt16) → List Nat
  | [] => []
  | x :: rest => x.starts pos ++ allStarts (pos + (x.raw pos).length) rest

theorem allStarts_append (l : Layout) (xs ys : List (Item UInt16)) :
    allStarts l.out.pos (xs ++ ys) =
      allStarts l.out.pos xs ++ allStarts (l.puts xs).out.pos ys := by
  induction xs generalizing l with
  | nil => rfl
  | cons x rest ih =>
    rw [List.cons_append, allStarts, allStarts, ← l.pos_put, ih, Layout.puts_cons,
      List.append_assoc]

theorem length_localRaw (compact general : UInt8) (slot : UInt16) :
    (localRaw compact general slot).length =
      if slot ≤ 3 then 1 else if slot ≤ 0xFF then 2 else 4 := by
  unfold localRaw
  split
  · rfl
  · split <;> rfl

theorem length_slotRaw (o : UInt8) (slot : UInt16) (pos : Nat) :
    ((onSlot o slot).raw pos).length = if slot ≤ 0xFF then 2 else 4 := by
  rw [raw, CodeBuffer.slotOp]
  split <;> rfl

-- Inert items are as long wherever they are.
theorem length_raw {x : Item UInt16} (h : x.isInert = true) (pos : Nat) :
    (x.raw pos).length = x.size := by
  cases x with
  | load t slot =>
    obtain ⟨compact, general, hraw, -, -⟩ := loadRaw_eq t slot
    rw [raw, hraw, length_localRaw]
    rfl
  | store t slot =>
    obtain ⟨compact, general, hraw, -, -⟩ := storeRaw_eq t slot
    rw [raw, hraw, length_localRaw]
    rfl
  | onSlot o slot => exact length_slotRaw o slot pos
  | mark | jump | switch | enter | leave => cases h
  | _ => rfl

-- A way that lands comes to where an item begins, or behind the last one.
theorem exists_of_lands {n : Nat} {items : List (Item UInt16)} (h : lands n items = true) :
    ∃ pre post, items = pre ++ post ∧ ∀ l : Layout, (l.puts pre).out.pos = l.out.pos + n := by
  induction items generalizing n with
  | nil =>
    have hn : n = 0 := by simpa [lands] using h
    subst hn
    exact ⟨[], [], rfl, fun _ => rfl⟩
  | cons x rest ih =>
    simp only [lands, Bool.or_eq_true, Bool.and_eq_true, beq_iff_eq, decide_eq_true_eq] at h
    obtain rfl | ⟨hx, hle, hrest⟩ := h
    · exact ⟨[], x :: rest, rfl, fun _ => rfl⟩
    · obtain ⟨pre, post, rfl, hpos⟩ := ih hrest
      refine ⟨x :: pre, post, rfl, fun l => ?_⟩
      rw [Layout.puts_cons, hpos, l.pos_put, length_raw hx]
      omega

theorem isTidy_of_append {ρ : Type} {xs ys : List (Item ρ)} (h : isTidy (xs ++ ys) = true) :
    isTidy ys = true := by
  induction xs with
  | nil => exact h
  | cons x rest ih =>
    simp only [List.cons_append, isTidy, Bool.and_eq_true] at h
    exact ih h.2.2

end Item

-- A position at which an item of the body begins, or at which the last one ends.
def BodyState.Boundary (body : BodyState) (code : Bytes) (out : CodeBuffer) (pc : Nat) : Prop :=
  ∃ s rest, body.Stands code out s pc rest

theorem BodyState.Stands.next {body : BodyState} {code : Bytes} {out : CodeBuffer} {s pos : Nat}
    {x : Item UInt16} {rest : List (Item UInt16)} (h : body.Stands code out s pos (x :: rest)) :
    ∃ s', body.Stands code out s' (pos + (x.raw pos).length) rest := by
  obtain ⟨pre, hitems, -, hpos⟩ := h
  refine ⟨_, pre ++ [x], by simp [hitems], rfl, ?_⟩
  rw [Layout.puts_append, ← hpos]
  exact Layout.pos_put _ x

section Stream

variable {env : ClassEnv} {f : Frame} {code : Bytes} {out : CodeBuffer} {c c₁ : OpenClass}
  {body : BodyState} {mc : MethodCode} {s pos q java : Nat} {x : Item UInt16}
  {rest : List (Item UInt16)}

-- What a scope knows is where an item begins.
theorem boundary_of_getLocal
    (h : (body.layout code out).reloc.getLocal s q = some java) : body.Boundary code out java := by
  rw [body.layout_eq] at h
  obtain h | ⟨pre, item, post, hsplit, hscope, rfl, -⟩ := Layout.exists_note h
  · rw [getLocal_start] at h
    cases h
  · exact ⟨s, _, pre, hsplit, hscope, rfl⟩

theorem boundary_of_finds (h : (body.layout code out).reloc.Finds q s java) :
    body.Boundary code out java := by
  induction h with
  | here hlocal => exact boundary_of_getLocal hlocal
  | outer _ _ _ ih => exact ih

theorem boundary_out (body : BodyState) (code : Bytes) (out : CodeBuffer) :
    body.Boundary code out out.pos :=
  ⟨_, _, [], rfl, rfl, rfl⟩

-- An instruction on a slot is not an increment.
theorem ne_iinc_of_fixed {op : UInt8} (h : fixedLength? op = some 2) : op ≠ 0x84 := by
  rintro rfl
  cases h

-- The shortest instruction on a slot, in all of its three forms.
theorem segment_localRaw {P : Nat → Prop} {bytes : Bytes} {compact general : UInt8} {slot : UInt16}
    (hcompact : ∀ n < 4, fixedLength? (compact + n.toUInt8) = some 1)
    (hgeneral : fixedLength? general = some 2)
    (h : bytes.Spells pos (Item.localRaw compact general slot)) :
    Segment P bytes pos [pos] (pos + (Item.localRaw compact general slot).length) := by
  unfold Item.localRaw at h ⊢
  split at h
  · rename_i hle
    have hlt : slot.toNat < 4 := Nat.lt_succ_of_le hle
    rw [if_pos hle]
    exact .fixed (Bytes.spells_cons.mp h).1 (hcompact _ hlt) (by simp)
  rename_i hgt
  rw [if_neg hgt]
  split at h
  · rename_i hle
    rw [if_pos hle]
    exact .fixed (Bytes.spells_cons.mp h).1 hgeneral (by simp)
  · rename_i hbig
    rw [if_neg hbig]
    rw [Bytes.spells_cons, Bytes.spells_cons] at h
    exact .wide h.1 h.2.1 (ne_iinc_of_fixed hgeneral)

theorem segment_load {P : Nat → Prop} {bytes : Bytes} {t : StackType} {slot : UInt16}
    (h : bytes.Spells pos (Item.loadRaw t slot)) :
    Segment P bytes pos [pos] (pos + (Item.loadRaw t slot).length) := by
  obtain ⟨compact, general, hraw, hcompact, hgeneral⟩ : ∃ compact general,
      Item.loadRaw t slot = Item.localRaw compact general slot ∧
      (∀ n < 4, fixedLength? (compact + n.toUInt8) = some 1) ∧ fixedLength? general = some 2 := by
    cases t <;> exact ⟨_, _, code_localOp {} _ _ _, forall_lt_four rfl rfl rfl rfl, rfl⟩
  rw [hraw] at h ⊢
  exact segment_localRaw hcompact hgeneral h

theorem segment_store {P : Nat → Prop} {bytes : Bytes} {t : StackType} {slot : UInt16}
    (h : bytes.Spells pos (Item.storeRaw t slot)) :
    Segment P bytes pos [pos] (pos + (Item.storeRaw t slot).length) := by
  obtain ⟨compact, general, hraw, hcompact, hgeneral⟩ : ∃ compact general,
      Item.storeRaw t slot = Item.localRaw compact general slot ∧
      (∀ n < 4, fixedLength? (compact + n.toUInt8) = some 1) ∧ fixedLength? general = some 2 := by
    cases t <;> exact ⟨_, _, code_localOp {} _ _ _, forall_lt_four rfl rfl rfl rfl, rfl⟩
  rw [hraw] at h ⊢
  exact segment_localRaw hcompact hgeneral h

-- An instruction on a slot that is never compact.
theorem segment_onSlot {P : Nat → Prop} {bytes : Bytes} {o : UInt8} {slot : UInt16}
    (ho : fixedLength? o = some 2) (h : bytes.Spells pos ((Item.onSlot o slot).raw pos)) :
    Segment P bytes pos [pos] (pos + ((Item.onSlot o slot).raw pos).length) := by
  rw [Item.length_slotRaw]
  rw [Item.raw, CodeBuffer.slotOp] at h
  split at h
  · rename_i hle
    rw [if_pos hle]
    exact .fixed (Bytes.spells_cons.mp h).1 ho (by decide)
  · rename_i hbig
    rw [if_neg hbig]
    exact .wide (h 0 (by simp)) (h 1 (by simp)) (ne_iinc_of_fixed ho)

-- A distance that goes ahead.
theorem word2_of_spells {bytes : Bytes} {distance : UInt16} (hd : distance.toNat < 2 ^ 15)
    (h : bytes.Spells pos (Bytes.be2 distance).toList) :
    (word2 bytes pos).toInt16.toInt = distance.toNat := by
  rw [word2, Bytes.be2?_of_spells h]
  exact Bytes.toInt_toInt16 hd

-- A jump by a fixed distance comes to where an item begins.
theorem Lowered.segment_hop (hl : Lowered env f code out c c₁ body mc) {o : UInt8}
    {distance : UInt16} (hx : body.Stands code out s pos (.hop o distance :: rest))
    (ho : isBranch o = true) (hlands : Item.hopLands rest (.hop o distance) = true) :
    Segment (body.Boundary code out) mc.code.code pos [pos] (pos + 3) := by
  obtain ⟨hop, hdistance⟩ := Bytes.spells_cons.mp (hl.spells hx rfl)
  simp only [Item.hopLands, Bool.and_eq_true, decide_eq_true_eq] at hlands
  obtain ⟨hlow, hhigh, hlands⟩ := hlands
  refine .branch hop ho fun _ => ⟨pos + distance.toNat, ?_, ?_⟩
  · rw [word2_of_spells hhigh hdistance]
    omega
  · obtain ⟨pre, hitems, -, hpos⟩ := hx
    obtain ⟨mid, post, rfl, hmid⟩ := Item.exists_of_lands hlands
    refine ⟨_, post, pre ++ .hop o distance :: mid, by simp [hitems], rfl, ?_⟩
    rw [Layout.puts_append, Layout.puts_cons, hmid, Layout.pos_put, hpos]
    simp only [Item.raw, List.length_cons, Array.length_toList, Bytes.size_be2]
    omega

-- A jump to an instruction of the method comes to the mark of that instruction.
theorem Lowered.segment_jump (hl : Lowered env f code out c c₁ body mc) {kind : JumpKind}
    {o : UInt8} {target : UInt16} (hx : body.Stands code out s pos (.jump kind o target :: rest))
    (hwhole : (Item.jump kind o target : Item UInt16).isWhole = true) :
    Segment (body.Boundary code out) mc.code.code pos [pos] (pos + 3) := by
  have hop := hl.getElem?_jump hx
  simp only [Item.isWhole, Bool.and_eq_true, Bool.or_eq_true, decide_eq_true_eq] at hwhole
  refine .branch hop hwhole.1 fun hjsr => ?_
  obtain hkind | ⟨-, hcall⟩ := hwhole.2
  · subst hkind
    obtain ⟨offset, dest, hstored, hfinds, hoffset⟩ :=
      hl.target hx (List.mem_singleton_self _) (by simp)
    obtain ⟨w, hw, rfl⟩ := Option.map_eq_some_iff.mp hstored
    refine ⟨dest, ?_, boundary_of_finds hfinds⟩
    rw [word2, hw]
    exact hoffset
  · exact absurd hcall hjsr

-- Items stand before the end of the code.
theorem Lowered.le_size (hl : Lowered env f code out c c₁ body mc)
    (hx : body.Stands code out s pos rest) : pos ≤ mc.code.code.size := by
  obtain ⟨pre, hitems, -, rfl⟩ := hx
  rw [hl.filled.size_eq, body.layout_eq, hitems, Layout.puts_append]
  exact Layout.pos_le_puts _ _

theorem Lowered.eq_size (hl : Lowered env f code out c c₁ body mc)
    (hx : body.Stands code out s pos []) : pos = mc.code.code.size := by
  obtain ⟨pre, hitems, -, rfl⟩ := hx
  rw [hl.filled.size_eq, body.layout_eq, hitems, List.append_nil]
  rfl

theorem word4_of_spells {bytes : Bytes} {n : Nat} (hn : n < 2 ^ 31)
    (h : bytes.Spells pos (Bytes.be4 n.toUInt32).toList) : (word4 bytes pos).toInt = n := by
  rw [word4, Bytes.be4?_of_spells h]
  exact Bytes.toInt_toUInt32 hn

-- A table switch has an offset for each of its targets, and one more that leads behind it.
theorem Lowered.switch_table (hl : Lowered env f code out c c₁ body mc) {targets : List UInt16}
    (hx : body.Stands code out s pos (.switch targets :: rest)) (hne : targets ≠ [])
    (hcount : targets.length < 2 ^ 16) :
    mc.code.code[pos]? = some l2i ∧ mc.code.code[pos + 1]? = some tableSwitch ∧
      switchCount? mc.code.code (pos + 1) = some targets.length ∧
      (pos + 1 : Nat) + (word4 mc.code.code (pos + 1 + 1 + switchPad (pos + 1))).toInt =
        (pos + ((Item.switch targets).raw pos).length : Nat) := by
  have hempty : ¬targets.isEmpty = true := by simpa using hne
  have hpositive : 0 < targets.length := List.length_pos_iff.mpr hne
  have hpad : switchPad (pos + 1) ≤ 3 := by
    unfold switchPad
    omega
  obtain ⟨hconvert, htable, hotherwise, hlow, hhigh⟩ := hl.spells_switch hx hne
  have hbase : pos + 1 + 1 + switchPad (pos + 1) = pos + 2 + switchPad (pos + 1) := by omega
  have hzero := word4_of_spells (n := 0) (by decide) hlow
  have hlast := word4_of_spells (by omega) hhigh
  refine ⟨hconvert, htable, ?_, ?_⟩
  · unfold switchCount?
    dsimp only
    rw [hbase, hzero, hlast, if_pos (by omega)]
    congr 1
    omega
  · rw [hbase, word4_of_spells (by omega) hotherwise, Item.raw, if_neg hempty,
      Item.length_switchRaw]
    omega

-- A table switch with the conversion before it. What is no target of it leads behind it.
theorem Lowered.segment_switch (hl : Lowered env f code out c c₁ body mc) {targets : List UInt16}
    (hx : body.Stands code out s pos (.switch targets :: rest)) (hne : targets ≠ [])
    (hcount : targets.length < 2 ^ 16) :
    Segment (body.Boundary code out) mc.code.code pos [pos, pos + 1]
      (pos + ((Item.switch targets).raw pos).length) := by
  have hempty : ¬targets.isEmpty = true := by simpa using hne
  obtain ⟨hconvert, htable, htargets, hotherwise⟩ := hl.switch_table hx hne hcount
  have hall : ∀ t ∈ ClassFile.Op.targets mc.code.code (pos + 1), ∃ pc : Nat, t = pc ∧
      body.Boundary code out pc := by
    intro t ht
    rw [targets_tableSwitch htable htargets, List.mem_cons, List.mem_map] at ht
    simp only [List.mem_range] at ht
    obtain rfl | ⟨k, hk, rfl⟩ := ht
    · obtain ⟨s', hbehind⟩ := hx.next
      exact ⟨_, hotherwise, s', rest, hbehind⟩
    · obtain ⟨w, dest, hw, hfinds, hoffset⟩ :=
        hl.switch_target hx (List.getElem?_eq_getElem hk)
      refine ⟨dest, ?_, boundary_of_finds hfinds⟩
      rw [word4, show pos + 1 + 1 + switchPad (pos + 1) + 12 + 4 * k =
        Item.switchOperand pos + 4 * k from rfl, hw]
      exact hoffset
  have hfirst : Segment (body.Boundary code out) mc.code.code pos [pos] (pos + 1) :=
    .fixed hconvert rfl (by decide)
  have hsecond := Segment.single htable (length?_tableSwitch htable htargets) hall
  rw [Item.raw, if_neg hempty, Item.length_switchRaw,
    show pos + (2 + switchPad (pos + 1) + 12 + 4 * targets.length) =
      pos + 1 + (1 + switchPad (pos + 1) + 12 + targets.length * 4) by omega]
  exact hfirst.append hsecond

-- An item that is no jump is whole instructions, none of which jumps.
theorem Lowered.segment_plain {P : Nat → Prop} (hl : Lowered env f code out c c₁ body mc)
    (hx : body.Stands code out s pos (x :: rest)) (hwhole : x.isWhole = true)
    (hhop : ∀ o distance, x ≠ .hop o distance) (hjump : ∀ kind o target, x ≠ .jump kind o target)
    (hswitch : ∀ targets, x ≠ .switch targets) :
    Segment P mc.code.code pos (x.starts pos) (pos + (x.raw pos).length) := by
  cases x with
  | mark | reserve | enter | leave => exact .done
  | op o =>
    obtain ⟨ho, -⟩ : fixedLength? o = some 1 ∧ Jvm.namesLocal o = false := by
      simpa [Item.isWhole, Item.isLone] using hwhole
    exact .fixed (Bytes.spells_cons.mp (hl.spells hx rfl)).1 ho (by simp [Item.raw])
  | byte o arg =>
    obtain ⟨ho, -⟩ : fixedLength? o = some 2 ∧ Jvm.namesLocal o = false := by
      simpa [Item.isWhole] using hwhole
    exact .fixed (Bytes.spells_cons.mp (hl.spells hx rfl)).1 ho (by simp [Item.raw])
  | const o r =>
    obtain ⟨⟨ho, hbranch⟩, -⟩ :
        (fixedLength? o = some 3 ∧ isBranch o = false) ∧ Jvm.namesLocal o = false := by
      simpa [Item.isWhole] using hwhole
    have hop := (Bytes.spells_cons.mp (hl.spells hx rfl)).1
    refine .plain hop (length?_of_fixed hop ho) hbranch ?_
    rintro rfl
    cases ho
  | interface r slots =>
    have hop : mc.code.code[pos]? = some invokeInterface :=
      hl.spells hx rfl 0 (by simp [Item.raw])
    exact .fixed hop rfl (by simp [Item.raw])
  | load t slot => exact segment_load (hl.spells hx rfl)
  | store t slot => exact segment_store (hl.spells hx rfl)
  | onSlot o slot =>
    have ho : fixedLength? o = some 2 := by simpa [Item.isWhole] using hwhole
    exact segment_onSlot ho (hl.spells hx rfl)
  | hop o distance => exact absurd rfl (hhop o distance)
  | jump kind o target => exact absurd rfl (hjump kind o target)
  | switch targets => exact absurd rfl (hswitch targets)

-- An item is whole instructions, and its jumps come to where items begin.
theorem Lowered.segment_item (hl : Lowered env f code out c c₁ body mc)
    (hx : body.Stands code out s pos (x :: rest)) (hwhole : x.isWhole = true)
    (hlands : Item.hopLands rest x = true)
    (hcount : ∀ targets, x = .switch targets → targets.length < 2 ^ 16) :
    Segment (body.Boundary code out) mc.code.code pos (x.starts pos)
      (pos + (x.raw pos).length) := by
  cases x with
  | hop o distance => exact hl.segment_hop hx hwhole hlands
  | jump kind o target => exact hl.segment_jump hx hwhole
  | switch targets =>
    by_cases hne : targets = []
    · subst hne
      have hop : mc.code.code[pos]? = some pop2 := (Bytes.spells_cons.mp (hl.spells hx rfl)).1
      exact .fixed hop rfl (by simp [Item.raw])
    · have hstarts : (Item.switch targets).starts pos = [pos, pos + 1] :=
        if_neg (by simpa using hne)
      rw [hstarts]
      exact hl.segment_switch hx hne (hcount targets rfl)
  | _ => exact hl.segment_plain hx hwhole (by simp) (by simp) (by simp)

-- The offsets of a switch are part of the code, so in code that fits there are not too many.
theorem Lowered.targets_lt (hl : Lowered env f code out c c₁ body mc)
    (hx : body.Stands code out s pos (x :: rest))
    (hsize : mc.code.code.size ≤ CodeBuffer.maxSize) :
    ∀ targets, x = .switch targets → targets.length < 2 ^ 16 := by
  rintro targets rfl
  obtain ⟨s', hnext⟩ := hx.next
  have hle := hl.le_size hnext
  unfold CodeBuffer.maxSize at hsize
  rw [Item.raw] at hle
  split at hle
  · rename_i hempty
    simp [List.isEmpty_iff.mp hempty]
  · rw [Item.length_switchRaw] at hle
    omega

-- So are items one behind the other, whose switches are not too long.
theorem Lowered.exists_segment_of_lt (hl : Lowered env f code out c c₁ body mc)
    {own : List (Item UInt16)} (hx : body.Stands code out s pos (own ++ rest))
    (htidy : Item.isTidy (own ++ rest) = true)
    (hcount : ∀ targets, .switch targets ∈ own → targets.length < 2 ^ 16) :
    ∃ s' stop, body.Stands code out s' stop rest ∧
      Segment (body.Boundary code out) mc.code.code pos (Item.allStarts pos own) stop := by
  induction own generalizing s pos with
  | nil => exact ⟨s, pos, hx, .done⟩
  | cons x own ih =>
    simp only [List.cons_append, Item.isTidy, Bool.and_eq_true] at htidy
    obtain ⟨s', hnext⟩ := hx.next
    obtain ⟨s'', stop, hrest, hown⟩ :=
      ih hnext htidy.2.2 fun targets hmem => hcount targets (List.mem_cons_of_mem _ hmem)
    refine ⟨s'', stop, hrest, (hl.segment_item hx htidy.1 htidy.2.1 ?_).append hown⟩
    rintro targets rfl
    exact hcount targets List.mem_cons_self

theorem Lowered.exists_segment (hl : Lowered env f code out c c₁ body mc)
    (hsize : mc.code.code.size ≤ CodeBuffer.maxSize) {own : List (Item UInt16)}
    (hx : body.Stands code out s pos (own ++ rest)) (htidy : Item.isTidy (own ++ rest) = true) :
    ∃ s' stop, body.Stands code out s' stop rest ∧
      Segment (body.Boundary code out) mc.code.code pos (Item.allStarts pos own) stop := by
  refine hl.exists_segment_of_lt hx htidy fun targets hmem => ?_
  obtain ⟨pre, hitems, -⟩ := hx
  obtain ⟨xs, ys, rfl⟩ := List.append_of_mem hmem
  have hswitch : body.items.toList = (pre ++ xs) ++ .switch targets :: (ys ++ rest) := by
    simp [hitems]
  exact hl.targets_lt ⟨_, hswitch, rfl, rfl⟩ hsize targets rfl

-- All items from some position on.
theorem Lowered.segment (hl : Lowered env f code out c c₁ body mc)
    (hsize : mc.code.code.size ≤ CodeBuffer.maxSize) (hx : body.Stands code out s pos rest)
    (htidy : Item.isTidy rest = true) :
    Segment (body.Boundary code out) mc.code.code pos (Item.allStarts pos rest)
      mc.code.code.size := by
  rw [← List.append_nil rest] at hx htidy
  obtain ⟨s', stop, hend, hown⟩ := hl.exists_segment hsize hx htidy
  rwa [hl.eq_size hend] at hown

-- Where an item begins an instruction starts, or the code ends.
theorem Lowered.boundary_cases (hl : Lowered env f code out c c₁ body mc)
    (hsize : mc.code.code.size ≤ CodeBuffer.maxSize) (htidy : Tidy body.items.toList) {pc : Nat}
    (h : body.Boundary code out pc) :
    pc ∈ Item.allStarts out.pos body.items.toList ∨ pc = mc.code.code.size := by
  obtain ⟨s, rest, hx⟩ := h
  obtain ⟨pre, hitems, -, hpos⟩ := id hx
  have hstart : out.pos = (Layout.start out code.size).out.pos := rfl
  have hrest : Item.isTidy rest = true := by
    unfold Tidy at htidy
    rw [hitems] at htidy
    exact Item.isTidy_of_append htidy
  rw [hitems, hstart, Item.allStarts_append, hpos]
  obtain h | h := (hl.segment hsize hx hrest).walk.mem_or_eq
  · exact .inl (List.mem_append_right _ h)
  · exact .inr h

-- What was there before the items is there still.
theorem Lowered.getElem?_before (hl : Lowered env f code out c c₁ body mc) {k : Nat}
    (hk : k < out.pos) : mc.code.code[k]? = out.code[k]? := by
  obtain ⟨ns, hns, hwithin, -, -⟩ :=
    (Layout.start out code.size).jumps_puts (regular_of_emitBody hl.emits)
  rw [hl.filled.unchanged k ?_, body.layout_eq, Layout.getElem?_puts hk]
  · rfl
  · intro n hn
    rw [hl.filled.jumps, ← Array.mem_toList_iff, body.layout_eq, hns] at hn
    have hstart : (Layout.start out code.size).out.pos = out.pos := rfl
    have := hwithin n (by simpa [Layout.start] using hn)
    exact .inl (by omega)

-- The instructions before the items are what they were.
theorem Lowered.segment_before (hl : Lowered env f code out c c₁ body mc) {starts : List Nat}
    (hout : out.Sound starts) :
    Segment (fun pc => pc ∈ starts ∨ pc = out.pos) mc.code.code 0 starts out.pos := by
  have hbefore : Segment (fun pc => pc ∈ starts ∨ pc = out.pos) out.code 0 starts out.pos :=
    ⟨hout.walk, hout.targets⟩
  refine hbefore.congr (hl.le_size (boundary_out body code out).choose_spec.choose_spec) ?_
  intro k _ hk
  exact hl.getElem?_before hk

-- In the scope around it a copy is the code of the instruction that asks for it.
theorem exists_site (h : emitBody f code {} env c = .ok ((), body) c₁) {scope : Nat}
    {copy : InlineCopy} (hcopy : copy ∈ (body.layout code out).reloc.children scope) :
    ∃ i, Instr.decodeAt code copy.site = .ok i ∧ copy.finallyStart = i.arg.toNat ∧
      (body.layout code out).reloc.getLocal scope copy.site = some copy.javaStart ∧
      (body.layout code out).reloc.getLocal scope (copy.site + i.size) = some copy.javaEnd := by
  obtain ⟨s, hparent, hs⟩ := Protection.mem_children.mp hcopy
  obtain ⟨i, inner, pre, own, post, hscope, -⟩ := layout_child out h hparent hs
  exact ⟨i, hscope.decodes, hscope.finallyStart, hscope.enters, hscope.leaves⟩

-- The edges of a copy are where items begin.
theorem boundary_of_child (h : emitBody f code {} env c = .ok ((), body) c₁) {scope : Nat}
    {copy : InlineCopy} (hcopy : copy ∈ (body.layout code out).reloc.children scope) :
    body.Boundary code out copy.javaStart ∧ body.Boundary code out copy.javaEnd := by
  obtain ⟨i, -, -, henters, hleaves⟩ := exists_site h hcopy
  exact ⟨boundary_of_getLocal henters, boundary_of_getLocal hleaves⟩

-- So are the ends of what a range between such positions is cut to in a scope.
theorem boundary_of_piece (h : emitBody f code {} env c = .ok ((), body) c₁) {scope start stop : Nat}
    {e : Pod.ErrEntry} (hstart : body.Boundary code out start) (hstop : body.Boundary code out stop)
    {p : Nat × Nat} (hp : p ∈ Protection.pieces stop start
      (Protection.holes (body.layout code out).reloc scope e)) :
    body.Boundary code out p.1 ∧ body.Boundary code out p.2 := by
  obtain ⟨hfirst, hlast⟩ := Protection.ends_of_mem_pieces hp
  constructor
  · obtain hfirst | ⟨hole, hhole, hfirst⟩ := hfirst
    · rwa [hfirst]
    · obtain ⟨copy, hcopy, -, -, rfl⟩ := Protection.mem_holes.mp hhole
      rw [hfirst]
      exact (boundary_of_child h hcopy).2
  · obtain hlast | ⟨hole, hhole, hlast⟩ := hlast
    · rwa [hlast]
    · obtain ⟨copy, hcopy, -, -, rfl⟩ := Protection.mem_holes.mp hhole
      rw [hlast]
      exact (boundary_of_child h hcopy).1

-- What a handler of the method becomes has its ends and its handler where items begin.
theorem boundary_of_entry (h : emitBody f code {} env c = .ok ((), body) c₁) {method : String}
    {scope : Nat} {e : Pod.ErrEntry} {c₂ c₃ : OpenClass} {found : List ExceptionEntry}
    (hfound : Protection.ofEntry (body.layout code out).reloc method scope e env c₂ =
      .ok found c₃) {entry : ExceptionEntry} (hentry : entry ∈ found) :
    ∀ pc ∈ [entry.startPc, entry.endPc, entry.handlerPc], ∃ java : Nat,
      body.Boundary code out java ∧ pc = java.toUInt16 := by
  obtain ⟨start, stop, handler, t, types, hstart, hstop, hhandler, -, -, rfl⟩ :=
    Protection.ofEntry_eq_ok hfound
  obtain ⟨p, hp, hentry⟩ := List.mem_flatMap.mp hentry
  obtain ⟨type, -, rfl⟩ := List.mem_map.mp hentry
  have hget : ∀ {q java : Nat}, (body.layout code out).reloc.get scope q = some java →
      body.Boundary code out java := fun hq => boundary_of_finds (Relocation.finds_of_getWithin hq)
  obtain ⟨hp₁, hp₂⟩ := boundary_of_piece h (hget hstart) (hget hstop) hp
  intro pc hpc
  simp only [List.mem_cons, List.not_mem_nil, or_false] at hpc
  obtain rfl | rfl | rfl := hpc
  · exact ⟨p.1, hp₁, rfl⟩
  · exact ⟨p.2, hp₂, rfl⟩
  · exact ⟨handler, hget hhandler, rfl⟩

-- The tables of a method come from the scopes of its body.
theorem lowered_tables {attrs : Pod.Attributes} {c' : OpenClass}
    (h : lowerCode f code attrs out env c = .ok mc c') :
    ∃ body c₁ errs exceptions lines, Lowered env f code out c c₁ body mc ∧
      attrs.errTable = .ok errs ∧
      Protection.table (body.layout code out).reloc f.name errs.toList env c₁ =
        .ok exceptions c' ∧
      mc.code.exceptions.toList = out.exceptions.toList ++ exceptions ∧
      mc.code.lines.toList = out.lines.toList ++ lineEntries (body.layout code out).reloc lines := by
  obtain ⟨p, c₁, errs, exceptions, lines, hp, herrs, htable, hexceptions, hlines⟩ :=
    lowerCode_tables h
  obtain ⟨p', c₁', hp', hcode, hreloc, hjumps⟩ := lowerCode_eq_ok h
  rw [hp] at hp'
  cases hp'
  obtain ⟨body, hbody, hfilled⟩ := exact_of_placed hp hcode hreloc hjumps
  have hplaced : p.reloc = (body.layout code out).reloc := by
    obtain ⟨body', hbody', -, rfl⟩ := placeCode_eq_ok hp
    rw [hbody] at hbody'
    cases hbody'
    rfl
  rw [hplaced] at htable hlines
  exact ⟨body, c₁, errs, exceptions, lines, ⟨hbody, hfilled⟩, herrs, htable, hexceptions, hlines⟩

-- Positions of a body that fits are numbers of two bytes.
theorem Lowered.toNat_toUInt16 (hl : Lowered env f code out c c₁ body mc)
    (hsize : mc.code.code.size ≤ CodeBuffer.maxSize) {pc : Nat}
    (h : body.Boundary code out pc) : pc.toUInt16.toNat = pc := by
  obtain ⟨s, rest, hx⟩ := h
  have hle := hl.le_size hx
  unfold CodeBuffer.maxSize at hsize
  rw [Nat.toUInt16_eq, UInt16.toNat_ofNat']
  exact Nat.mod_eq_of_lt (by omega)

-- Lowering a method behind sound code gives sound code: from its first byte to its last it is
-- instructions, which start where those before it and its items do, and all jumps, handlers and
-- lines name positions at which one starts, or the end.
theorem lowerCode_sound {attrs : Pod.Attributes} {c' : OpenClass} {starts : List Nat}
    (hc : c.WellFormed env) (hout : out.Sound starts)
    (h : lowerCode f code attrs out env c = .ok mc c')
    (hsize : mc.code.code.size ≤ CodeBuffer.maxSize) :
    ∃ body c₁, emitBody f code {} env c = .ok ((), body) c₁ ∧
      mc.code.Sound (starts ++ Item.allStarts out.pos body.items.toList) := by
  obtain ⟨body, c₁, errs, exceptions, lines, hl, -, htable, hexceptions, hlines⟩ :=
    lowered_tables h
  have htidy := tidy_of_emitBody hl.emits hc
  have hbefore := hl.segment_before hout
  have hitems := hl.segment hsize ⟨[], rfl, rfl, rfl⟩ htidy
  -- Whatever was the end of the code before is where the first item begins.
  have hcases : ∀ {pc : Nat}, body.Boundary code out pc →
      pc ∈ starts ++ Item.allStarts out.pos body.items.toList ∨ pc = mc.code.code.size := by
    intro pc hpc
    obtain hpc | hpc := hl.boundary_cases hsize htidy hpc
    · exact .inl (List.mem_append_right _ hpc)
    · exact .inr hpc
  have hcases' : ∀ {pc : Nat}, pc ∈ starts ∨ pc = out.pos →
      pc ∈ starts ++ Item.allStarts out.pos body.items.toList ∨ pc = mc.code.code.size := by
    rintro pc (hpc | rfl)
    · exact .inl (List.mem_append_left _ hpc)
    · exact hcases (boundary_out body code out)
  refine ⟨body, c₁, hl.emits, ?_⟩
  constructor
  case walk => exact hbefore.walk.append hitems.walk
  case targets =>
    intro q hq t ht
    obtain hq | hq := List.mem_append.mp hq
    · obtain ⟨pc, hpc, hstart⟩ := hbefore.targets q hq t ht
      exact ⟨pc, hpc, hcases' hstart⟩
    · obtain ⟨pc, hpc, hboundary⟩ := hitems.targets q hq t ht
      exact ⟨pc, hpc, hcases hboundary⟩
  case exceptions =>
    intro e he pc hpc
    rw [← Array.mem_toList_iff, hexceptions, List.mem_append] at he
    obtain he | he := he
    · exact hcases' (hout.exceptions e (Array.mem_toList_iff.mp he) pc hpc)
    · obtain ⟨rows, rfl, hderives, -⟩ := Protection.table_rows htable
      obtain ⟨row, hrow, rfl⟩ := List.mem_map.mp he
      obtain ⟨err, c₄, c₅, found, -, -, hfound, hentry⟩ := hderives row hrow
      obtain ⟨java, hboundary, rfl⟩ := boundary_of_entry hl.emits hfound hentry pc hpc
      rw [hl.toNat_toUInt16 hsize hboundary]
      exact hcases hboundary
  case lines =>
    intro l hmem
    rw [← Array.mem_toList_iff, hlines, List.mem_append] at hmem
    obtain hmem | hmem := hmem
    · exact hcases' (hout.lines l (Array.mem_toList_iff.mp hmem))
    · obtain ⟨n, -, hn⟩ := List.mem_filterMap.mp hmem
      obtain ⟨java, hjava, rfl⟩ := Option.map_eq_some_iff.mp hn
      have hboundary := boundary_of_getLocal hjava
      dsimp only
      rw [hl.toNat_toUInt16 hsize hboundary]
      exact hcases hboundary

end Stream

-- Finally blocks are subroutines.
def subroutineEnv : ClassEnv :=
  { errEnv with config := { finallyStrategy := .subroutine } }

theorem wellFormed_bare (env : ClassEnv) : bareClass.WellFormed env where
  pool := ClassFile.Pool.built_empty
  calls index kind call hcall := by simp [bareClass] at hcall

-- A switch before a finally block that is a subroutine, behind an instruction that is there already:
--    0 Switch 7 8      8 JumpFinally 14     14 FinallyStart     16 ReturnVoid
--    7 Nop            11 Leave 16           15 FinallyEnd
theorem lowerCode_sound_switch : ∃ mc c' body c₁,
    lowerCode bareFrame #[50, 0, 2, 0, 7, 0, 8, 0, 53, 0, 14, 52, 0, 16, 57, 58, 42]
      { items := #[("ErrTable", #[0, 1, 0, 7, 0, 14, 0, 14, 0, 0]),
        ("LineNumbers", #[0, 2, 0, 0, 0, 1, 0, 16, 0, 2])] }
      { code := #[0] } subroutineEnv bareClass = .ok mc c' ∧
    mc.code.code.size ≤ CodeBuffer.maxSize ∧
    emitBody bareFrame #[50, 0, 2, 0, 7, 0, 8, 0, 53, 0, 14, 52, 0, 16, 57, 58, 42] {}
      subroutineEnv bareClass = .ok ((), body) c₁ ∧
    mc.code.Sound ([0] ++ Item.allStarts 1 body.items.toList) := by
  have hout : ({ code := #[0] } : CodeBuffer).Sound [0] := by
    refine ⟨.single (by decide) rfl, ?_, by simp, by simp⟩
    intro p hp t ht
    obtain rfl := List.mem_singleton.mp hp
    cases ht
  obtain ⟨mc, c', h⟩ := exists_of_result? (by decide +kernel :
    (result? (lowerCode bareFrame #[50, 0, 2, 0, 7, 0, 8, 0, 53, 0, 14, 52, 0, 16, 57, 58, 42]
      { items := #[("ErrTable", #[0, 1, 0, 7, 0, 14, 0, 14, 0, 0]),
        ("LineNumbers", #[0, 2, 0, 0, 0, 1, 0, 16, 0, 2])] }
      { code := #[0] } subroutineEnv bareClass)).isSome)
  have hsize : mc.code.code.size ≤ CodeBuffer.maxSize := by
    have hall : (result? (lowerCode bareFrame
        #[50, 0, 2, 0, 7, 0, 8, 0, 53, 0, 14, 52, 0, 16, 57, 58, 42]
        { items := #[("ErrTable", #[0, 1, 0, 7, 0, 14, 0, 14, 0, 0]),
          ("LineNumbers", #[0, 2, 0, 0, 0, 1, 0, 16, 0, 2])] }
        { code := #[0] } subroutineEnv bareClass)).all
          (fun mc => mc.code.code.size ≤ CodeBuffer.maxSize) = true := by
      decide +kernel
    rw [h] at hall
    simpa [result?] using hall
  obtain ⟨body, c₁, hbody, hsound⟩ := lowerCode_sound (wellFormed_bare _) hout h hsize
  exact ⟨mc, c', body, c₁, h, hsize, hbody, hsound⟩

end PodCompiler.Lowering
