import PodCompiler.Proofs.ClassFile.CodeWalk

namespace PodCompiler.ClassFile.Op

-- What an instruction is wherever it stands: its bytes without the padding of a switch and the ways
-- of jumps.
def content? (code : Bytes) (pos : Nat) : Option (List UInt8) :=
  let op := code.getD pos nop
  if isBranch op then some [op]
  else if op = tableSwitch then
    let bounds := pos + 1 + switchPad pos + 4
    some (op :: (code.extract bounds (bounds + 8)).toList)
  else (length? code pos).map fun n => (code.extract pos (pos + n)).toList

-- The targets of two instructions, one by one.
def TargetsAgree (R : Nat → Nat → Prop) (code : Bytes) (pos pos' : Nat) : Prop :=
  List.Forall₂ (fun t t' : Int => ∃ d d' : Nat, t = d ∧ t' = d' ∧ R d d') (targets code pos)
    (targets code pos')

-- Code from `pos` to `stop` and code from `pos'` to `stop'` are the same instructions, and what one
-- jumps to belongs to what the other does.
structure SameCode (R : Nat → Nat → Prop) (code : Bytes) (pos pos' : Nat) (starts starts' : List Nat)
    (stop stop' : Nat) : Prop where
  walk : Walk code pos starts stop
  walk' : Walk code pos' starts' stop'
  same : List.Forall₂ (fun p p' => content? code p = content? code p' ∧ TargetsAgree R code p p')
    starts starts'

theorem extract_of_spells {code : Bytes} {pos n : Nat} {bytes : List UInt8}
    (h : code.Spells pos bytes) (hn : n = bytes.length) :
    (code.extract pos (pos + n)).toList = bytes := by
  subst hn
  apply List.ext_getElem?
  intro k
  rw [Array.getElem?_toList, Array.getElem?_extract]
  by_cases hk : k < bytes.length
  · have hsize : pos + k < code.size := by
      have hbyte := h k hk
      rw [List.getElem?_eq_getElem hk] at hbyte
      exact (Array.getElem?_eq_some_iff.mp hbyte).1
    rw [if_pos (by omega), h k hk]
  · rw [if_neg (by omega), List.getElem?_eq_none (by omega)]

namespace SameCode

variable {R : Nat → Nat → Prop} {code : Bytes} {pos pos' mid mid' stop stop' n : Nat}
  {starts starts' more more' : List Nat} {op : UInt8}

theorem done : SameCode R code pos pos' [] [] pos pos' :=
  ⟨.done, .done, .nil⟩

theorem append (h : SameCode R code pos pos' starts starts' mid mid')
    (h' : SameCode R code mid mid' more more' stop stop') :
    SameCode R code pos pos' (starts ++ more) (starts' ++ more') stop stop' :=
  ⟨h.walk.append h'.walk, h.walk'.append h'.walk', List.rel_append h.same h'.same⟩

-- One instruction.
theorem single {m : Nat} (hwalk : Walk code pos [pos] (pos + n))
    (hwalk' : Walk code pos' [pos'] (pos' + m)) (hcontent : content? code pos = content? code pos')
    (htargets : TargetsAgree R code pos pos') :
    SameCode R code pos pos' [pos] [pos'] (pos + n) (pos' + m) :=
  ⟨hwalk, hwalk', .cons ⟨hcontent, htargets⟩ .nil⟩

end SameCode

-- The only instruction between two positions.
theorem Walk.length? {code : Bytes} {pos n : Nat} (h : Walk code pos [pos] (pos + n)) :
    pos < code.size ∧ length? code pos = some n := by
  generalize hstop : pos + n = stop at h
  cases h with
  | @step _ m _ _ hlt hm hrest =>
    cases hrest
    obtain rfl : n = m := by omega
    exact ⟨hlt, hm⟩

-- An instruction without jumps is its bytes.
theorem content?_of_segment {code : Bytes} {pos : Nat} {raw : List UInt8}
    (h : Segment (fun _ => False) code pos [pos] (pos + raw.length)) (hraw : code.Spells pos raw) :
    targets code pos = [] ∧ ∃ o, raw.head? = some o ∧
      content? code pos = some (if isBranch o then [o] else raw) := by
  have htargets : targets code pos = [] := by
    refine List.eq_nil_iff_forall_not_mem.mpr fun t ht => ?_
    obtain ⟨pc, -, hpc⟩ := h.targets pos List.mem_cons_self t ht
    exact hpc
  obtain ⟨hlt, hn⟩ := h.walk.length?
  have hpos := length?_pos hlt hn
  have hfirst := hraw 0 hpos
  rw [Nat.add_zero] at hfirst
  have hop : code[pos]? = some code[pos] := Array.getElem?_eq_getElem hlt
  have hne : code[pos] ≠ tableSwitch := by
    intro hswitch
    unfold targets at htargets
    rw [getD_of_getElem? hop, hswitch] at htargets
    cases htargets
  refine ⟨htargets, code[pos], ?_, ?_⟩
  · rw [List.head?_eq_getElem?, ← hfirst, hop]
  · unfold content?
    rw [getD_of_getElem? hop]
    dsimp only
    by_cases hbranch : isBranch code[pos] = true
    · rw [if_pos hbranch, if_pos hbranch]
    · rw [if_neg hbranch, if_neg hbranch, if_neg hne, hn, Option.map_some,
        extract_of_spells hraw rfl]

namespace SameCode

variable {R : Nat → Nat → Prop} {code : Bytes} {pos pos' : Nat} {op : UInt8}

-- One instruction without jumps.
theorem plain {raw : List UInt8}
    (h : Segment (fun _ => False) code pos [pos] (pos + raw.length))
    (h' : Segment (fun _ => False) code pos' [pos'] (pos' + raw.length))
    (hraw : code.Spells pos raw) (hraw' : code.Spells pos' raw) :
    SameCode R code pos pos' [pos] [pos'] (pos + raw.length) (pos' + raw.length) := by
  obtain ⟨htargets, o, ho, hcontent⟩ := content?_of_segment h hraw
  obtain ⟨htargets', o', ho', hcontent'⟩ := content?_of_segment h' hraw'
  rw [ho, Option.some.injEq] at ho'
  subst ho'
  refine single h.walk h'.walk (hcontent.trans hcontent'.symm) ?_
  unfold TargetsAgree
  rw [htargets, htargets']
  exact .nil

-- One jump.
theorem branch (hop : code[pos]? = some op) (hop' : code[pos']? = some op)
    (hbranch : isBranch op = true)
    (htarget : op ≠ jsr → ∃ d d' : Nat, pos + (word2 code (pos + 1)).toInt16.toInt = d ∧
      pos' + (word2 code (pos' + 1)).toInt16.toInt = d' ∧ R d d') :
    SameCode R code pos pos' [pos] [pos'] (pos + 3) (pos' + 3) := by
  have hwalk : ∀ {p : Nat}, code[p]? = some op → Walk code p [p] (p + 3) := fun hp =>
    .single (Array.getElem?_eq_some_iff.mp hp).1
      (length?_of_fixed hp (fixedLength?_of_isBranch hbranch))
  have hcontent : ∀ {p : Nat}, code[p]? = some op → content? code p = some [op] := by
    intro p hp
    unfold content?
    rw [getD_of_getElem? hp]
    exact if_pos hbranch
  refine single (hwalk hop) (hwalk hop') ((hcontent hop).trans (hcontent hop').symm) ?_
  have hne : op ≠ tableSwitch := by
    rintro rfl
    cases hbranch
  unfold TargetsAgree targets
  rw [getD_of_getElem? hop, getD_of_getElem? hop']
  by_cases hjsr : op = jsr
  · subst hjsr
    simp [hne]
  · simpa [hbranch, hjsr] using htarget hjsr

-- One table switch.
theorem tableSwitch {count : Nat} {bounds : List UInt8} (hop : code[pos]? = some Op.tableSwitch)
    (hop' : code[pos']? = some Op.tableSwitch) (hcount : switchCount? code pos = some count)
    (hcount' : switchCount? code pos' = some count) (hbounds : bounds.length = 8)
    (hraw : code.Spells (pos + 1 + switchPad pos + 4) bounds)
    (hraw' : code.Spells (pos' + 1 + switchPad pos' + 4) bounds)
    (hother : ∃ d d' : Nat, pos + (word4 code (pos + 1 + switchPad pos)).toInt = d ∧
      pos' + (word4 code (pos' + 1 + switchPad pos')).toInt = d' ∧ R d d')
    (htargets : ∀ k < count, ∃ d d' : Nat,
      pos + (word4 code (pos + 1 + switchPad pos + 12 + 4 * k)).toInt = d ∧
      pos' + (word4 code (pos' + 1 + switchPad pos' + 12 + 4 * k)).toInt = d' ∧ R d d') :
    SameCode R code pos pos' [pos] [pos'] (pos + (1 + switchPad pos + 12 + count * 4))
      (pos' + (1 + switchPad pos' + 12 + count * 4)) := by
  have hcontent : ∀ {p : Nat}, code[p]? = some Op.tableSwitch →
      code.Spells (p + 1 + switchPad p + 4) bounds →
      content? code p = some (Op.tableSwitch :: bounds) := by
    intro p hp hb
    unfold content?
    rw [getD_of_getElem? hp]
    dsimp only
    rw [if_neg (by decide), if_pos rfl, extract_of_spells hb hbounds.symm]
  refine single (.single (Array.getElem?_eq_some_iff.mp hop).1 (length?_tableSwitch hop hcount))
    (.single (Array.getElem?_eq_some_iff.mp hop').1 (length?_tableSwitch hop' hcount'))
    ((hcontent hop hraw).trans (hcontent hop' hraw').symm) ?_
  unfold TargetsAgree
  rw [targets_tableSwitch hop hcount, targets_tableSwitch hop' hcount']
  refine .cons hother ?_
  rw [List.forall₂_map_left_iff, List.forall₂_map_right_iff, List.forall₂_same]
  intro k hk
  exact htargets k (List.mem_range.mp hk)

end SameCode

end PodCompiler.ClassFile.Op
