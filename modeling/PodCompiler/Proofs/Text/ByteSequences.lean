import Mathlib
import PodCompiler.Proofs.Text.ModifiedUtf8

namespace PodCompiler.Text.ModifiedUtf8

-- The bytes of one unit: a byte alone, or a first one and those that continue it.
inductive Sequence where
  | single (a : UInt8)
  | pair (a b : UInt8)
  | triple (a b c : UInt8)

namespace Sequence

def bytes : Sequence → List UInt8
  | single a => [a]
  | pair a b => [a, b]
  | triple a b c => [a, b, c]

-- The bytes behind the first.
def trail : Sequence → List UInt8
  | single _ => []
  | pair _ b => [b]
  | triple _ b c => [b, c]

-- The first byte says how many there are: 0xxxxxxx, 110xxxxx or 1110xxxx.
def Led : Sequence → Prop
  | single a => a &&& 0x80 = 0
  | pair a _ => a &&& 0xE0 = 0xC0
  | triple a _ _ => a &&& 0xF0 = 0xE0

-- The bytes behind it are 10xxxxxx.
def Continued (q : Sequence) : Prop :=
  ∀ b ∈ q.trail, b &&& 0xC0 = 0x80

-- The unit whose bits are those left open in the bytes, in their order.
def unit : Sequence → UInt16
  | single a => a.toNat.toUInt16
  | pair a b => (a.toNat % 0x20 * 0x40 + b.toNat % 0x40).toUInt16
  | triple a b c =>
    (a.toNat % 0x10 * 0x1000 + b.toNat % 0x40 * 0x40 + c.toNat % 0x40).toUInt16

instance : DecidablePred Led
  | single a => inferInstanceAs (Decidable (a &&& 0x80 = 0))
  | pair a _ => inferInstanceAs (Decidable (a &&& 0xE0 = 0xC0))
  | triple a _ _ => inferInstanceAs (Decidable (a &&& 0xF0 = 0xE0))

instance : DecidablePred Continued := fun q =>
  inferInstanceAs (Decidable (∀ b ∈ q.trail, b &&& 0xC0 = 0x80))

end Sequence

open Sequence

-- The bytes are sequences in a row, each of the length that its first byte says.
structure Cut (bs : List UInt8) (qs : List Sequence) : Prop where
  led : ∀ q ∈ qs, q.Led
  bytes : bs = qs.flatMap Sequence.bytes

-- A surrogate is a high one with a low one behind it, or such a low one.
inductive Paired : List UInt16 → Prop where
  | nil : Paired []
  | alone {u : UInt16} {rest : List UInt16} (hhigh : isHighSurrogate u = false)
      (hlow : isLowSurrogate u = false) (hrest : Paired rest) : Paired (u :: rest)
  | pair {u v : UInt16} {rest : List UInt16} (hhigh : isHighSurrogate u = true)
      (hlow : isLowSurrogate v = true) (hrest : Paired rest) : Paired (u :: v :: rest)

-- Bytes in the form of a text.
def WellFormed (b : Bytes) : Prop :=
  ∃ qs, Cut b.toList qs ∧ (∀ q ∈ qs, q.Continued) ∧ Paired (qs.map unit)

-- The low bits of a byte are a remainder.
theorem toNat_low_bits (x : UInt8) : (x &&& 0x3F).toNat = x.toNat % 0x40 ∧
    (x &&& 0x1F).toNat = x.toNat % 0x20 ∧ (x &&& 0x0F).toNat = x.toNat % 0x10 := by
  simp only [UInt8.toNat_and, UInt8.reduceToNat]
  exact ⟨Nat.and_two_pow_sub_one_eq_mod x.toNat 6, Nat.and_two_pow_sub_one_eq_mod x.toNat 5,
    Nat.and_two_pow_sub_one_eq_mod x.toNat 4⟩

-- The units that are read are those that the sequences denote.
theorem unit_single (a : UInt8) : a.toUInt16 = (single a).unit := by
  apply UInt16.toNat_inj.mp
  have ha := a.toNat_lt
  rw [unit, UInt16.toNat_ofNat', UInt8.toNat_toUInt16, Nat.mod_eq_of_lt (by omega)]

theorem unit_pair (a b : UInt8) :
    ((a &&& 0x1F).toUInt16 <<< 6) ||| (b &&& 0x3F).toUInt16 = (pair a b).unit := by
  apply UInt16.toNat_inj.mp
  obtain ⟨-, ha, -⟩ := toNat_low_bits a
  obtain ⟨hb, -, -⟩ := toNat_low_bits b
  have hhigh : (a.toNat % 0x20) <<< 6 % 2 ^ 16 = (a.toNat % 0x20) <<< 6 := by
    rw [Nat.shiftLeft_eq]
    omega
  simp only [unit, UInt16.toNat_or, UInt16.toNat_shiftLeft, UInt8.toNat_toUInt16, ha, hb,
    UInt16.reduceToNat, Nat.reduceMod, UInt16.toNat_ofNat']
  rw [hhigh, Bytes.shiftLeft_or_eq_add 6 _ (by omega)]
  omega

theorem unit_triple (a b c : UInt8) :
    ((a &&& 0x0F).toUInt16 <<< 12) ||| ((b &&& 0x3F).toUInt16 <<< 6) ||| (c &&& 0x3F).toUInt16 =
      (triple a b c).unit := by
  apply UInt16.toNat_inj.mp
  obtain ⟨-, -, ha⟩ := toNat_low_bits a
  obtain ⟨hb, -, -⟩ := toNat_low_bits b
  obtain ⟨hc, -, -⟩ := toNat_low_bits c
  have hhigh : (a.toNat % 0x10) <<< 12 % 2 ^ 16 = (a.toNat % 0x10) <<< 12 := by
    rw [Nat.shiftLeft_eq]
    omega
  have hmiddle : (b.toNat % 0x40) <<< 6 % 2 ^ 16 = (b.toNat % 0x40) <<< 6 := by
    rw [Nat.shiftLeft_eq]
    omega
  have hupper : (a.toNat % 0x10) <<< 12 ||| (b.toNat % 0x40) <<< 6 =
      (a.toNat % 0x10 * 0x40 + b.toNat % 0x40) <<< 6 := by
    rw [Bytes.shiftLeft_or_eq_add 12 _ (by rw [Nat.shiftLeft_eq]; omega)]
    simp only [Nat.shiftLeft_eq]
    omega
  simp only [unit, UInt16.toNat_or, UInt16.toNat_shiftLeft, UInt8.toNat_toUInt16, ha, hb, hc,
    UInt16.reduceToNat, Nat.reduceMod, UInt16.toNat_ofNat']
  rw [hhigh, hmiddle, hupper, Bytes.shiftLeft_or_eq_add 6 _ (by omega)]
  omega

-- What some bits are, they are among more bits.
theorem and_of_and {a mask v : UInt8} (part : UInt8) (h : a &&& mask = v)
    (hpart : mask &&& part = part) : a &&& part = v &&& part := by
  rw [← h, UInt8.and_assoc, hpart]

-- A first byte says one length only.
theorem lead_pair_ne {a : UInt8} (h : a &&& 0xE0 = 0xC0) : a &&& 0x80 ≠ 0 := by
  rw [and_of_and 0x80 h rfl]
  decide

theorem lead_triple_ne {a : UInt8} (h : a &&& 0xF0 = 0xE0) :
    a &&& 0x80 ≠ 0 ∧ a &&& 0xE0 ≠ 0xC0 := by
  rw [and_of_and 0x80 h rfl, and_of_and 0xE0 h rfl]
  decide

-- Reading the bytes of a sequence gives its unit.
theorem decodeUnits_bytes {q : Sequence} (h : q.Led) (rest : List UInt8) (pos : Nat)
    (units : Array UInt16) :
    decodeUnits pos units (q.bytes ++ rest) =
      decodeUnits (pos + q.bytes.length) (units.push q.unit) rest := by
  cases q with
  | single a =>
    have ha : a &&& 0x80 = 0 := h
    rw [bytes, List.cons_append, List.nil_append, decodeUnits.eq_def]
    simp only [ha, if_true, unit_single, List.length_singleton]
  | pair a b =>
    have ha : a &&& 0xE0 = 0xC0 := h
    simp only [bytes, List.cons_append, List.nil_append, decodeUnits, if_neg (lead_pair_ne ha),
      ha, if_true, unit_pair, List.length_cons, List.length_nil]
  | triple a b c =>
    have ha : a &&& 0xF0 = 0xE0 := h
    obtain ⟨hsingle, hpair⟩ := lead_triple_ne ha
    simp only [bytes, List.cons_append, List.nil_append, decodeUnits, if_neg hsingle, if_neg hpair,
      ha, if_true, unit_triple, List.length_cons, List.length_nil]

theorem decodeUnits_flatMap_bytes {qs : List Sequence} (h : ∀ q ∈ qs, q.Led) (pos : Nat)
    (units : Array UInt16) :
    decodeUnits pos units (qs.flatMap Sequence.bytes) = .ok (units ++ (qs.map unit).toArray) := by
  induction qs generalizing pos units with
  | nil => simp [decodeUnits]
  | cons q qs ih =>
    rw [List.flatMap_cons, decodeUnits_bytes (h q List.mem_cons_self),
      ih fun r hr => h r (List.mem_cons_of_mem _ hr)]
    simp

theorem Cut.cons {q : Sequence} {bs : List UInt8} {qs : List Sequence} (hq : q.Led)
    (h : Cut bs qs) : Cut (q.bytes ++ bs) (q :: qs) :=
  ⟨List.forall_mem_cons.mpr ⟨hq, h.led⟩, by rw [List.flatMap_cons, ← h.bytes]⟩

-- Bytes that are read as units are cut into sequences.
theorem exists_cut_of_decodeUnits {pos : Nat} {units us : Array UInt16} {bs : List UInt8}
    (h : decodeUnits pos units bs = .ok us) :
    ∃ qs, Cut bs qs ∧ us = units ++ (qs.map unit).toArray := by
  fun_induction decodeUnits pos units bs with
  | case1 pos units =>
    cases h
    exact ⟨[], ⟨by simp, rfl⟩, by simp⟩
  | case2 pos units a rest ha ih =>
    obtain ⟨qs, hcut, rfl⟩ := ih h
    exact ⟨single a :: qs, hcut.cons (q := single a) ha, by simp [unit_single]⟩
  | case3 pos units a _ ha b rest ih =>
    obtain ⟨qs, hcut, rfl⟩ := ih h
    exact ⟨pair a b :: qs, hcut.cons (q := pair a b) ha, by rw [unit_pair]; simp⟩
  | case4 => cases h
  | case5 pos units a _ _ ha b c rest ih =>
    obtain ⟨qs, hcut, rfl⟩ := ih h
    exact ⟨triple a b c :: qs, hcut.cons (q := triple a b c) ha, by rw [unit_triple]; simp⟩
  | case6 => cases h
  | case7 => cases h

-- Bytes are cut in one way at most.
theorem Cut.unique {bs : List UInt8} {qs rs : List Sequence} (h : Cut bs qs) (h' : Cut bs rs) :
    qs = rs := by
  obtain ⟨hled, rfl⟩ := h
  obtain ⟨hled', hbytes⟩ := h'
  induction qs generalizing rs with
  | nil =>
    cases rs with
    | nil => rfl
    | cons r rs => cases r <;> simp [Sequence.bytes] at hbytes
  | cons q qs ih =>
    cases rs with
    | nil => cases q <;> simp [Sequence.bytes] at hbytes
    | cons r rs =>
      obtain ⟨hq, hqs⟩ := List.forall_mem_cons.mp hled
      obtain ⟨hr, hrs⟩ := List.forall_mem_cons.mp hled'
      have hsame : q = r ∧ qs.flatMap Sequence.bytes = rs.flatMap Sequence.bytes := by
        rw [List.flatMap_cons, List.flatMap_cons] at hbytes
        cases q <;> cases r <;> simp only [Sequence.bytes, List.cons_append, List.nil_append,
          List.cons.injEq] at hbytes <;> obtain ⟨rfl, hbytes⟩ := hbytes
        · exact ⟨rfl, hbytes⟩
        · exact absurd hq (lead_pair_ne hr)
        · exact absurd hq (lead_triple_ne hr).1
        · exact absurd hr (lead_pair_ne hq)
        · exact ⟨by rw [hbytes.1], hbytes.2⟩
        · exact absurd hq (lead_triple_ne hr).2
        · exact absurd hr (lead_triple_ne hq).1
        · exact absurd hr (lead_triple_ne hq).2
        · exact ⟨by rw [hbytes.1, hbytes.2.1], hbytes.2.2⟩
      rw [hsame.1, ih hqs hrs hsame.2]

-- The surrogates in numbers.
theorem isHighSurrogate_iff {u : UInt16} :
    isHighSurrogate u = true ↔ 0xD800 ≤ u.toNat ∧ u.toNat < 0xDC00 := by
  simp [isHighSurrogate, UInt16.le_iff_toNat_le, UInt16.lt_iff_toNat_lt]

theorem isLowSurrogate_iff {u : UInt16} :
    isLowSurrogate u = true ↔ 0xDC00 ≤ u.toNat ∧ u.toNat < 0xE000 := by
  simp [isLowSurrogate, UInt16.le_iff_toNat_le, UInt16.lt_iff_toNat_lt]

theorem toNat_charOfNat {n : Nat} (h : n < 0xD800 ∨ 0xDFFF < n ∧ n < 0x110000) :
    (Char.ofNat n).toNat = n := by
  rw [Char.ofNat, dif_pos h]
  rfl

-- The characters that are read have the units that they were read from.
theorem unitsOf_ofNat {u : UInt16} (hhigh : isHighSurrogate u = false)
    (hlow : isLowSurrogate u = false) : unitsOf (Char.ofNat u.toNat) = [u] := by
  have hu := u.toNat_lt
  have hnot : ¬(0xD800 ≤ u.toNat ∧ u.toNat < 0xE000) := by
    rw [← Bool.not_eq_true, isHighSurrogate_iff] at hhigh
    rw [← Bool.not_eq_true, isLowSurrogate_iff] at hlow
    omega
  rw [unitsOf, toNat_charOfNat (by omega), if_pos (by omega)]
  simp

theorem unitsOf_ofNat_pair {u v : UInt16} (hhigh : isHighSurrogate u = true)
    (hlow : isLowSurrogate v = true) :
    unitsOf (Char.ofNat (0x10000 + (u.toNat - 0xD800) * 0x400 + (v.toNat - 0xDC00))) = [u, v] := by
  rw [isHighSurrogate_iff] at hhigh
  rw [isLowSurrogate_iff] at hlow
  have hu : (0xD800 + (0x10000 + (u.toNat - 0xD800) * 0x400 + (v.toNat - 0xDC00) - 0x10000) /
      0x400) = u.toNat := by omega
  have hv : (0xDC00 + (0x10000 + (u.toNat - 0xD800) * 0x400 + (v.toNat - 0xDC00) - 0x10000) %
      0x400) = v.toNat := by omega
  rw [unitsOf, toNat_charOfNat (by omega), if_neg (by omega)]
  dsimp only
  rw [hu, hv]
  simp

theorem exists_of_charsOfUnits {chars cs : Array Char} {us : List UInt16}
    (h : charsOfUnits chars us = some cs) :
    Paired us ∧ ∃ l : List Char, us = l.flatMap unitsOf ∧ cs = chars ++ l.toArray := by
  fun_induction charsOfUnits chars us with
  | case1 chars =>
    cases h
    exact ⟨.nil, [], rfl, by simp⟩
  | case2 chars u hu v rest hv ih =>
    obtain ⟨hpaired, l, rfl, rfl⟩ := ih h
    let c := Char.ofNat (0x10000 + (u.toNat - 0xD800) * 0x400 + (v.toNat - 0xDC00))
    refine ⟨.pair hu hv hpaired, c :: l, ?_, ?_⟩
    · rw [List.flatMap_cons, unitsOf_ofNat_pair hu hv]
      rfl
    · simp [c]
  | case3 => cases h
  | case4 => cases h
  | case5 => cases h
  | case6 chars u rest hu hv ih =>
    obtain ⟨hpaired, l, rfl, rfl⟩ := ih h
    rw [Bool.not_eq_true] at hu hv
    refine ⟨.alone hu hv hpaired, Char.ofNat u.toNat :: l, ?_, ?_⟩
    · rw [List.flatMap_cons, unitsOf_ofNat hu hv]
      rfl
    · simp

theorem Paired.exists_chars {us : List UInt16} (h : Paired us) (chars : Array Char) :
    ∃ cs, charsOfUnits chars us = some cs := by
  induction h generalizing chars with
  | nil => exact ⟨chars, rfl⟩
  | alone hhigh hlow _ ih =>
    rw [charsOfUnits.eq_def]
    simp only [hhigh, hlow, Bool.false_eq_true, if_false]
    exact ih _
  | pair hhigh hlow _ ih =>
    rw [charsOfUnits.eq_def]
    simp only [hhigh, hlow, if_true]
    exact ih _

-- Bytes are read as the text whose units their sequences denote.
theorem decode_eq_ok_iff {b : Bytes} {s : String} :
    decode b = .ok s ↔
      ∃ qs, Cut b.toList qs ∧ qs.map unit = s.toList.flatMap unitsOf := by
  unfold decode
  constructor
  · intro h
    split at h
    · cases h
    · rename_i us hus
      split at h
      · rename_i cs hcs
        cases h
        obtain ⟨qs, hcut, rfl⟩ := exists_cut_of_decodeUnits hus
        obtain ⟨-, l, hunits, rfl⟩ := exists_of_charsOfUnits hcs
        exact ⟨qs, hcut, by simpa using hunits⟩
      · cases h
  · rintro ⟨qs, hcut, hunits⟩
    rw [hcut.bytes, decodeUnits_flatMap_bytes hcut.led]
    dsimp only
    rw [List.append_toArray, List.nil_append, hunits, charsOfUnits_flatMap]
    simp

-- The form that bytes have is that of the sequences that they are cut into.
theorem wellFormed_iff_of_cut {b : Bytes} {qs : List Sequence} (h : Cut b.toList qs) :
    WellFormed b ↔ (∀ q ∈ qs, q.Continued) ∧ Paired (qs.map unit) := by
  constructor
  · rintro ⟨rs, hcut, hrs⟩
    rwa [h.unique hcut]
  · intro hqs
    exact ⟨qs, h, hqs⟩

theorem Paired.of_units (cs : List Char) : Paired (cs.flatMap unitsOf) :=
  (exists_of_charsOfUnits (charsOfUnits_flatMap cs #[])).1

-- Bytes in the form of a text are read as one.
theorem WellFormed.exists_decode {b : Bytes} (h : WellFormed b) : ∃ s, decode b = .ok s := by
  obtain ⟨qs, hcut, -, hpaired⟩ := h
  obtain ⟨cs, hcs⟩ := hpaired.exists_chars #[]
  obtain ⟨-, l, hunits, -⟩ := exists_of_charsOfUnits hcs
  exact ⟨String.ofList l, decode_eq_ok_iff.mpr ⟨qs, hcut, by simpa using hunits⟩⟩

-- Bytes are read as a text exactly if they are cut into sequences that denote its units. Bytes that
-- are in the form of a text are among them, and of those that are read these are the ones in which
-- each byte behind a first one has the form of such a byte; nothing else is looked at before bytes
-- are taken for a text.
theorem wellFormed_iff_continued (b : Bytes) :
    (WellFormed b → ∃ s, decode b = .ok s) ∧
    ∀ s, decode b = .ok s ↔ ∃ qs, Cut b.toList qs ∧ qs.map unit = s.toList.flatMap unitsOf ∧
      Paired (qs.map unit) ∧ (WellFormed b ↔ ∀ q ∈ qs, q.Continued) := by
  refine ⟨WellFormed.exists_decode, fun s => ?_⟩
  rw [decode_eq_ok_iff]
  refine exists_congr fun qs => and_congr_right fun hcut => ?_
  rw [wellFormed_iff_of_cut hcut, iff_self_and]
  intro hunits
  have hpaired : Paired (qs.map unit) := hunits ▸ .of_units s.toList
  exact ⟨hpaired, and_iff_left hpaired⟩

-- Sequences of each length, and a pair of surrogates.
theorem wellFormed_iff_continued_smile :
    WellFormed #[0x41, 0xC3, 0xA9, 0xED, 0xA0, 0xBD, 0xED, 0xB8, 0x80] ∧
      ∃ s, decode #[0x41, 0xC3, 0xA9, 0xED, 0xA0, 0xBD, 0xED, 0xB8, 0x80] = .ok s := by
  have hform : WellFormed #[0x41, 0xC3, 0xA9, 0xED, 0xA0, 0xBD, 0xED, 0xB8, 0x80] := by
    refine ⟨[single 0x41, pair 0xC3 0xA9, triple 0xED 0xA0 0xBD, triple 0xED 0xB8 0x80],
      ⟨by decide, by decide⟩, by decide +kernel, ?_⟩
    exact .alone rfl rfl (.alone rfl rfl (.pair rfl rfl .nil))
  obtain ⟨hread, -⟩ := wellFormed_iff_continued
    #[0x41, 0xC3, 0xA9, 0xED, 0xA0, 0xBD, 0xED, 0xB8, 0x80]
  exact ⟨hform, hread hform⟩

-- The byte behind C3 should be one from 80 to BF; yet C3 28 is read as the text of C3 A8.
theorem text_of_malformed_pair :
    ¬WellFormed #[0xC3, 0x28] ∧ decode #[0xC3, 0x28] = .ok "è" ∧ decode #[0xC3, 0xA8] = .ok "è" := by
  have hlead : (pair 0xC3 0).Led := by decide
  have hcut : ∀ x : UInt8, Cut [0xC3, x] [pair 0xC3 x] := fun x =>
    ⟨List.forall_mem_singleton.mpr hlead, rfl⟩
  refine ⟨?_, decode_eq_ok_iff.mpr ⟨_, hcut 0x28, by decide⟩,
    decode_eq_ok_iff.mpr ⟨_, hcut 0xA8, by decide⟩⟩
  rw [wellFormed_iff_of_cut (hcut 0x28)]
  rintro ⟨hcontinued, -⟩
  exact absurd hcontinued (by decide)

end PodCompiler.Text.ModifiedUtf8
