import Mathlib
import PodCompiler.Proofs.Bytes
import PodCompiler.Text.ModifiedUtf8

namespace PodCompiler.Text.ModifiedUtf8

-- A byte is one of few, so what its bits say is checked byte by byte.
theorem forall_lt_of_fin {bound : Nat} {P : UInt8 → Prop}
    (h : ∀ n : Fin bound, P (UInt8.ofNat n)) {x : UInt8} (hx : x.toNat < bound) : P x := by
  have hbyte := h ⟨x.toNat, hx⟩
  rwa [UInt8.ofNat_toNat] at hbyte

theorem single_bits {x : UInt8} (hx : x.toNat < 0x80) : x &&& 0x80 = 0 :=
  forall_lt_of_fin (P := fun x => x &&& 0x80 = 0) (by decide) hx

theorem lead_pair_bits {x : UInt8} (hx : x.toNat < 0x20) :
    (x ||| 0xC0) &&& 0x80 ≠ 0 ∧ (x ||| 0xC0) &&& 0xE0 = 0xC0 ∧ (x ||| 0xC0) &&& 0x1F = x :=
  forall_lt_of_fin (P := fun x => (x ||| 0xC0) &&& 0x80 ≠ 0 ∧ (x ||| 0xC0) &&& 0xE0 = 0xC0 ∧
    (x ||| 0xC0) &&& 0x1F = x) (by decide) hx

theorem lead_triple_bits {x : UInt8} (hx : x.toNat < 0x10) :
    (x ||| 0xE0) &&& 0x80 ≠ 0 ∧ (x ||| 0xE0) &&& 0xE0 ≠ 0xC0 ∧ (x ||| 0xE0) &&& 0xF0 = 0xE0 ∧
      (x ||| 0xE0) &&& 0x0F = x :=
  forall_lt_of_fin (P := fun x => (x ||| 0xE0) &&& 0x80 ≠ 0 ∧ (x ||| 0xE0) &&& 0xE0 ≠ 0xC0 ∧
    (x ||| 0xE0) &&& 0xF0 = 0xE0 ∧ (x ||| 0xE0) &&& 0x0F = x) (by decide) hx

theorem trail_bits {x : UInt8} (hx : x.toNat < 0x40) : (x ||| 0x80) &&& 0x3F = x :=
  forall_lt_of_fin (P := fun x => (x ||| 0x80) &&& 0x3F = x) (by decide) hx

-- The parts into which the bits of a unit are cut.
theorem toNat_low (u : UInt16) : (u &&& 0x3F).toUInt8.toNat = u.toNat % 0x40 := by
  have hmask : u.toNat &&& 0x3F = u.toNat % 0x40 := Nat.and_two_pow_sub_one_eq_mod u.toNat 6
  simp only [UInt16.toNat_toUInt8, UInt16.toNat_and, UInt16.reduceToNat, hmask]
  omega

theorem toNat_middle (u : UInt16) :
    ((u >>> 6) &&& 0x3F).toUInt8.toNat = u.toNat / 0x40 % 0x40 := by
  rw [toNat_low]
  simp [UInt16.toNat_shiftRight, Nat.shiftRight_eq_div_pow]

theorem toNat_lead_pair (u : UInt16) :
    ((u >>> 6) &&& 0x1F).toUInt8.toNat = u.toNat / 0x40 % 0x20 := by
  have hmask : u.toNat >>> 6 &&& 0x1F = u.toNat >>> 6 % 0x20 :=
    Nat.and_two_pow_sub_one_eq_mod _ 5
  simp only [UInt16.toNat_toUInt8, UInt16.toNat_and, UInt16.toNat_shiftRight, UInt16.reduceToNat,
    Nat.reduceMod, hmask]
  rw [Nat.shiftRight_eq_div_pow]
  omega

theorem toNat_lead_triple (u : UInt16) :
    ((u >>> 12) &&& 0x0F).toUInt8.toNat = u.toNat / 0x1000 % 0x10 := by
  have hmask : u.toNat >>> 12 &&& 0x0F = u.toNat >>> 12 % 0x10 :=
    Nat.and_two_pow_sub_one_eq_mod _ 4
  simp only [UInt16.toNat_toUInt8, UInt16.toNat_and, UInt16.toNat_shiftRight, UInt16.reduceToNat,
    Nat.reduceMod, hmask]
  rw [Nat.shiftRight_eq_div_pow]
  omega

-- The parts of a unit, put together again.
theorem join_pair {u : UInt16} (hu : u.toNat < 0x800) :
    (((u >>> 6) &&& 0x1F).toUInt8.toUInt16 <<< 6) ||| (u &&& 0x3F).toUInt8.toUInt16 = u := by
  apply UInt16.toNat_inj.mp
  have hhigh : (u.toNat / 0x40 % 0x20) <<< 6 % 2 ^ 16 = (u.toNat / 0x40) <<< 6 := by
    simp only [Nat.shiftLeft_eq]
    omega
  simp only [UInt16.toNat_or, UInt16.toNat_shiftLeft, UInt8.toNat_toUInt16, toNat_lead_pair,
    toNat_low, UInt16.reduceToNat, Nat.reduceMod]
  rw [hhigh, Bytes.shiftLeft_or_eq_add 6 _ (by omega)]
  omega

theorem join_triple (u : UInt16) :
    (((u >>> 12) &&& 0x0F).toUInt8.toUInt16 <<< 12) |||
      (((u >>> 6) &&& 0x3F).toUInt8.toUInt16 <<< 6) ||| (u &&& 0x3F).toUInt8.toUInt16 = u := by
  apply UInt16.toNat_inj.mp
  have hu := u.toNat_lt
  have hhigh : (u.toNat / 0x1000 % 0x10) <<< 12 % 2 ^ 16 = (u.toNat / 0x1000) <<< 12 := by
    simp only [Nat.shiftLeft_eq]
    omega
  have hmiddle : (u.toNat / 0x40 % 0x40) <<< 6 % 2 ^ 16 = (u.toNat / 0x40 % 0x40) <<< 6 := by
    simp only [Nat.shiftLeft_eq]
    omega
  have hupper : (u.toNat / 0x1000) <<< 12 ||| (u.toNat / 0x40 % 0x40) <<< 6 =
      (u.toNat / 0x40) <<< 6 := by
    rw [Bytes.shiftLeft_or_eq_add 12 _ (by simp only [Nat.shiftLeft_eq]; omega)]
    simp only [Nat.shiftLeft_eq]
    omega
  simp only [UInt16.toNat_or, UInt16.toNat_shiftLeft, UInt8.toNat_toUInt16, toNat_lead_triple,
    toNat_low u, UInt16.reduceToNat, Nat.reduceMod]
  rw [toNat_middle, hhigh, hmiddle, hupper, Bytes.shiftLeft_or_eq_add 6 _ (by omega)]
  omega

-- The bytes of a unit are read as that unit.
theorem decodeUnits_encodeUnit (u : UInt16) (rest : List UInt8) (pos : Nat)
    (units : Array UInt16) :
    decodeUnits pos units (encodeUnit u ++ rest) =
      decodeUnits (pos + (encodeUnit u).length) (units.push u) rest := by
  unfold encodeUnit
  split
  · rename_i hone
    have hlt : u.toNat < 0x80 := by
      simp only [Bool.and_eq_true, decide_eq_true_eq, UInt16.lt_iff_toNat_lt] at hone
      simpa using hone.2
    have hbyte : u.toUInt8.toNat = u.toNat := by
      rw [UInt16.toNat_toUInt8]
      omega
    have hunit : u.toUInt8.toUInt16 = u := by
      apply UInt16.toNat_inj.mp
      rw [UInt8.toNat_toUInt16, hbyte]
    rw [List.cons_append, List.nil_append, decodeUnits.eq_def]
    simp only [single_bits (hbyte ▸ hlt), hunit, if_true, List.length_cons, List.length_nil]
  · split
    · rename_i htwo
      have hlt : u.toNat < 0x800 := by simpa [UInt16.lt_iff_toNat_lt] using htwo
      obtain ⟨hsingle, hlead, hvalue⟩ := lead_pair_bits (x := ((u >>> 6) &&& 0x1F).toUInt8)
        (by rw [toNat_lead_pair]; omega)
      have htrail := trail_bits (x := (u &&& 0x3F).toUInt8) (by rw [toNat_low]; omega)
      simp only [List.cons_append, List.nil_append, decodeUnits, hsingle, hlead, hvalue, htrail,
        join_pair hlt, if_true, if_false, List.length_cons, List.length_nil]
    · obtain ⟨hsingle, hpair, hlead, hvalue⟩ := lead_triple_bits
        (x := ((u >>> 12) &&& 0x0F).toUInt8) (by rw [toNat_lead_triple]; omega)
      have hmiddle := trail_bits (x := ((u >>> 6) &&& 0x3F).toUInt8) (by rw [toNat_middle]; omega)
      have htrail := trail_bits (x := (u &&& 0x3F).toUInt8) (by rw [toNat_low]; omega)
      simp only [List.cons_append, List.nil_append, decodeUnits, hsingle, hpair, hlead, hvalue,
        hmiddle, htrail, join_triple u, if_true, if_false, List.length_cons, List.length_nil]

theorem decodeUnits_flatMap (us : List UInt16) (pos : Nat) (units : Array UInt16) :
    decodeUnits pos units (us.flatMap encodeUnit) = .ok (units ++ us.toArray) := by
  induction us generalizing pos units with
  | nil => simp [decodeUnits]
  | cons u us ih =>
    rw [List.flatMap_cons, decodeUnits_encodeUnit, ih]
    simp

-- The units of a character are read as that character.
theorem charsOfUnits_unitsOf (c : Char) (rest : List UInt16) (chars : Array Char) :
    charsOfUnits chars (unitsOf c ++ rest) = charsOfUnits (chars.push c) rest := by
  have hvalid : c.toNat < 0xD800 ∨ 0xDFFF < c.toNat ∧ c.toNat < 0x110000 := c.valid
  have hc : Char.ofNat c.toNat = c := Char.ofNat_toNat c
  unfold unitsOf
  split
  · rename_i hsmall
    have hunit : c.toNat.toUInt16.toNat = c.toNat := by
      rw [UInt16.toNat_ofNat', Nat.mod_eq_of_lt hsmall]
    have hhigh : isHighSurrogate c.toNat.toUInt16 = false := by
      simp [isHighSurrogate, UInt16.le_iff_toNat_le, UInt16.lt_iff_toNat_lt]
      omega
    have hlow : isLowSurrogate c.toNat.toUInt16 = false := by
      simp [isLowSurrogate, UInt16.le_iff_toNat_le, UInt16.lt_iff_toNat_lt]
      omega
    rw [List.cons_append, List.nil_append, charsOfUnits.eq_def]
    simp only [hhigh, hlow, hunit, hc, Bool.false_eq_true, if_false]
  · rename_i hlarge
    dsimp only
    generalize hn : c.toNat - 0x10000 = n
    have hhighNat : (0xD800 + n / 0x400).toUInt16.toNat = 0xD800 + n / 0x400 := by
      rw [UInt16.toNat_ofNat', Nat.mod_eq_of_lt (by omega)]
    have hlowNat : (0xDC00 + n % 0x400).toUInt16.toNat = 0xDC00 + n % 0x400 := by
      rw [UInt16.toNat_ofNat', Nat.mod_eq_of_lt (by omega)]
    have hhigh : isHighSurrogate (0xD800 + n / 0x400).toUInt16 = true := by
      simp only [isHighSurrogate, UInt16.le_iff_toNat_le, UInt16.lt_iff_toNat_lt, hhighNat,
        UInt16.reduceToNat, Bool.and_eq_true, decide_eq_true_eq]
      omega
    have hlow : isLowSurrogate (0xDC00 + n % 0x400).toUInt16 = true := by
      simp only [isLowSurrogate, UInt16.le_iff_toNat_le, UInt16.lt_iff_toNat_lt, hlowNat,
        UInt16.reduceToNat, Bool.and_eq_true, decide_eq_true_eq]
      omega
    have hvalue : 0x10000 + (0xD800 + n / 0x400 - 0xD800) * 0x400 + (0xDC00 + n % 0x400 - 0xDC00) =
        c.toNat := by
      omega
    simp only [List.cons_append, List.nil_append, charsOfUnits, hhigh, hlow, if_true, hhighNat,
      hlowNat, hvalue, hc]

theorem charsOfUnits_flatMap (cs : List Char) (chars : Array Char) :
    charsOfUnits chars (cs.flatMap unitsOf) = some (chars ++ cs.toArray) := by
  induction cs generalizing chars with
  | nil => simp [charsOfUnits]
  | cons c cs ih =>
    rw [List.flatMap_cons, charsOfUnits_unitsOf, ih]
    simp

theorem decode_encode (s : String) : decode (encode s) = .ok s := by
  have hbytes : (encode s).toList = (s.toList.flatMap unitsOf).flatMap encodeUnit := by
    rw [List.flatMap_assoc]
    rfl
  unfold decode
  rw [hbytes, decodeUnits_flatMap]
  dsimp only
  rw [List.append_toArray, List.nil_append, charsOfUnits_flatMap]
  simp

-- The bytes that may be written: none is zero, and none has its four high bits set.
def IsWritten (b : UInt8) : Prop :=
  b ≠ 0 ∧ b &&& 0xF0 ≠ 0xF0

theorem isWritten_single {x : UInt8} (hx : x.toNat < 0x80) (hpos : x ≠ 0) : IsWritten x :=
  ⟨hpos, forall_lt_of_fin (P := fun x => x &&& 0xF0 ≠ 0xF0) (by decide) hx⟩

theorem isWritten_lead_pair {x : UInt8} (hx : x.toNat < 0x20) : IsWritten (x ||| 0xC0) :=
  forall_lt_of_fin (P := fun x => x ||| 0xC0 ≠ 0 ∧ (x ||| 0xC0) &&& 0xF0 ≠ 0xF0) (by decide) hx

theorem isWritten_lead_triple {x : UInt8} (hx : x.toNat < 0x10) : IsWritten (x ||| 0xE0) :=
  forall_lt_of_fin (P := fun x => x ||| 0xE0 ≠ 0 ∧ (x ||| 0xE0) &&& 0xF0 ≠ 0xF0) (by decide) hx

theorem isWritten_trail {x : UInt8} (hx : x.toNat < 0x40) : IsWritten (x ||| 0x80) :=
  forall_lt_of_fin (P := fun x => x ||| 0x80 ≠ 0 ∧ (x ||| 0x80) &&& 0xF0 ≠ 0xF0) (by decide) hx

theorem isWritten_of_mem_encodeUnit {u : UInt16} {b : UInt8} (hb : b ∈ encodeUnit u) :
    IsWritten b := by
  have hlow : IsWritten ((u &&& 0x3F).toUInt8 ||| 0x80) :=
    isWritten_trail (by rw [toNat_low]; omega)
  unfold encodeUnit at hb
  split at hb
  · rename_i hone
    simp only [Bool.and_eq_true, decide_eq_true_eq, UInt16.lt_iff_toNat_lt] at hone
    have hbyte : u.toUInt8.toNat = u.toNat := by
      rw [UInt16.toNat_toUInt8]
      exact Nat.mod_eq_of_lt (Nat.lt_trans hone.2 (by decide))
    rw [List.mem_singleton.mp hb]
    -- the zero unit takes the form of two bytes
    apply isWritten_single (by rw [hbyte]; exact hone.2)
    intro hzero
    rw [hzero] at hbyte
    exact absurd hone.1 (by rw [← hbyte]; decide)
  · split at hb
    · rcases List.mem_pair.mp hb with rfl | rfl
      · exact isWritten_lead_pair (by rw [toNat_lead_pair]; omega)
      · exact hlow
    · rcases List.mem_cons.mp hb with rfl | hb
      · exact isWritten_lead_triple (by rw [toNat_lead_triple]; omega)
      rcases List.mem_pair.mp hb with rfl | rfl
      · exact isWritten_trail (by rw [toNat_middle]; omega)
      · exact hlow

theorem isWritten_of_mem_encode {s : String} {b : UInt8} (hb : b ∈ encode s) : IsWritten b := by
  unfold encode at hb
  obtain ⟨c, -, hb⟩ := List.mem_flatMap.mp (List.mem_toArray.mp hb)
  obtain ⟨u, -, hb⟩ := List.mem_flatMap.mp hb
  exact isWritten_of_mem_encodeUnit hb

theorem encode_append (s t : String) : encode (s ++ t) = encode s ++ encode t := by
  unfold encode
  rw [String.toList_append, List.flatMap_append, List.append_toArray]

theorem encode_injective : Function.Injective encode := by
  intro s t heq
  have hread : Except.ok (ε := Fault) s = .ok t := by
    rw [← decode_encode s, ← decode_encode t, heq]
  exact Except.ok.inj hread

-- Modified UTF-8 is a code for texts: it can be read back, it uses the written bytes only, no two
-- texts share their bytes, and it takes texts in a row to bytes in a row.
theorem encode_is_code : Function.Injective encode ∧
    ∀ s : String, decode (encode s) = .ok s ∧ (∀ b ∈ encode s, b ≠ 0 ∧ b &&& 0xF0 ≠ 0xF0) ∧
      ∀ t, encode (s ++ t) = encode s ++ encode t := by
  refine ⟨encode_injective, fun s => ⟨decode_encode s, ?_, encode_append s⟩⟩
  intro b hb
  exact isWritten_of_mem_encode hb

end PodCompiler.Text.ModifiedUtf8
