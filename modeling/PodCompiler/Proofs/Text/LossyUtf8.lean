import Mathlib
import PodCompiler.Text.LossyUtf8

namespace PodCompiler.Text.LossyUtf8

section Steps

variable {chars : Array Char} {valid : Bool} {value n k : Nat} {low high : UInt8}

-- A byte that goes on with a character adds its six low bits.
theorem le_and_le_of_trail (hn : n < 64) (hlow : low.toNat ≤ n + 128)
    (hhigh : n + 128 ≤ high.toNat) : (low ≤ UInt8.ofNat (n + 128) && UInt8.ofNat (n + 128) ≤ high) =
      true ∧ (UInt8.ofNat (n + 128)).toNat % 64 = n := by
  have hbyte : (UInt8.ofNat (n + 128)).toNat = n + 128 := by
    rw [UInt8.toNat_ofNat', Nat.mod_eq_of_lt (by omega)]
  rw [hbyte]
  refine ⟨?_, by omega⟩
  simp only [Bool.and_eq_true, decide_eq_true_eq, UInt8.le_iff_toNat_le, hbyte]
  exact ⟨hlow, hhigh⟩

theorem next_last (hn : n < 64) (hlow : low.toNat ≤ n + 128) (hhigh : n + 128 ≤ high.toNat) :
    next ⟨chars, valid, some ⟨value, low, high, 1⟩⟩ (UInt8.ofNat (n + 128)) =
      ⟨chars.push (Char.ofNat (value * 64 + n)), valid, none⟩ := by
  obtain ⟨hwithin, hbits⟩ := le_and_le_of_trail hn hlow hhigh
  simp only [next, hwithin, hbits, if_true]

theorem next_more (hn : n < 64) (hlow : low.toNat ≤ n + 128) (hhigh : n + 128 ≤ high.toNat) :
    next ⟨chars, valid, some ⟨value, low, high, k + 2⟩⟩ (UInt8.ofNat (n + 128)) =
      ⟨chars, valid, some ⟨value * 64 + n, 0x80, 0xBF, k + 1⟩⟩ := by
  obtain ⟨hwithin, hbits⟩ := le_and_le_of_trail hn hlow hhigh
  have hmore : k + 2 ≠ 1 := by omega
  simp only [next, hwithin, hbits, hmore, if_true, if_false]
  rfl

-- The lead bytes of characters of two, three and four bytes. The bounds of the byte after leave out
-- what would be too long, a surrogate or too large.
theorem follow?_pair (h : 2 ≤ n) (hn : n < 32) :
    ¬UInt8.ofNat (n + 192) < 0x80 ∧ follow? (UInt8.ofNat (n + 192)) = some (0x80, 0xBF, 1) ∧
      (UInt8.ofNat (n + 192)).toNat % Nat.pow 2 (6 - 1) = n := by
  have hall : ∀ n : Fin 32, 2 ≤ n.val → ¬UInt8.ofNat (n + 192) < 0x80 ∧
      follow? (UInt8.ofNat (n + 192)) = some (0x80, 0xBF, 1) ∧
      (UInt8.ofNat (n + 192)).toNat % Nat.pow 2 (6 - 1) = n := by
    decide
  exact hall ⟨n, hn⟩ h

theorem follow?_triple (hn : n < 16) :
    ¬UInt8.ofNat (n + 224) < 0x80 ∧
      follow? (UInt8.ofNat (n + 224)) =
        some (if n = 0 then 0xA0 else 0x80, if n = 13 then 0x9F else 0xBF, 2) ∧
      (UInt8.ofNat (n + 224)).toNat % Nat.pow 2 (6 - 2) = n := by
  have hall : ∀ n : Fin 16, ¬UInt8.ofNat (n + 224) < 0x80 ∧
      follow? (UInt8.ofNat (n + 224)) =
        some (if n.val = 0 then 0xA0 else 0x80, if n.val = 13 then 0x9F else 0xBF, 2) ∧
      (UInt8.ofNat (n + 224)).toNat % Nat.pow 2 (6 - 2) = n := by
    decide
  exact hall ⟨n, hn⟩

theorem follow?_quad (hn : n < 5) :
    ¬UInt8.ofNat (n + 240) < 0x80 ∧
      follow? (UInt8.ofNat (n + 240)) =
        some (if n = 0 then 0x90 else 0x80, if n = 4 then 0x8F else 0xBF, 3) ∧
      (UInt8.ofNat (n + 240)).toNat % Nat.pow 2 (6 - 3) = n := by
  have hall : ∀ n : Fin 5, ¬UInt8.ofNat (n + 240) < 0x80 ∧
      follow? (UInt8.ofNat (n + 240)) =
        some (if n.val = 0 then 0x90 else 0x80, if n.val = 4 then 0x8F else 0xBF, 3) ∧
      (UInt8.ofNat (n + 240)).toNat % Nat.pow 2 (6 - 3) = n := by
    decide
  exact hall ⟨n, hn⟩

theorem next_lead {b : UInt8} {missing : Nat} (hlead : ¬b < 0x80)
    (hfollow : follow? b = some (low, high, missing)) :
    next ⟨chars, valid, none⟩ b =
      ⟨chars, valid, some ⟨b.toNat % Nat.pow 2 (6 - missing), low, high, missing⟩⟩ := by
  simp only [next, first, if_neg hlead, hfollow]

variable {v : Nat}

-- The bytes of a number, by how many there are, are read as the character of the number.
theorem foldl_next_single (hv : v < 0x80) :
    [UInt8.ofNat v].foldl next ⟨chars, valid, none⟩ =
      ⟨chars.push (Char.ofNat v), valid, none⟩ := by
  have hbyte : (UInt8.ofNat v).toNat = v := by
    rw [UInt8.toNat_ofNat', Nat.mod_eq_of_lt (by omega)]
  have hlt : UInt8.ofNat v < 0x80 := by
    rw [UInt8.lt_iff_toNat_lt, hbyte]
    exact hv
  simp only [List.foldl_cons, List.foldl_nil, next, first, if_pos hlt, hbyte]

theorem foldl_next_pair (h : 0x80 ≤ v) (hv : v < 0x800) :
    [UInt8.ofNat (v / 64 % 32 + 192), UInt8.ofNat (v % 64 + 128)].foldl next
        ⟨chars, valid, none⟩ =
      ⟨chars.push (Char.ofNat v), valid, none⟩ := by
  have hhead : v / 64 % 32 = v / 64 := by omega
  obtain ⟨hlead, hfollow, hbits⟩ := follow?_pair (n := v / 64) (by omega) (by omega)
  have hjoin : v / 64 * 64 + v % 64 = v := by omega
  rw [hhead, List.foldl_cons, next_lead hlead hfollow, hbits, List.foldl_cons,
    next_last (by omega) (by simp) (by simp; omega), hjoin]
  rfl

theorem foldl_next_triple (h : 0x800 ≤ v) (hv : v < 0x10000) (hsurrogate : v < 0xD800 ∨ 0xDFFF < v) :
    [UInt8.ofNat (v / 4096 % 16 + 224), UInt8.ofNat (v / 64 % 64 + 128),
        UInt8.ofNat (v % 64 + 128)].foldl next ⟨chars, valid, none⟩ =
      ⟨chars.push (Char.ofNat v), valid, none⟩ := by
  have hhead : v / 4096 % 16 = v / 4096 := by omega
  obtain ⟨hlead, hfollow, hbits⟩ := follow?_triple (n := v / 4096) (by omega)
  have hjoin : (v / 4096 * 64 + v / 64 % 64) * 64 + v % 64 = v := by omega
  have hlow : (if v / 4096 = 0 then 0xA0 else 0x80 : UInt8).toNat ≤ v / 64 % 64 + 128 := by
    split
    · simp
      omega
    · simp
  have hhigh : v / 64 % 64 + 128 ≤ (if v / 4096 = 13 then 0x9F else 0xBF : UInt8).toNat := by
    split <;> (simp; omega)
  rw [hhead, List.foldl_cons, next_lead hlead hfollow, hbits, List.foldl_cons,
    next_more (by omega) hlow hhigh, List.foldl_cons,
    next_last (by omega) (by simp) (by simp; omega), hjoin]
  rfl

theorem foldl_next_quad (h : 0x10000 ≤ v) (hv : v < 0x110000) :
    [UInt8.ofNat (v / 262144 % 8 + 240), UInt8.ofNat (v / 4096 % 64 + 128),
        UInt8.ofNat (v / 64 % 64 + 128), UInt8.ofNat (v % 64 + 128)].foldl next
        ⟨chars, valid, none⟩ =
      ⟨chars.push (Char.ofNat v), valid, none⟩ := by
  have hhead : v / 262144 % 8 = v / 262144 := by omega
  obtain ⟨hlead, hfollow, hbits⟩ := follow?_quad (n := v / 262144) (by omega)
  have hjoin : ((v / 262144 * 64 + v / 4096 % 64) * 64 + v / 64 % 64) * 64 + v % 64 = v := by
    omega
  have hlow : (if v / 262144 = 0 then 0x90 else 0x80 : UInt8).toNat ≤ v / 4096 % 64 + 128 := by
    split
    · simp
      omega
    · simp
  have hhigh : v / 4096 % 64 + 128 ≤ (if v / 262144 = 4 then 0x8F else 0xBF : UInt8).toNat := by
    split <;> (simp; omega)
  rw [hhead, List.foldl_cons, next_lead hlead hfollow, hbits, List.foldl_cons,
    next_more (by omega) hlow hhigh, List.foldl_cons,
    next_more (by omega) (by simp) (by simp; omega), List.foldl_cons,
    next_last (by omega) (by simp) (by simp; omega), hjoin]
  rfl

end Steps

-- The bytes of a character are read as that character.
theorem foldl_next_encodeChar (chars : Array Char) (valid : Bool) (c : Char) :
    (String.utf8EncodeChar c).foldl next ⟨chars, valid, none⟩ =
      ⟨chars.push c, valid, none⟩ := by
  have hvalid : c.val.toNat < 0xD800 ∨ 0xDFFF < c.val.toNat ∧ c.val.toNat < 0x110000 := c.valid
  have hc : Char.ofNat c.val.toNat = c := Char.ofNat_toNat c
  unfold String.utf8EncodeChar
  generalize c.val.toNat = v at hvalid hc ⊢
  subst hc
  dsimp only
  by_cases hone : v ≤ 127
  · rw [if_pos hone]
    exact foldl_next_single (by omega)
  rw [if_neg hone]
  by_cases htwo : v ≤ 2047
  · rw [if_pos htwo]
    exact foldl_next_pair (by omega) (by omega)
  rw [if_neg htwo]
  by_cases hthree : v ≤ 65535
  · rw [if_pos hthree]
    exact foldl_next_triple (by omega) (by omega) (hvalid.imp_right And.left)
  · rw [if_neg hthree]
    exact foldl_next_quad (by omega) (by omega)

theorem toList_encode (s : String) : (encode s).toList = s.toList.flatMap String.utf8EncodeChar := by
  rw [encode, String.toUTF8_eq_toByteArray, ← String.utf8Encode_toList]
  simp [List.utf8Encode]

theorem foldl_next_flatMap (cs : List Char) (chars : Array Char) (valid : Bool) :
    (cs.flatMap String.utf8EncodeChar).foldl next ⟨chars, valid, none⟩ =
      ⟨chars ++ cs.toArray, valid, none⟩ := by
  induction cs generalizing chars with
  | nil => simp
  | cons c cs ih =>
    rw [List.flatMap_cons, List.foldl_append, foldl_next_encodeChar, ih]
    simp

-- Nothing of a text is lost.
theorem run_encode (s : String) : run (encode s) = ⟨s.toList.toArray, true, none⟩ := by
  have hfold := foldl_next_flatMap s.toList #[] true
  rw [← toList_encode, Array.foldl_toList, Array.empty_append] at hfold
  rw [run, hfold]

theorem decode_encode (s : String) : decode (encode s) = s := by
  rw [decode, run_encode]
  exact String.ofList_toList

end PodCompiler.Text.LossyUtf8
