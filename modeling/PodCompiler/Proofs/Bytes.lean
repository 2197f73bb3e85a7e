import Mathlib
import PodCompiler.Bytes

namespace PodCompiler.Bytes

-- A number above its low bits and those bits, put together.
theorem shiftLeft_or_eq_add (k : Nat) (a : Nat) {b : Nat} (hb : b < 2 ^ k) :
    a <<< k ||| b = a * 2 ^ k + b := by
  rw [← Nat.shiftLeft_add_eq_or_of_lt hb, Nat.shiftLeft_eq]

theorem join2_be2 (v : UInt16) : join2 (v >>> 8).toUInt8 v.toUInt8 = v := by
  apply UInt16.toNat_inj.mp
  have hv := v.toNat_lt
  have hhigh : (v.toNat >>> 8 % 2 ^ 8) <<< 8 % 2 ^ 16 = (v.toNat / 2 ^ 8) <<< 8 := by
    simp only [Nat.shiftLeft_eq, Nat.shiftRight_eq_div_pow]
    omega
  simp only [join2, UInt16.toNat_or, UInt16.toNat_shiftLeft, UInt8.toNat_toUInt16,
    UInt16.toNat_toUInt8, UInt16.toNat_shiftRight, UInt16.reduceToNat, Nat.reduceMod]
  rw [hhigh, shiftLeft_or_eq_add 8 _ (by omega)]
  omega

theorem be2_join2 (x y : UInt8) : (join2 x y >>> 8).toUInt8 = x ∧ (join2 x y).toUInt8 = y := by
  have hx := x.toNat_lt
  have hy := y.toNat_lt
  have hjoin : (join2 x y).toNat = x.toNat * 2 ^ 8 + y.toNat := by
    have hhigh : x.toNat <<< 8 % 2 ^ 16 = x.toNat <<< 8 := by
      simp only [Nat.shiftLeft_eq]
      omega
    simp only [join2, UInt16.toNat_or, UInt16.toNat_shiftLeft, UInt8.toNat_toUInt16,
      UInt16.reduceToNat, Nat.reduceMod]
    rw [hhigh, shiftLeft_or_eq_add 8 _ hy]
  constructor <;>
    apply UInt8.toNat_inj.mp <;>
    simp only [UInt16.toNat_toUInt8, UInt16.toNat_shiftRight, UInt16.reduceToNat, Nat.reduceMod,
      Nat.shiftRight_eq_div_pow, hjoin] <;>
    omega

theorem join4_be4 (v : UInt32) :
    join4 (v >>> 24).toUInt8 (v >>> 16).toUInt8 (v >>> 8).toUInt8 v.toUInt8 = v := by
  apply UInt32.toNat_inj.mp
  have hv := v.toNat_lt
  have hbyte : ∀ k, k ≤ 24 →
      (v.toNat >>> k % 2 ^ 8) <<< k % 2 ^ 32 = (v.toNat / 2 ^ k % 2 ^ 8) <<< k := by
    intro k hk
    have hpow : 2 ^ k ≤ 2 ^ 24 := Nat.pow_le_pow_right (by decide) hk
    have hmod : v.toNat / 2 ^ k % 2 ^ 8 < 2 ^ 8 := Nat.mod_lt _ (by decide)
    rw [Nat.shiftRight_eq_div_pow, Nat.shiftLeft_eq]
    apply Nat.mod_eq_of_lt
    calc v.toNat / 2 ^ k % 2 ^ 8 * 2 ^ k < 2 ^ 8 * 2 ^ k :=
          Nat.mul_lt_mul_of_pos_right hmod (Nat.two_pow_pos k)
      _ ≤ 2 ^ 8 * 2 ^ 24 := Nat.mul_le_mul_left _ hpow
  simp only [join4, UInt32.toNat_or, UInt32.toNat_shiftLeft, UInt8.toNat_toUInt32,
    UInt32.toNat_toUInt8, UInt32.toNat_shiftRight, UInt32.reduceToNat, Nat.reduceMod]
  rw [hbyte 24 (by decide), hbyte 16 (by decide), hbyte 8 (by decide)]
  -- From the left, each further byte stands below the lowest bit so far.
  have h16 : (v.toNat / 2 ^ 24 % 2 ^ 8) <<< 24 ||| (v.toNat / 2 ^ 16 % 2 ^ 8) <<< 16 =
      (v.toNat / 2 ^ 16) <<< 16 := by
    rw [shiftLeft_or_eq_add 24 _ (by simp only [Nat.shiftLeft_eq]; omega)]
    simp only [Nat.shiftLeft_eq]
    omega
  have h8 : (v.toNat / 2 ^ 16) <<< 16 ||| (v.toNat / 2 ^ 8 % 2 ^ 8) <<< 8 =
      (v.toNat / 2 ^ 8) <<< 8 := by
    rw [shiftLeft_or_eq_add 16 _ (by simp only [Nat.shiftLeft_eq]; omega)]
    simp only [Nat.shiftLeft_eq]
    omega
  rw [h16, h8, shiftLeft_or_eq_add 8 _ (by omega)]
  omega

-- A number of 31 bits is the same as one of 32 bits with a sign.
theorem toInt_toUInt32 {n : Nat} (h : n < 2 ^ 31) : n.toUInt32.toInt32.toInt = n := by
  have hofNat : n.toUInt32.toInt32 = Int32.ofNat n := rfl
  rw [hofNat, Int32.toInt_ofNat_of_lt h]

-- The same for 15 and 16 bits.
theorem toInt_toInt16 {v : UInt16} (h : v.toNat < 2 ^ 15) : v.toInt16.toInt = v.toNat := by
  have htwice : 2 * v.toBitVec.toNat < 2 ^ 16 := by
    change 2 * v.toNat < 2 ^ 16
    omega
  exact BitVec.toInt_eq_toNat_of_lt htwice

-- The bytes of `b` from `pos` on are `bs`.
def Spells (b : Bytes) (pos : Nat) (bs : List UInt8) : Prop :=
  ∀ i < bs.length, b[pos + i]? = bs[i]?

instance (b : Bytes) (pos : Nat) (bs : List UInt8) : Decidable (b.Spells pos bs) :=
  inferInstanceAs (Decidable (∀ i < bs.length, b[pos + i]? = bs[i]?))

theorem spells_nil (b : Bytes) (pos : Nat) : b.Spells pos [] := by
  intro i hi
  simp at hi

theorem spells_cons {b : Bytes} {pos : Nat} {x : UInt8} {xs : List UInt8} :
    b.Spells pos (x :: xs) ↔ b[pos]? = some x ∧ b.Spells (pos + 1) xs := by
  constructor
  · intro h
    refine ⟨by simpa using h 0 (by simp), ?_⟩
    intro i hi
    have hs := h (i + 1) (by simpa using hi)
    rwa [List.getElem?_cons_succ, ← Nat.add_assoc, Nat.add_right_comm] at hs
  · rintro ⟨hx, hxs⟩ i hi
    cases i with
    | zero => simpa using hx
    | succ i =>
      have hs := hxs i (by simpa using hi)
      rwa [Nat.add_right_comm, Nat.add_assoc, ← List.getElem?_cons_succ (a := x)] at hs

theorem spells_append {b : Bytes} {pos : Nat} {xs ys : List UInt8} :
    b.Spells pos (xs ++ ys) ↔ b.Spells pos xs ∧ b.Spells (pos + xs.length) ys := by
  induction xs generalizing pos with
  | nil => simp [spells_nil]
  | cons x xs ih =>
    rw [List.cons_append, spells_cons, spells_cons, ih, and_assoc, List.length_cons,
      Nat.add_right_comm, Nat.add_assoc]

theorem be2?_of_spells {b : Bytes} {pos : Nat} {v : UInt16} (h : b.Spells pos (be2 v).toList) :
    b.be2? pos = some v := by
  simp only [be2, spells_cons] at h
  obtain ⟨h0, h1, -⟩ := h
  obtain ⟨hp, e0⟩ := Array.getElem?_eq_some_iff.mp h0
  obtain ⟨hq, e1⟩ := Array.getElem?_eq_some_iff.mp h1
  rw [be2?, dif_pos (by omega), e0, e1, join2_be2]

theorem be4?_of_spells {b : Bytes} {pos : Nat} {v : UInt32} (h : b.Spells pos (be4 v).toList) :
    b.be4? pos = some v := by
  simp only [be4, spells_cons] at h
  obtain ⟨h0, h1, h2, h3, -⟩ := h
  obtain ⟨_, e0⟩ := Array.getElem?_eq_some_iff.mp h0
  obtain ⟨_, e1⟩ := Array.getElem?_eq_some_iff.mp h1
  obtain ⟨_, e2⟩ := Array.getElem?_eq_some_iff.mp h2
  obtain ⟨hq, e3⟩ := Array.getElem?_eq_some_iff.mp h3
  rw [be4?, dif_pos (by omega), e0, e1, e2, e3, join4_be4]

-- The same words, least significant byte first.
theorem le2?_of_spells {b : Bytes} {pos : Nat} {v : UInt16} (h : b.Spells pos (le2 v).toList) :
    b.le2? pos = some v := by
  simp only [le2, spells_cons] at h
  obtain ⟨h0, h1, -⟩ := h
  obtain ⟨hp, e0⟩ := Array.getElem?_eq_some_iff.mp h0
  obtain ⟨hq, e1⟩ := Array.getElem?_eq_some_iff.mp h1
  rw [le2?, dif_pos (by omega), e0, e1, join2_be2]

theorem le4?_of_spells {b : Bytes} {pos : Nat} {v : UInt32} (h : b.Spells pos (le4 v).toList) :
    b.le4? pos = some v := by
  simp only [le4, spells_cons] at h
  obtain ⟨h0, h1, h2, h3, -⟩ := h
  obtain ⟨_, e0⟩ := Array.getElem?_eq_some_iff.mp h0
  obtain ⟨_, e1⟩ := Array.getElem?_eq_some_iff.mp h1
  obtain ⟨_, e2⟩ := Array.getElem?_eq_some_iff.mp h2
  obtain ⟨hq, e3⟩ := Array.getElem?_eq_some_iff.mp h3
  rw [le4?, dif_pos (by omega), e0, e1, e2, e3, join4_be4]

-- A run ends where the bytes end, or before.
theorem Spells.length_le {b : Bytes} {pos : Nat} {bs : List UInt8} (h : b.Spells pos bs)
    (hpos : pos ≤ b.size) : pos + bs.length ≤ b.size := by
  cases hn : bs.length with
  | zero => exact hpos
  | succ n =>
    have hlast := h n (by omega)
    rw [List.getElem?_eq_getElem (by omega)] at hlast
    obtain ⟨hlt, -⟩ := Array.getElem?_eq_some_iff.mp hlast
    omega

theorem slice?_of_spells {b run : Bytes} {pos : Nat} (h : b.Spells pos run.toList)
    (hpos : pos ≤ b.size) : b.slice? pos run.size = some run := by
  have hsize := h.length_le hpos
  rw [Array.length_toList] at hsize
  rw [slice?, if_pos hsize, Option.some.injEq]
  refine Array.ext_getElem? fun i => ?_
  rw [Array.getElem?_extract]
  by_cases hi : i < run.size
  · rw [if_pos (by omega), h i (by simpa using hi), Array.getElem?_toList]
  · rw [if_neg (by omega), Array.getElem?_eq_none (by omega)]

-- A word depends on its own bytes only.
theorem be2?_eq (b : Bytes) (pos : Nat) :
    b.be2? pos = (b[pos]?).bind fun x => (b[pos + 1]?).map fun y => join2 x y := by
  unfold be2?
  by_cases h : pos + 2 ≤ b.size
  · rw [dif_pos h, Array.getElem?_eq_getElem (by omega), Array.getElem?_eq_getElem (by omega)]
    rfl
  · rw [dif_neg h, Array.getElem?_eq_none (by omega : b.size ≤ pos + 1)]
    cases b[pos]? <;> rfl

theorem be4?_eq (b : Bytes) (pos : Nat) :
    b.be4? pos = (b[pos]?).bind fun x => (b[pos + 1]?).bind fun y =>
      (b[pos + 2]?).bind fun z => (b[pos + 3]?).map fun w => join4 x y z w := by
  unfold be4?
  by_cases h : pos + 4 ≤ b.size
  · rw [dif_pos h, Array.getElem?_eq_getElem (by omega), Array.getElem?_eq_getElem (by omega),
      Array.getElem?_eq_getElem (by omega), Array.getElem?_eq_getElem (by omega)]
    rfl
  · rw [dif_neg h, Array.getElem?_eq_none (by omega : b.size ≤ pos + 3)]
    cases b[pos]? <;> cases b[pos + 1]? <;> cases b[pos + 2]? <;> rfl

-- Bytes that are there already stay where they are when more are appended.
theorem Spells.append_right {b : Bytes} {pos : Nat} {bs : List UInt8} (h : b.Spells pos bs)
    (more : Bytes) : (b ++ more).Spells pos bs := by
  intro i hi
  have hs := h i hi
  rw [List.getElem?_eq_getElem hi] at hs ⊢
  obtain ⟨hlt, _⟩ := Array.getElem?_eq_some_iff.mp hs
  rw [Array.getElem?_append_left hlt, hs]

theorem spells_append_self (b more : Bytes) : (b ++ more).Spells b.size more.toList := by
  intro i _
  rw [Array.getElem?_append_right (by omega), Nat.add_sub_cancel_left, Array.getElem?_toList]

-- Writing over bytes outside of a run leaves the run as it is.
theorem Spells.congr {b b' : Bytes} {pos : Nat} {bs : List UInt8} (h : b.Spells pos bs)
    (hb : ∀ k, pos ≤ k → k < pos + bs.length → b'[k]? = b[k]?) : b'.Spells pos bs := by
  intro i hi
  rw [hb (pos + i) (by omega) (by omega), h i hi]

theorem getElem?_set2_of_ne {b : Bytes} {pos i : Nat} {v : UInt16}
    (h : i < pos ∨ pos + 2 ≤ i) : (b.set2 pos v)[i]? = b[i]? := by
  rw [set2, Array.getElem?_setIfInBounds_ne (by omega), Array.getElem?_setIfInBounds_ne (by omega)]

theorem getElem?_set4_of_ne {b : Bytes} {pos i : Nat} {v : UInt32}
    (h : i < pos ∨ pos + 4 ≤ i) : (b.set4 pos v)[i]? = b[i]? := by
  rw [set4, getElem?_set2_of_ne (by omega), getElem?_set2_of_ne (by omega)]

theorem spells_set2 {b : Bytes} {pos : Nat} (v : UInt16) (h : pos + 2 ≤ b.size) :
    (b.set2 pos v).Spells pos (be2 v).toList := by
  simp only [be2, spells_cons]
  refine ⟨?_, ?_, spells_nil _ _⟩
  · rw [set2, Array.getElem?_setIfInBounds_ne (by omega),
      Array.getElem?_setIfInBounds_self_of_lt (by omega)]
  · rw [set2, Array.getElem?_setIfInBounds_self_of_lt (by simp; omega)]

theorem be4_eq_be2 (v : UInt32) :
    (be4 v).toList = (be2 (v >>> 16).toUInt16).toList ++ (be2 v.toUInt16).toList := by
  have h24 : (v >>> 24).toUInt8 = ((v >>> 16).toUInt16 >>> 8).toUInt8 := by
    apply UInt8.toNat_inj.mp
    simp only [UInt32.toNat_toUInt8, UInt32.toNat_shiftRight, UInt16.toNat_toUInt8,
      UInt16.toNat_shiftRight, UInt32.toNat_toUInt16, UInt32.reduceToNat, UInt16.reduceToNat,
      Nat.reduceMod, Nat.shiftRight_eq_div_pow]
    omega
  have h8 : (v >>> 8).toUInt8 = (v.toUInt16 >>> 8).toUInt8 := by
    apply UInt8.toNat_inj.mp
    simp only [UInt32.toNat_toUInt8, UInt32.toNat_shiftRight, UInt16.toNat_toUInt8,
      UInt16.toNat_shiftRight, UInt32.toNat_toUInt16, UInt32.reduceToNat, UInt16.reduceToNat,
      Nat.reduceMod, Nat.shiftRight_eq_div_pow]
    omega
  simp [be4, be2, h24, h8]

theorem spells_set4 {b : Bytes} {pos : Nat} (v : UInt32) (h : pos + 4 ≤ b.size) :
    (b.set4 pos v).Spells pos (be4 v).toList := by
  rw [be4_eq_be2, spells_append]
  have hlow : ((b.set2 pos (v >>> 16).toUInt16).set2 (pos + 2) v.toUInt16).Spells (pos + 2)
      (be2 v.toUInt16).toList := spells_set2 v.toUInt16 (by simp; omega)
  refine ⟨?_, by simpa [set4] using hlow⟩
  refine (spells_set2 (v >>> 16).toUInt16 (by omega) : (b.set2 pos _).Spells pos _).congr ?_
  intro k _ hk
  rw [set4]
  apply getElem?_set2_of_ne
  simp at hk
  omega

-- A word of eight bytes is two of four.
theorem be8_eq_be4 (v : UInt64) :
    (be8 v).toList = (be4 (v >>> 32).toUInt32).toList ++ (be4 v.toUInt32).toList := by
  simp only [be8, be4, List.cons_append, List.nil_append, List.cons.injEq, and_true]
  refine ⟨?_, ?_, ?_, ?_, ?_, ?_, ?_, ?_⟩
  all_goals
    apply UInt8.toNat_inj.mp
    simp only [UInt64.toNat_toUInt8, UInt32.toNat_toUInt8, UInt64.toNat_shiftRight,
      UInt32.toNat_shiftRight, UInt64.toNat_toUInt32, UInt64.reduceToNat, UInt32.reduceToNat,
      Nat.reduceMod, Nat.shiftRight_eq_div_pow]
    omega

theorem join8_be4 (v : UInt64) : join8 (v >>> 32).toUInt32 v.toUInt32 = v := by
  apply UInt64.toNat_inj.mp
  have hv := v.toNat_lt
  have hhigh : (v.toNat >>> 32 % 2 ^ 32) <<< 32 % 2 ^ 64 = (v.toNat / 2 ^ 32) <<< 32 := by
    simp only [Nat.shiftLeft_eq, Nat.shiftRight_eq_div_pow]
    omega
  simp only [join8, UInt64.toNat_or, UInt64.toNat_shiftLeft, UInt32.toNat_toUInt64,
    UInt64.toNat_toUInt32, UInt64.toNat_shiftRight, UInt64.reduceToNat, Nat.reduceMod]
  rw [hhigh, shiftLeft_or_eq_add 32 _ (by omega)]
  omega

theorem be8?_of_spells {b : Bytes} {pos : Nat} {v : UInt64} (h : b.Spells pos (be8 v).toList) :
    b.be8? pos = some v := by
  rw [be8_eq_be4, spells_append] at h
  obtain ⟨hhigh, hlow⟩ := h
  have hlow' : b.be4? (pos + 4) = some v.toUInt32 := be4?_of_spells hlow
  simp only [be8?, be4?_of_spells hhigh, hlow', join8_be4]

end PodCompiler.Bytes
