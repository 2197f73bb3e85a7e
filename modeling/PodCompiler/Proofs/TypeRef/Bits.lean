import Mathlib.Logic.Basic
import PodCompiler.TypeRef.Basic

namespace PodCompiler.TypeRef

variable {t : TypeRef}

theorem or_and (a b c : UInt32) : (a ||| b) &&& c = (a &&& c) ||| (b &&& c) := by
  apply UInt32.toBitVec_inj.mp
  ext i hi
  simp [Bool.and_or_distrib_right]

theorem ite_and {p : Prop} [Decidable p] {x bits : UInt32} (h : x &&& bits = 0) :
    (if p then x else 0) &&& bits = 0 := by
  split
  · exact h
  · exact UInt32.zero_and

-- The bits that `bits` holds, of a type that is neither nullable nor generic as far as they tell.
theorem mask_and {bits : UInt32} (hnullable : nullableBit &&& bits = 0)
    (hgeneric : genericBit &&& bits = 0) (harray : ∀ s, primitiveBit s <<< 8 &&& bits = 0) :
    t.mask &&& bits =
      ((if t.isSys then sysBit t.name else 0) &&& bits) ||| (primitiveBit t.stack &&& bits) := by
  unfold mask
  rw [or_and, or_and, or_and, or_and, ite_and hnullable, ite_and hgeneric]
  cases t.arrayElement? with
  | none => simp
  | some elem => simp [harray]

-- One bit says that a type is the root of all errors, and only its name sets it.
theorem isErr_iff : t.isErr = true ↔ t.pod = "sys" ∧ t.name = "Err" := by
  have hprimitive : ∀ s, primitiveBit s &&& sysBit "Err" = 0 := by
    intro s
    cases s <;> rfl
  have harray : ∀ s, primitiveBit s <<< 8 &&& sysBit "Err" = 0 := by
    intro s
    cases s <;> rfl
  unfold isErr hasSysBit
  rw [mask_and rfl rfl harray, hprimitive, UInt32.or_zero, decide_eq_true_iff]
  unfold isSys
  by_cases hpod : t.pod = "sys"
  · by_cases hname : t.name = "Err"
    · simp [hpod, hname, sysBit]
    · simp only [hpod, hname, decide_true, if_true, and_false, iff_false, not_not]
      unfold sysBit
      split <;> first | rfl | exact absurd ‹_› hname
  · simp [hpod]

theorem sysBit_and_primitiveBits (name : String) : sysBit name &&& primitiveBits = 0 := by
  unfold sysBit
  split <;> rfl

theorem sysBit_and_arrayBits (name : String) : sysBit name &&& arrayBits = 0 := by
  unfold sysBit
  split <;> rfl

-- The bits of primitives are told by the stack type.
theorem mask_and_primitiveBits : t.mask &&& primitiveBits = primitiveBit t.stack := by
  have harray : ∀ s, primitiveBit s <<< 8 &&& primitiveBits = 0 := by
    intro s
    cases s <;> rfl
  rw [mask_and rfl rfl harray, ite_and (sysBit_and_primitiveBits _), UInt32.zero_or]
  cases t.stack <;> rfl

-- The bits of arrays are told by the type of the elements.
theorem mask_and_arrayBits :
    t.mask &&& arrayBits =
      match t.arrayElement? with
      | some elem => primitiveBit elem <<< 8
      | none => 0 := by
  have hprimitive : primitiveBit t.stack &&& arrayBits = 0 := by
    cases t.stack <;> rfl
  unfold mask
  rw [or_and, or_and, or_and, or_and, ite_and (x := nullableBit) rfl, ite_and (x := genericBit) rfl,
    ite_and (sysBit_and_arrayBits _), hprimitive, UInt32.zero_or, UInt32.zero_or, UInt32.zero_or]
  cases t.arrayElement? with
  | none => rfl
  | some elem => cases elem <;> rfl

-- A primitive is what is neither a reference nor nothing.
theorem isPrimitive_iff : t.isPrimitive = true ↔ t.stack ≠ .obj ∧ t.stack ≠ .void := by
  unfold isPrimitive
  rw [mask_and_primitiveBits]
  cases t.stack <;> decide

end PodCompiler.TypeRef
