import PodCompiler.Proofs.ClassFile.Descriptor
import PodCompiler.Proofs.TypeRef.Bits

namespace PodCompiler

theorem StackType.letter_injective : Function.Injective StackType.letter := by
  intro s s' heq
  cases s <;> cases s' <;> first | rfl | exact absurd heq (by decide)

namespace TypeRef

variable {t : TypeRef}

-- The number of bits that are set in a word.
def bitCount (w : UInt32) : Nat :=
  (List.range 32).countP w.toNat.testBit

-- The slots that the virtual machine gives to a value, by the first letter of its descriptor.
def descriptorSlots (desc : String) : Nat :=
  match desc.toList.head? with
  | some 'V' => 0
  | some 'J' | some 'D' => 2
  | _ => 1

theorem bitCount_primitiveBit (s : StackType) :
    bitCount (primitiveBit s) = if s = .obj ∨ s = .void then 0 else 1 := by
  cases s <;> decide

theorem bitCount_arrayBit (s : StackType) : bitCount (primitiveBit s <<< 8) ≤ 1 := by
  cases s <;> decide

-- The elements of an array are told by its bit.
theorem arrayBit_inj {s s' : StackType} (hs : primitiveBit s ≠ 0)
    (heq : primitiveBit s <<< 8 = primitiveBit s' <<< 8) : s = s' := by
  cases s <;> cases s' <;>
    first | rfl | exact absurd heq (by decide) | exact absurd hs (by decide)

theorem primitiveBit_of_arrayElement {e : StackType} (h : t.arrayElement? = some e) :
    primitiveBit e ≠ 0 := by
  unfold arrayElement? at h
  split at h
  · unfold JavaName.arrayElement? at h
    split at h <;> cases h <;> decide
  · cases h

theorem bitCount_mask_arrayBits : bitCount (t.mask &&& arrayBits) ≤ 1 := by
  rw [mask_and_arrayBits]
  split
  · exact bitCount_arrayBit _
  · decide

theorem arrayElement_iff_bit (e : StackType) :
    t.arrayElement? = some e ↔
      primitiveBit e ≠ 0 ∧ t.mask &&& arrayBits = primitiveBit e <<< 8 := by
  rw [mask_and_arrayBits]
  constructor
  · intro h
    rw [h]
    exact ⟨primitiveBit_of_arrayElement h, rfl⟩
  · rintro ⟨hbit, heq⟩
    cases harray : t.arrayElement? with
    | none =>
      rw [harray] at heq
      cases e <;> first | exact absurd heq (by decide) | exact absurd hbit (by decide)
    | some e' =>
      rw [harray] at heq
      rw [arrayBit_inj hbit heq.symm]

theorem package_interop : JavaName.package "[java]fanx.interop" = "fanx.interop" := by
  unfold JavaName.package
  rw [if_pos (String.startsWith_string_iff.mpr (by decide))]
  rfl

-- In the package of arrays, a class that is no array has a name of more than two characters.
theorem length_ofFfi_interop {name : String} (h : JavaName.arrayElement? name = none) :
    2 < (JavaName.ofFfi "[java]fanx.interop" name).toList.length := by
  have hpath : 2 < (JavaName.path "fanx.interop").toList.length := by
    rw [JavaName.path, String.toList_map, List.length_map]
    decide
  unfold JavaName.ofFfi
  simp only [package_interop]
  rw [if_neg (by decide), if_pos trivial, h]
  dsimp only
  split
  · simp only [String.toList_append, List.length_append]
    rw [if_neg (by decide), String.toList_append, List.length_append]
    omega
  · rw [if_neg (by decide)]
    simp only [String.toList_append, List.length_append]
    omega

theorem ofFfi_array {name : String} {e : StackType} (h : JavaName.arrayElement? name = some e) :
    JavaName.ofFfi "[java]fanx.interop" name = "[" ++ String.singleton e.letter := by
  unfold JavaName.ofFfi
  simp only [package_interop]
  rw [if_neg (by decide), if_pos trivial, h]

theorem jname_of_interop (h : t.pod = "[java]fanx.interop") :
    t.jname = JavaName.ofFfi "[java]fanx.interop" t.name := by
  unfold jname JavaName.ofType
  rw [h, if_neg (by decide)]
  exact if_pos (String.startsWith_string_iff.mpr (by decide))

-- An array of primitives is told by its name as well.
theorem arrayElement_iff_jname (e : StackType) :
    t.arrayElement? = some e ↔
      t.pod = "[java]fanx.interop" ∧ t.jname = "[" ++ String.singleton e.letter := by
  unfold arrayElement?
  by_cases hpod : t.pod = "[java]fanx.interop"
  · rw [if_pos hpod, jname_of_interop hpod]
    simp only [hpod, true_and]
    cases harray : JavaName.arrayElement? t.name with
    | none =>
      have hlen := length_ofFfi_interop harray
      constructor
      · intro h
        cases h
      · intro h
        rw [h] at hlen
        exact absurd hlen (by simp)
    | some e' =>
      rw [ofFfi_array harray, String.append_right_inj, String.singleton_inj,
        StackType.letter_injective.eq_iff, Option.some_inj]
  · rw [if_neg hpod]
    simp [hpod]

-- A reference is described by its name as it stands or by its name as that of a class.
theorem jsig_of_reference (h : t.stack = .obj) :
    t.jname.startsWith "[" = true ∧ t.jsig = t.jname ∨ t.jsig = "L" ++ t.jname ++ ";" := by
  unfold jsig
  dsimp only
  rw [h]
  by_cases hstart : t.jname.startsWith "[" = true
  · exact .inl ⟨hstart, if_pos (by simp [hstart])⟩
  · refine .inr ?_
    rw [if_neg (by simpa using hstart)]
    rfl

-- A nullable primitive of `sys` is a reference to the class that boxes it.
theorem boxed_of_nullable (hpod : t.pod = "sys") (hnullable : t.isNullable = true) {s : StackType}
    (h : sysPrimitive? t.name = some s) :
    t.stack = .obj ∧ s.boxing?.map (·.1) = some t.jname := by
  have hsys : t.isSys = true := decide_eq_true hpod
  unfold stack jname JavaName.ofType
  rw [hpod, if_neg (by decide), if_pos hsys, hnullable, if_pos rfl, if_pos rfl]
  unfold sysPrimitive? at h
  split at h
  · rename_i hname
    cases h
    rw [hname]
    exact ⟨rfl, rfl⟩
  · rename_i hname
    cases h
    rw [hname]
    exact ⟨rfl, rfl⟩
  · rename_i hname
    cases h
    rw [hname]
    exact ⟨rfl, rfl⟩
  · cases h

theorem descriptorSlots_jsig : descriptorSlots t.jsig = t.stack.slots := by
  unfold descriptorSlots
  by_cases h : t.stack = .obj
  · obtain ⟨rest, hrest | hrest⟩ := jsig_of_obj h
    · rw [hrest, h]
      rfl
    · rw [hrest, h]
      rfl
  · rw [jsig_of_stack h]
    cases hstack : t.stack with
    | obj => exact absurd hstack h
    | _ => rfl

-- What the tables of types say together. A type is a primitive by its bits if it is one by its stack
-- type, an array by its bits if it is one by its name, and a reference by its descriptor if it is one
-- by its stack type.
structure TablesAgree (t : TypeRef) : Prop where
  primitive : t.stack ≠ .obj ∧ t.stack ≠ .void ↔ t.mask &&& primitiveBits ≠ 0
  onePrimitive : t.mask &&& primitiveBits ≠ 0 → bitCount (t.mask &&& primitiveBits) = 1
  letter : t.stack ≠ .obj →
    t.jname = String.singleton t.stack.letter ∧ t.jsig = String.singleton t.stack.letter
  reference : t.stack = .obj →
    t.jname.startsWith "[" = true ∧ t.jsig = t.jname ∨ t.jsig = "L" ++ t.jname ++ ";"
  oneArray : bitCount (t.mask &&& arrayBits) ≤ 1
  arrayBit : ∀ e, t.arrayElement? = some e ↔
    primitiveBit e ≠ 0 ∧ t.mask &&& arrayBits = primitiveBit e <<< 8
  arrayName : ∀ e, t.arrayElement? = some e ↔
    t.pod = "[java]fanx.interop" ∧ t.jname = "[" ++ String.singleton e.letter
  nullable : t.pod = "sys" → t.isNullable = true → ∀ s, sysPrimitive? t.name = some s →
    t.stack = .obj ∧ s.boxing?.map (·.1) = some t.jname
  slots : descriptorSlots t.jsig = t.stack.slots

theorem tablesAgree (t : TypeRef) : t.TablesAgree where
  primitive := by
    rw [mask_and_primitiveBits]
    cases t.stack <;> decide
  onePrimitive := by
    rw [mask_and_primitiveBits, bitCount_primitiveBit]
    cases t.stack <;> decide
  letter h := ⟨jname_of_stack h, jsig_of_stack h⟩
  reference := jsig_of_reference
  oneArray := bitCount_mask_arrayBits
  arrayBit := arrayElement_iff_bit
  arrayName := arrayElement_iff_jname
  nullable hpod hnullable _ h := boxed_of_nullable hpod hnullable h
  slots := descriptorSlots_jsig

end TypeRef

end PodCompiler
