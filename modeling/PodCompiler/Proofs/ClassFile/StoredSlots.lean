import PodCompiler.Proofs.ClassFile.CodeWalk

namespace PodCompiler.ClassFile

namespace Op

-- The opcode that adds to a slot.
def iinc : UInt8 := 0x84

-- What an opcode with a slot behind it stores into.
def storedAt (op : UInt8) (slot : Nat) : List Nat :=
  if op = lstore ∨ op = dstore then [slot, slot + 1]
  else if op = istore ∨ op = fstore ∨ op = astore ∨ op = iinc then [slot]
  else []

-- What an opcode that fixes its slot stores into: there are four for each kind of value.
def storedBy (op : UInt8) : List Nat :=
  if istore0 ≤ op ∧ op ≤ astore0 + 3 then
    storedAt (istore + (op - istore0) / 4) ((op - istore0) % 4).toNat
  else []

-- The slots that the instruction at `pos` stores into.
def stored (code : Bytes) (pos : Nat) : List Nat :=
  let op := code.getD pos nop
  if op = wide then storedAt (code.getD (pos + 1) nop) (word2 code (pos + 2)).toNat
  else storedBy op ++ storedAt op (code.getD (pos + 1) nop).toNat

-- Whether an opcode stores into a slot.
def isStore (op : UInt8) : Bool :=
  !(storedBy op ++ storedAt op 0).isEmpty

section Stored

variable {code : Bytes} {pos : Nat} {op : UInt8}

-- Whether an opcode stores does not hang on the slot.
theorem storedAt_eq_nil (h : storedAt op 0 = []) (slot : Nat) : storedAt op slot = [] := by
  unfold storedAt at h ⊢
  repeat' split at h
  · cases h
  · cases h
  · rename_i hwide hone
    rw [if_neg hwide, if_neg hone]

theorem isStore_eq_false_iff : isStore op = false ↔ storedBy op = [] ∧ storedAt op 0 = [] := by
  rw [isStore, Bool.not_eq_false', List.isEmpty_iff, List.append_eq_nil_iff]

theorem stored_of_not_isStore (hop : code[pos]? = some op) (h : isStore op = false)
    (hwide : op ≠ wide) : stored code pos = [] := by
  obtain ⟨hby, hat⟩ := isStore_eq_false_iff.mp h
  unfold stored
  rw [getD_of_getElem? hop]
  dsimp only
  rw [if_neg hwide, hby, storedAt_eq_nil hat, List.nil_append]

theorem ne_wide_of_fixed {n : Nat} (h : fixedLength? op = some n) : op ≠ wide := by
  rintro rfl
  cases h

-- An opcode that fixes its slot.
theorem stored_compact (hop : code[pos]? = some op) (hwide : op ≠ wide)
    (h : storedAt op 0 = []) : stored code pos = storedBy op := by
  unfold stored
  rw [getD_of_getElem? hop]
  dsimp only
  rw [if_neg hwide, storedAt_eq_nil h, List.append_nil]

-- An opcode with a slot behind it in one byte, and in two.
theorem stored_general {slot : UInt8} (hop : code[pos]? = some op)
    (hslot : code[pos + 1]? = some slot) (hwide : op ≠ wide) (h : storedBy op = []) :
    stored code pos = storedAt op slot.toNat := by
  unfold stored
  rw [getD_of_getElem? hop, getD_of_getElem? hslot]
  dsimp only
  rw [if_neg hwide, h, List.nil_append]

theorem stored_wide {slot : UInt16} (hwide : code[pos]? = some wide)
    (hop : code[pos + 1]? = some op) (hslot : code.be2? (pos + 2) = some slot) :
    stored code pos = storedAt op slot.toNat := by
  unfold stored
  rw [getD_of_getElem? hwide, getD_of_getElem? hop, word2, hslot]
  rfl

end Stored

end Op

end PodCompiler.ClassFile
