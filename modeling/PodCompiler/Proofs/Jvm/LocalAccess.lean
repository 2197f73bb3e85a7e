import PodCompiler.Proofs.ClassFile.StoredSlots
import PodCompiler.Proofs.Jvm.Machine

namespace PodCompiler.Jvm

open ClassFile
open ClassFile.Op

-- The locals that a value takes.
def Kind.width (k : Kind) : Nat :=
  if k.isWide then 2 else 1

theorem Kind.width_ofStack (t : StackType) : (Kind.ofStack t).width = t.width := by
  cases t <;> rfl

-- The opcodes that have their local behind them.
def generalKind? (op : UInt8) : Option Kind :=
  if iload ≤ op ∧ op ≤ aload then Kind.all[(op - iload).toNat]?
  else if istore ≤ op ∧ op ≤ astore then Kind.all[(op - istore).toNat]?
  else if op = Op.ret then some .ref
  else if op = iinc then some .int
  else none

-- The opcodes that fix their local: there are four for each kind of value.
def compact? (op : UInt8) : Option (Kind × Nat) :=
  let row (first : UInt8) : Option (Kind × Nat) :=
    Kind.all[(op - first).toNat / 4]?.map fun k => (k, (op - first).toNat % 4)
  if iload0 ≤ op ∧ op ≤ aload0 + 3 then row iload0
  else if istore0 ≤ op ∧ op ≤ astore0 + 3 then row istore0
  else none

-- The local of the instruction at `pos`.
def accessed? (code : Bytes) (pos : Nat) : Option (Kind × Nat) :=
  let op := code.getD pos nop
  if op = wide then
    (generalKind? (code.getD (pos + 1) nop)).map fun k => (k, (word2 code (pos + 2)).toNat)
  else
    (compact? op).or ((generalKind? op).map fun k => (k, (code.getD (pos + 1) nop).toNat))

-- Whether an opcode has a local.
def namesLocal (op : UInt8) : Bool :=
  (compact? op).isSome || (generalKind? op).isSome

section Accessed

variable {code : Bytes} {pos : Nat} {op : UInt8}

theorem namesLocal_eq_false_iff :
    namesLocal op = false ↔ compact? op = none ∧ generalKind? op = none := by
  rw [namesLocal, Bool.or_eq_false_iff, Option.isSome_eq_false_iff, Option.isSome_eq_false_iff,
    Option.isNone_iff_eq_none, Option.isNone_iff_eq_none]

-- What stores into a local has one.
theorem isStore_of_not_namesLocal (h : namesLocal op = false) : isStore op = false := by
  revert op
  decide +kernel

theorem not_namesLocal_of_isBranch (h : isBranch op = true) : namesLocal op = false := by
  revert op
  decide +kernel

theorem accessed?_of_not_namesLocal (hop : code[pos]? = some op) (h : namesLocal op = false)
    (hwide : op ≠ wide) : accessed? code pos = none := by
  obtain ⟨hcompact, hgeneral⟩ := namesLocal_eq_false_iff.mp h
  unfold accessed?
  rw [getD_of_getElem? hop]
  dsimp only
  rw [if_neg hwide, hcompact, hgeneral]
  rfl

-- An opcode that fixes its local.
theorem accessed?_compact {x : Kind × Nat} (hop : code[pos]? = some op) (hwide : op ≠ wide)
    (h : compact? op = some x) : accessed? code pos = some x := by
  unfold accessed?
  rw [getD_of_getElem? hop]
  dsimp only
  rw [if_neg hwide, h, Option.some_or]

-- An opcode with its local behind it in one byte, and in two.
theorem accessed?_general {slot : UInt8} (hop : code[pos]? = some op)
    (hslot : code[pos + 1]? = some slot) (hwide : op ≠ wide) (hcompact : compact? op = none) :
    accessed? code pos = (generalKind? op).map fun k => (k, slot.toNat) := by
  unfold accessed?
  rw [getD_of_getElem? hop, getD_of_getElem? hslot]
  dsimp only
  rw [if_neg hwide, hcompact, Option.none_or]

theorem accessed?_wide {slot : UInt16} (hwide : code[pos]? = some wide)
    (hop : code[pos + 1]? = some op) (hslot : code.be2? (pos + 2) = some slot) :
    accessed? code pos = (generalKind? op).map fun k => (k, slot.toNat) := by
  unfold accessed?
  rw [getD_of_getElem? hwide, getD_of_getElem? hop, word2, hslot]
  rfl

-- An opcode with one byte behind it does not fix its local.
theorem compact?_of_fixed (h : fixedLength? op = some 2) : compact? op = none := by
  revert op
  decide +kernel

end Accessed

end PodCompiler.Jvm
