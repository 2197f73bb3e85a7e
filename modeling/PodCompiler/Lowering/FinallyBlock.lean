import Std.Data.HashMap
import PodCompiler.Instruction.Basic
import PodCompiler.Lowering.Frame
import PodCompiler.Lowering.OpenClass

namespace PodCompiler.Lowering

open Pod (FormatError)

-- The slots given out so far, behind those of the frame. `pending` holds the blocks of which the
-- start is lowered and the end is not.
structure FinallySlots where
  subroutine : Option (UInt16 × UInt16) := none
  exceptions : Std.HashMap Nat UInt16 := ∅
  pending : List Nat := []
  extra : Nat := 0

namespace FinallySlots

-- The next free slot.
def alloc (f : Frame) (s : FinallySlots) : Except LoweringError (UInt16 × FinallySlots) :=
  let slot := f.maxLocals + s.extra
  if slot ≤ 0xFFFF ∧ s.extra < 0xFFFF then .ok (slot.toUInt16, { s with extra := s.extra + 1 })
  else .error .overflow

-- The slots of the subroutines: that of the exception and that of the return address.
def forSubroutine (f : Frame) (s : FinallySlots) :
    Except LoweringError ((UInt16 × UInt16) × FinallySlots) :=
  match s.subroutine with
  | some slots => .ok (slots, s)
  | none => do
    let (exception, s) ← s.alloc f
    let (address, s) ← s.alloc f
    return ((exception, address), { s with subroutine := some (exception, address) })

-- The slot of the block that starts at `pos`, whichever copy of it is lowered.
def forBlock (f : Frame) (pos : Nat) (s : FinallySlots) :
    Except LoweringError (UInt16 × FinallySlots) :=
  match s.exceptions[pos]? with
  | some slot => .ok (slot, s)
  | none => do
    let (slot, s) ← s.alloc f
    return (slot, { s with exceptions := s.exceptions.insert pos slot })

-- The length of an instruction on a slot.
def slotOpSize (slot : UInt16) : Nat :=
  if slot ≤ 0xFF then 2 else 4

-- The code of a block before the place that a subroutine call enters.
def prologue (s : FinallySlots) : Nat :=
  match s.subroutine with
  | some (exception, _) => if exception ≤ 0xFF then finallyPrologue else wideFinallyPrologue
  | none => finallyPrologue

-- The slots that the method needs.
def maxLocals (f : Frame) (s : FinallySlots) : Except LoweringError UInt16 :=
  let slots := f.maxLocals + s.extra
  if slots ≤ 0xFFFF then .ok slots.toUInt16 else .error .overflow

end FinallySlots

-- The end of the finally block that the instruction `i` runs, which starts at its operand.
def finallyEnd (method : String) (code : Bytes) (i : Instr) : Except LoweringError Nat :=
  let start := i.arg
  let bad (fault : OperandFault) : LoweringError := .badOperand (some i.op) method fault
  match Instr.decodeAt code (min start.toNat code.size) with
  | .error e => .error (.format e)
  | .ok first =>
    if first.op = .finallyStart then
      match Instr.findFinallyEnd code 0 (start.toNat + 1) with
      | .error e => .error (.format e)
      | .ok none => .error (bad (.finallyNeverEnds start))
      | .ok (some stop) => .ok stop
    else .error (bad (.notFinallyStart start first.op))

end PodCompiler.Lowering
