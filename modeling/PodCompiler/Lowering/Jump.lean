import PodCompiler.ClassFile.CodeBuffer
import PodCompiler.Lowering.Error
import PodCompiler.Lowering.Relocation

namespace PodCompiler.Lowering

open ClassFile (CodeBuffer)

-- What an operand holds: an offset in two bytes, one in four bytes inside a table switch, or an
-- offset in two bytes to the part of a finally block that a subroutine call enters.
inductive JumpKind where
  | branch
  | switch
  | finally_
  deriving DecidableEq, Repr

-- A jump: its target in the instructions, the position that offsets count from, the position of its
-- operand, and the scope in which the target is looked up.
structure JumpNode where
  target : UInt16
  origin : Nat
  operand : Nat
  kind : JumpKind
  scope : Nat
  deriving DecidableEq, Repr

-- The code of a finally block before the place that a subroutine call enters: `astore`, `jsr`,
-- `aload` and `athrow`.
def finallyPrologue : Nat := 8

-- The same if the slot takes two bytes.
def wideFinallyPrologue : Nat := finallyPrologue + 4

-- The jumps of a method in the order in which they were written.
structure JumpTable where
  nodes : Array JumpNode := #[]
  prologue : Nat := finallyPrologue
  deriving DecidableEq, Repr

namespace JumpTable

def push (t : JumpTable) (node : JumpNode) : JumpTable :=
  { t with nodes := t.nodes.push node }

-- The position that a jump goes to.
def destination? (t : JumpTable) (r : Relocation) (node : JumpNode) : Option Nat :=
  (r.get node.scope node.target.toNat).map fun java =>
    if node.kind = .finally_ then java + t.prologue else java

-- Fills in the operand of a jump. Only its own two or four bytes change.
def patch (t : JumpTable) (r : Relocation) (method : String) (node : JumpNode) :
    EStateM LoweringError CodeBuffer Unit := do
  match t.destination? r node with
  | none => throw (.missingReloc node.target method)
  | some java =>
    let offset : Int := java - node.origin
    match node.kind with
    | .branch | .finally_ =>
      if -0x8000 ≤ offset ∧ offset < 0x8000 then
        modify (·.patch2 node.operand offset.toInt16.toUInt16)
      else throw (.jumpOutOfRange offset method)
    | .switch =>
      if -0x80000000 ≤ offset ∧ offset < 0x80000000 then
        modify (·.patch4 node.operand offset.toInt32.toUInt32)
      else throw (.jumpOutOfRange offset method)

-- Fills in all operands. Those before a jump that fails stay filled in.
def backpatch (t : JumpTable) (r : Relocation) (method : String) :
    EStateM LoweringError CodeBuffer Unit :=
  t.nodes.toList.forM (t.patch r method)

end JumpTable

end PodCompiler.Lowering
