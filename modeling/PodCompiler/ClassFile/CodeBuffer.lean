import PodCompiler.ClassFile.Error
import PodCompiler.ClassFile.Op

namespace PodCompiler.ClassFile

-- A protected range, its handler, and the class that is caught (zero catches everything).
structure ExceptionEntry where
  startPc : UInt16
  endPc : UInt16
  handlerPc : UInt16
  catchType : UInt16
  deriving DecidableEq, Repr

structure LineEntry where
  startPc : UInt16
  line : UInt16
  deriving DecidableEq, Repr

-- A jump whose target is open: where its opcode and where its operand stand.
structure Label where
  origin : Nat
  operand : Nat
  deriving DecidableEq, Repr

structure CodeBuffer where
  code : Bytes := #[]
  maxStack : UInt16 := 0
  maxLocals : UInt16 := 0
  exceptions : Array ExceptionEntry := #[]
  lines : Array LineEntry := #[]
  deriving Repr, DecidableEq

namespace CodeBuffer

def sized (maxStack maxLocals : Nat) : CodeBuffer :=
  { maxStack := maxStack.toUInt16, maxLocals := maxLocals.toUInt16 }

-- The position of the next byte.
def pos (b : CodeBuffer) : Nat :=
  b.code.size

def u1 (b : CodeBuffer) (v : UInt8) : CodeBuffer :=
  { b with code := b.code.put1 v }

def u2 (b : CodeBuffer) (v : UInt16) : CodeBuffer :=
  { b with code := b.code.put2 v }

def u4 (b : CodeBuffer) (v : UInt32) : CodeBuffer :=
  { b with code := b.code.put4 v }

def raw (b : CodeBuffer) (bytes : Bytes) : CodeBuffer :=
  { b with code := b.code ++ bytes }

def op (b : CodeBuffer) (o : UInt8) : CodeBuffer :=
  b.u1 o

def op1 (b : CodeBuffer) (o x : UInt8) : CodeBuffer :=
  (b.u1 o).u1 x

def op2 (b : CodeBuffer) (o : UInt8) (x : UInt16) : CodeBuffer :=
  (b.u1 o).u2 x

def patch2 (b : CodeBuffer) (pos : Nat) (v : UInt16) : CodeBuffer :=
  { b with code := b.code.set2 pos v }

def patch4 (b : CodeBuffer) (pos : Nat) (v : UInt32) : CodeBuffer :=
  { b with code := b.code.set4 pos v }

-- The number of zero bytes up to the next multiple of four.
def padding (b : CodeBuffer) : Nat :=
  (4 - b.pos % 4) % 4

def pad4 (b : CodeBuffer) : CodeBuffer :=
  { b with code := b.code ++ Array.replicate b.padding 0 }

-- The label of a jump that is written next.
def label (b : CodeBuffer) : Label :=
  ⟨b.pos, b.pos + 1⟩

-- A jump whose operand is a placeholder; its label is `label`.
def branch (b : CodeBuffer) (o : UInt8) : CodeBuffer :=
  b.op2 o 0xFFFF

-- Sets the target of a jump.
def patchBranch (b : CodeBuffer) (l : Label) (target : Nat) : Except ClassError CodeBuffer :=
  let offset : Int := target - l.origin
  if -0x8000 ≤ offset ∧ offset < 0x8000 then .ok (b.patch2 l.operand offset.toInt16.toUInt16)
  else .error (.branchOutOfRange offset)

-- Makes a jump go to the position of the next byte.
def bind (b : CodeBuffer) (l : Label) : Except ClassError CodeBuffer :=
  b.patchBranch l b.pos

-- The shortest instruction on a slot: `compact` and the three opcodes after it fix the slot,
-- `general` takes it as a byte, or as two behind a marker.
def localOp (b : CodeBuffer) (compact general : UInt8) (slot : UInt16) : CodeBuffer :=
  if slot ≤ 3 then b.op (compact + slot.toUInt8)
  else if slot ≤ 0xFF then b.op1 general slot.toUInt8
  else (b.op Op.wide).op2 general slot

def loadVar (b : CodeBuffer) (t : StackType) (slot : UInt16) : CodeBuffer :=
  match t with
  | .long => b.localOp Op.lload0 Op.lload slot
  | .float => b.localOp Op.fload0 Op.fload slot
  | .double => b.localOp Op.dload0 Op.dload slot
  | .obj => b.localOp Op.aload0 Op.aload slot
  | _ => b.localOp Op.iload0 Op.iload slot

def storeVar (b : CodeBuffer) (t : StackType) (slot : UInt16) : CodeBuffer :=
  match t with
  | .long => b.localOp Op.lstore0 Op.lstore slot
  | .float => b.localOp Op.fstore0 Op.fstore slot
  | .double => b.localOp Op.dstore0 Op.dstore slot
  | .obj => b.localOp Op.astore0 Op.astore slot
  | _ => b.localOp Op.istore0 Op.istore slot

-- An instruction on a slot that is never compact, so that its length depends on the slot only.
def slotOp (b : CodeBuffer) (o : UInt8) (slot : UInt16) : CodeBuffer :=
  if slot ≤ 0xFF then b.op1 o slot.toUInt8 else (b.op Op.wide).op2 o slot

def returnOp (b : CodeBuffer) (t : StackType) : CodeBuffer :=
  b.op (Op.returnOp t)

-- The shortest instruction that pushes a number.
def pushInt (b : CodeBuffer) (v : Int16) : CodeBuffer :=
  if -1 ≤ v && v ≤ 5 then b.op (Op.iconst0 + v.toUInt16.toUInt8)
  else if -128 ≤ v && v ≤ 127 then b.op1 Op.bipush v.toUInt16.toUInt8
  else b.op2 Op.sipush v.toUInt16

def addException (b : CodeBuffer) (e : ExceptionEntry) : CodeBuffer :=
  { b with exceptions := b.exceptions.push e }

def addLine (b : CodeBuffer) (l : LineEntry) : CodeBuffer :=
  { b with lines := b.lines.push l }

-- The largest code of a method.
def maxSize : Nat := 65535

def checkSize (b : CodeBuffer) : Except ClassError Unit :=
  if b.code.size ≤ maxSize then .ok () else .error (.codeTooLarge b.code.size)

end CodeBuffer

end PodCompiler.ClassFile
