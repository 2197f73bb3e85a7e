import PodCompiler.Bytes
import PodCompiler.TypeRef.StackType

namespace PodCompiler.ClassFile

namespace Op

-- Constants.
def nop : UInt8 := 0x00

def aconstNull : UInt8 := 0x01

def iconstM1 : UInt8 := 0x02

def iconst0 : UInt8 := 0x03

def iconst1 : UInt8 := 0x04

def iconst5 : UInt8 := 0x08

def lconst0 : UInt8 := 0x09

def lconst1 : UInt8 := 0x0a

def dconst0 : UInt8 := 0x0e

def dconst1 : UInt8 := 0x0f

def bipush : UInt8 := 0x10

def sipush : UInt8 := 0x11

def ldc : UInt8 := 0x12

def ldcW : UInt8 := 0x13

def ldc2W : UInt8 := 0x14

-- Locals. The forms with a number fix the first four slots.
def iload : UInt8 := 0x15

def lload : UInt8 := 0x16

def fload : UInt8 := 0x17

def dload : UInt8 := 0x18

def aload : UInt8 := 0x19

def iload0 : UInt8 := 0x1a

def lload0 : UInt8 := 0x1e

def fload0 : UInt8 := 0x22

def dload0 : UInt8 := 0x26

def aload0 : UInt8 := 0x2a

def aload1 : UInt8 := 0x2b

def istore : UInt8 := 0x36

def lstore : UInt8 := 0x37

def fstore : UInt8 := 0x38

def dstore : UInt8 := 0x39

def astore : UInt8 := 0x3a

def istore0 : UInt8 := 0x3b

def lstore0 : UInt8 := 0x3f

def fstore0 : UInt8 := 0x43

def dstore0 : UInt8 := 0x47

def astore0 : UInt8 := 0x4b

-- Array elements.
def iaload : UInt8 := 0x2e

def laload : UInt8 := 0x2f

def faload : UInt8 := 0x30

def daload : UInt8 := 0x31

def baload : UInt8 := 0x33

def caload : UInt8 := 0x34

def saload : UInt8 := 0x35

def iastore : UInt8 := 0x4f

def lastore : UInt8 := 0x50

def fastore : UInt8 := 0x51

def dastore : UInt8 := 0x52

def bastore : UInt8 := 0x54

def castore : UInt8 := 0x55

def sastore : UInt8 := 0x56

-- The operand stack.
def pop : UInt8 := 0x57

def pop2 : UInt8 := 0x58

def dup : UInt8 := 0x59

def dupX1 : UInt8 := 0x5a

def dupX2 : UInt8 := 0x5b

def dup2 : UInt8 := 0x5c

def dup2X1 : UInt8 := 0x5d

def dup2X2 : UInt8 := 0x5e

def swap : UInt8 := 0x5f

-- Arithmetic.
def iadd : UInt8 := 0x60

def ladd : UInt8 := 0x61

def dadd : UInt8 := 0x63

def lsub : UInt8 := 0x65

def dsub : UInt8 := 0x67

def lmul : UInt8 := 0x69

def dmul : UInt8 := 0x6b

def ldiv : UInt8 := 0x6d

def ddiv : UInt8 := 0x6f

def lrem : UInt8 := 0x71

def drem : UInt8 := 0x73

def lneg : UInt8 := 0x75

def dneg : UInt8 := 0x77

def lshl : UInt8 := 0x79

def lshr : UInt8 := 0x7b

def lushr : UInt8 := 0x7d

def iand : UInt8 := 0x7e

def land : UInt8 := 0x7f

def ior : UInt8 := 0x80

def lor : UInt8 := 0x81

def ixor : UInt8 := 0x82

def lxor : UInt8 := 0x83

-- Conversions and three-way comparisons.
def i2l : UInt8 := 0x85

def i2f : UInt8 := 0x86

def i2d : UInt8 := 0x87

def l2i : UInt8 := 0x88

def l2f : UInt8 := 0x89

def l2d : UInt8 := 0x8a

def f2i : UInt8 := 0x8b

def f2l : UInt8 := 0x8c

def f2d : UInt8 := 0x8d

def d2i : UInt8 := 0x8e

def d2l : UInt8 := 0x8f

def d2f : UInt8 := 0x90

def i2b : UInt8 := 0x91

def i2c : UInt8 := 0x92

def i2s : UInt8 := 0x93

def lcmp : UInt8 := 0x94

def dcmpl : UInt8 := 0x97

def dcmpg : UInt8 := 0x98

-- Jumps.
def ifeq : UInt8 := 0x99

def ifne : UInt8 := 0x9a

def iflt : UInt8 := 0x9b

def ifge : UInt8 := 0x9c

def ifgt : UInt8 := 0x9d

def ifle : UInt8 := 0x9e

def ifIcmpeq : UInt8 := 0x9f

def ifIcmpne : UInt8 := 0xa0

def ifAcmpeq : UInt8 := 0xa5

def ifAcmpne : UInt8 := 0xa6

def goto : UInt8 := 0xa7

def jsr : UInt8 := 0xa8

def ret : UInt8 := 0xa9

def tableSwitch : UInt8 := 0xaa

-- Returns.
def ireturn : UInt8 := 0xac

def lreturn : UInt8 := 0xad

def freturn : UInt8 := 0xae

def dreturn : UInt8 := 0xaf

def areturn : UInt8 := 0xb0

def returnVoid : UInt8 := 0xb1

-- Members.
def getStatic : UInt8 := 0xb2

def putStatic : UInt8 := 0xb3

def getField : UInt8 := 0xb4

def putField : UInt8 := 0xb5

def invokeVirtual : UInt8 := 0xb6

def invokeSpecial : UInt8 := 0xb7

def invokeStatic : UInt8 := 0xb8

def invokeInterface : UInt8 := 0xb9

-- Objects.
def newObject : UInt8 := 0xbb

def newArray : UInt8 := 0xbc

def anewArray : UInt8 := 0xbd

def arrayLength : UInt8 := 0xbe

def athrow : UInt8 := 0xbf

def checkCast : UInt8 := 0xc0

def instanceOf : UInt8 := 0xc1

def wide : UInt8 := 0xc4

def ifNull : UInt8 := 0xc6

def ifNonNull : UInt8 := 0xc7

-- The instruction that returns a value.
def returnOp : StackType → UInt8
  | .void => returnVoid
  | .long => lreturn
  | .float => freturn
  | .double => dreturn
  | .obj => areturn
  | .bool | .byte | .short | .char | .int => ireturn

-- Element types of `newArray`.
def elementCode? : StackType → Option UInt8
  | .bool => some 4
  | .char => some 5
  | .float => some 6
  | .double => some 7
  | .byte => some 8
  | .short => some 9
  | .int => some 10
  | .long => some 11
  | .obj | .void => none

-- The conditional jump that is taken exactly when `op` is not.
def negateBranch (op : UInt8) : UInt8 :=
  if op = ifeq then ifne
  else if op = ifne then ifeq
  else if op = iflt then ifge
  else if op = ifge then iflt
  else if op = ifgt then ifle
  else if op = ifle then ifgt
  else if op = ifIcmpeq then ifIcmpne
  else if op = ifIcmpne then ifIcmpeq
  else if op = ifAcmpeq then ifAcmpne
  else if op = ifAcmpne then ifAcmpeq
  else if op = ifNull then ifNonNull
  else if op = ifNonNull then ifNull
  else op

-- The families of opcodes in a listing: first and last opcode, and the word. The first family that
-- holds an opcode names it.
def families : List (UInt8 × UInt8 × String) := [
  (nop, nop, "nop"),
  (aconstNull, aconstNull, "aconst_null"),
  (iconstM1, iconst5, "iconst"),
  (lconst0, lconst1, "lconst"),
  (dconst0, dconst1, "dconst"),
  (bipush, bipush, "bipush"),
  (sipush, sipush, "sipush"),
  (ldc, ldc, "ldc"),
  (ldcW, ldcW, "ldc_w"),
  (ldc2W, ldc2W, "ldc2_w"),
  (iload, iload, "iload"),
  (lload, lload, "lload"),
  (fload, fload, "fload"),
  (dload, dload, "dload"),
  (aload, aload, "aload"),
  (iload0, iload0 + 3, "iload"),
  (lload0, lload0 + 3, "lload"),
  (fload0, fload0 + 3, "fload"),
  (dload0, dload0 + 3, "dload"),
  (aload0, aload0 + 3, "aload"),
  (iaload, saload, "xaload"),
  (istore, istore, "istore"),
  (lstore, lstore, "lstore"),
  (fstore, fstore, "fstore"),
  (dstore, dstore, "dstore"),
  (astore, astore, "astore"),
  (istore0, istore0 + 3, "istore"),
  (lstore0, lstore0 + 3, "lstore"),
  (fstore0, fstore0 + 3, "fstore"),
  (dstore0, dstore0 + 3, "dstore"),
  (astore0, astore0 + 3, "astore"),
  (iastore, sastore, "xastore"),
  (pop, pop, "pop"),
  (pop2, pop2, "pop2"),
  (dup, dup, "dup"),
  (dupX1, dupX1, "dup_x1"),
  (dupX2, dupX2, "dup_x2"),
  (dup2, dup2, "dup2"),
  (dup2X1, dup2X1, "dup2_x1"),
  (dup2X2, dup2X2, "dup2_x2"),
  (swap, swap, "swap"),
  (iadd, lxor, "arith"),
  (i2l, i2s, "convert"),
  (lcmp, lcmp, "lcmp"),
  (dcmpl, dcmpl, "dcmpl"),
  (dcmpg, dcmpg, "dcmpg"),
  (ifeq, ifle, "if"),
  (ifIcmpeq, ifAcmpne, "if_cmp"),
  (goto, goto, "goto"),
  (jsr, jsr, "jsr"),
  (ret, ret, "ret"),
  (tableSwitch, tableSwitch, "tableswitch"),
  (ireturn, areturn, "xreturn"),
  (returnVoid, returnVoid, "return"),
  (getStatic, getStatic, "getstatic"),
  (putStatic, putStatic, "putstatic"),
  (getField, getField, "getfield"),
  (putField, putField, "putfield"),
  (invokeVirtual, invokeVirtual, "invokevirtual"),
  (invokeSpecial, invokeSpecial, "invokespecial"),
  (invokeStatic, invokeStatic, "invokestatic"),
  (invokeInterface, invokeInterface, "invokeinterface"),
  (newObject, newObject, "new"),
  (newArray, newArray, "newarray"),
  (anewArray, anewArray, "anewarray"),
  (arrayLength, arrayLength, "arraylength"),
  (athrow, athrow, "athrow"),
  (checkCast, checkCast, "checkcast"),
  (instanceOf, instanceOf, "instanceof"),
  (wide, wide, "wide"),
  (ifNull, ifNull, "ifnull"),
  (ifNonNull, ifNonNull, "ifnonnull")]

-- The word for an opcode in a listing.
def mnemonic (op : UInt8) : String :=
  match families.find? fun (first, last, _) => first ≤ op && op ≤ last with
  | some (_, _, word) => word
  | none => "?"

-- Whether the opcode jumps by a two-byte offset.
def isBranch (op : UInt8) : Bool :=
  (ifeq ≤ op && op ≤ jsr) || op = ifNull || op = ifNonNull

-- Whether the operand is an index of the constant pool in two bytes.
def hasPoolIndex (op : UInt8) : Bool :=
  op = ldcW || op = ldc2W || (getStatic ≤ op && op ≤ invokeInterface) || op = newObject ||
    op = anewArray || op = checkCast || op = instanceOf

-- The two-byte word at `pos`, or zero if it is not all there.
def word2 (code : Bytes) (pos : Nat) : UInt16 :=
  (code.be2? pos).getD 0

-- The signed four-byte word at `pos`, or zero if it is not all there.
def word4 (code : Bytes) (pos : Nat) : Int32 :=
  ((code.be4? pos).getD 0).toInt32

-- The zero bytes between the opcode of a table switch at `pos` and its first word.
def switchPad (pos : Nat) : Nat :=
  (4 - (pos + 1) % 4) % 4

-- The number of targets of the table switch whose opcode is at `pos`; none if the bounds are so far
-- apart that their distance is no 32-bit number.
def switchCount? (code : Bytes) (pos : Nat) : Option Nat :=
  let base := pos + 1 + switchPad pos
  let count := (word4 code (base + 8)).toInt - (word4 code (base + 4)).toInt
  if -0x80000000 ≤ count ∧ count + 1 < 0x80000000 then some (count + 1).toNat else none

-- The number of bytes of the instruction at `pos`; none where `switchCount?` is none.
def length? (code : Bytes) (pos : Nat) : Option Nat :=
  let op := code.getD pos nop
  if op = bipush || op = ldc || op = newArray || op = ret then some 2
  else if (iload ≤ op && op ≤ aload) || (istore ≤ op && op ≤ astore) then some 2
  else if op = sipush || op = ldcW || op = ldc2W then some 3
  else if isBranch op then some 3
  else if (getStatic ≤ op && op ≤ invokeStatic) || op = newObject || op = anewArray ||
    op = checkCast || op = instanceOf then some 3
  else if op = invokeInterface then some 5
  else if op = wide then some (if code[pos + 1]? = some 0x84 then 6 else 4)
  else if op = tableSwitch then
    (switchCount? code pos).map fun count => 1 + switchPad pos + 12 + count * 4
  else some 1

end Op

-- Access flags.
namespace Access

def public_ : UInt16 := 0x0001

def private_ : UInt16 := 0x0002

def static_ : UInt16 := 0x0008

def final_ : UInt16 := 0x0010

def super_ : UInt16 := 0x0020

def interface_ : UInt16 := 0x0200

def abstract_ : UInt16 := 0x0400

end Access

end PodCompiler.ClassFile
