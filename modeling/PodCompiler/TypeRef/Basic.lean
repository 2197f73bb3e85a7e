import PodCompiler.TypeRef.JavaName

namespace PodCompiler

-- A type as code refers to it: its pod, its name, and a suffix that is empty, a question mark for a
-- nullable type, or the whole signature of a generic instance.
structure TypeRef where
  pod : String
  name : String
  sig : String
  deriving DecidableEq, Repr, Inhabited

namespace TypeRef

def isNullable (t : TypeRef) : Bool :=
  t.sig.toList.getLast? = some '?'

def isGenericInstance (t : TypeRef) : Bool :=
  1 < t.sig.utf8ByteSize

def qname (t : TypeRef) : String :=
  s!"{t.pod}::{t.name}"

-- The signature, with pod and suffix.
def signature (t : TypeRef) : String :=
  if t.isGenericInstance then t.sig else s!"{t.pod}::{t.name}{t.sig}"

def isSys (t : TypeRef) : Bool :=
  t.pod = "sys"

def isFfi (t : TypeRef) : Bool :=
  t.pod.startsWith JavaName.ffiMark

-- The primitive of `sys` with the name; as a nullable type it is a reference.
def sysPrimitive? : String → Option StackType
  | "Bool" => some .bool
  | "Int" => some .long
  | "Float" => some .double
  | _ => none

def stack (t : TypeRef) : StackType :=
  if t.pod = JavaName.ffiMark then (JavaName.keyword? t.name).getD .obj
  else if t.isSys then
    if t.name = "Void" then .void
    else if t.isNullable then .obj
    else (sysPrimitive? t.name).getD .obj
  else .obj

-- The element type of an array of primitives.
def arrayElement? (t : TypeRef) : Option StackType :=
  if t.pod = "[java]fanx.interop" then JavaName.arrayElement? t.name else none

-- Bits of the mask.
def nullableBit : UInt32 := 0x1

def genericBit : UInt32 := 0x2

-- Bit of a type of `sys` by its name.
def sysBit : String → UInt32
  | "Obj" => 0x4
  | "Bool" => 0x8
  | "Int" => 0x10
  | "Float" => 0x20
  | "Err" => 0x40
  | "List" => 0x80
  | _ => 0

-- Bit of a primitive; shifted by eight more, the bit of its arrays.
def primitiveBit : StackType → UInt32
  | .bool => 0x100
  | .byte => 0x200
  | .short => 0x400
  | .char => 0x800
  | .int => 0x1000
  | .long => 0x2000
  | .float => 0x4000
  | .double => 0x8000
  | .obj | .void => 0

def primitiveBits : UInt32 := 0xFF00

def arrayBits : UInt32 := 0xFF0000

-- All that a single test asks of a type, as bits.
def mask (t : TypeRef) : UInt32 :=
  (if t.isNullable then nullableBit else 0) |||
  (if t.isGenericInstance then genericBit else 0) |||
  (if t.isSys then sysBit t.name else 0) |||
  primitiveBit t.stack |||
  (match t.arrayElement? with
    | some elem => primitiveBit elem <<< 8
    | none => 0)

def hasSysBit (t : TypeRef) (name : String) : Bool :=
  t.mask &&& sysBit name ≠ 0

def isObj (t : TypeRef) : Bool :=
  t.hasSysBit "Obj"

def isBool (t : TypeRef) : Bool :=
  t.hasSysBit "Bool"

def isInt (t : TypeRef) : Bool :=
  t.hasSysBit "Int"

def isFloat (t : TypeRef) : Bool :=
  t.hasSysBit "Float"

def isErr (t : TypeRef) : Bool :=
  t.hasSysBit "Err"

def isList (t : TypeRef) : Bool :=
  t.hasSysBit "List"

def isRef (t : TypeRef) : Bool :=
  t.stack = .obj

def isVoid (t : TypeRef) : Bool :=
  t.stack = .void

def isWide (t : TypeRef) : Bool :=
  t.stack.isWide

def isPrimitive (t : TypeRef) : Bool :=
  t.mask &&& primitiveBits ≠ 0

-- Whether the type is the primitive `s`.
def isPrimitiveOf (t : TypeRef) (s : StackType) : Bool :=
  t.mask &&& primitiveBit s ≠ 0

def isPrimitiveArray (t : TypeRef) : Bool :=
  t.mask &&& arrayBits ≠ 0

-- The name under which the machine knows the type.
def jname (t : TypeRef) : String :=
  JavaName.ofType t.pod t.name t.isNullable

-- The name as a reference type: a primitive goes by the class that boxes it.
def jnameBoxed (t : TypeRef) : String :=
  match t.stack.boxing? with
  | some (cls, _) => cls
  | none => t.jname

-- The class of the type's methods.
def jimpl (t : TypeRef) : String :=
  JavaName.implementation t.jname

-- The descriptor of a member of the type. A class of one letter in the nameless package is still a
-- reference, so the stack type decides and not the name.
def jsig (t : TypeRef) : String :=
  let jname := t.jname
  if t.stack ≠ .obj || jname.startsWith "[" then jname else s!"L{jname};"

end TypeRef

end PodCompiler
