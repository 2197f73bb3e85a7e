namespace PodCompiler

-- How the virtual machine holds a value: as a reference, as one of the primitives, or not at all.
inductive StackType where
  | obj
  | bool
  | byte
  | short
  | char
  | int
  | long
  | float
  | double
  | void
  deriving DecidableEq, Repr, Hashable

namespace StackType

-- Whether a value takes two slots.
def isWide : StackType → Bool
  | .long | .double => true
  | _ => false

-- The slots of a value, on the stack or among the locals.
def slots : StackType → Nat
  | .void => 0
  | .long | .double => 2
  | _ => 1

-- The slots that a variable or an argument takes: at least one, even if its type has no values.
def width (t : StackType) : Nat :=
  max t.slots 1

-- The slots of some values one after the other.
def totalSlots : List StackType → Nat
  | [] => 0
  | t :: rest => t.slots + totalSlots rest

-- The slots of some variables one after the other.
def totalWidth : List StackType → Nat
  | [] => 0
  | t :: rest => t.width + totalWidth rest

-- Whether the machine computes with the value as with an int.
def isIntLike : StackType → Bool
  | .bool | .byte | .short | .char | .int => true
  | _ => false

-- The letter of the type.
def letter : StackType → Char
  | .obj => 'A'
  | .bool => 'Z'
  | .byte => 'B'
  | .short => 'S'
  | .char => 'C'
  | .int => 'I'
  | .long => 'J'
  | .float => 'F'
  | .double => 'D'
  | .void => 'V'

def ofLetter? : Char → Option StackType
  | 'A' => some .obj
  | 'Z' => some .bool
  | 'B' => some .byte
  | 'S' => some .short
  | 'C' => some .char
  | 'I' => some .int
  | 'J' => some .long
  | 'F' => some .float
  | 'D' => some .double
  | 'V' => some .void
  | _ => none

-- The word for the type.
def name : StackType → String
  | .obj => "Obj"
  | .bool => "Bool"
  | .byte => "Byte"
  | .short => "Short"
  | .char => "Char"
  | .int => "Int"
  | .long => "Long"
  | .float => "Float"
  | .double => "Double"
  | .void => "Void"

-- The class whose objects box the values of a primitive, and the method that takes one out.
def boxing? : StackType → Option (String × String)
  | .bool => some ("java/lang/Boolean", "booleanValue")
  | .byte => some ("java/lang/Byte", "byteValue")
  | .short => some ("java/lang/Short", "shortValue")
  | .char => some ("java/lang/Character", "charValue")
  | .int => some ("java/lang/Integer", "intValue")
  | .long => some ("java/lang/Long", "longValue")
  | .float => some ("java/lang/Float", "floatValue")
  | .double => some ("java/lang/Double", "doubleValue")
  | .obj | .void => none

end StackType

end PodCompiler
