import PodCompiler.ClassFile.Op
import PodCompiler.TypeRef.Basic

namespace PodCompiler.Lowering

-- A call that is not lowered to a call: a run of plain instructions, an object to be initialized, a
-- class as a value, or a new array.
inductive Intrinsic where
  | ops (codes : List UInt8)
  | newObject (cls : String)
  | classLiteral (cls : String)
  | newArray (element : UInt8)
  deriving DecidableEq, Repr

namespace Intrinsic

open ClassFile.Op

def boolOps? : String → Option (List UInt8)
  | "and" => some [iand]
  | "or" => some [ior]
  | "xor" => some [ixor]
  | _ => none

-- A shift takes its distance as an int. In `plusFloat` and `multFloat` the long lies below the
-- double; it is moved to the top to be converted.
def intOps? : String → Option (List UInt8)
  | "negate" => some [lneg]
  | "plus" => some [ladd]
  | "minus" => some [lsub]
  | "mult" => some [lmul]
  | "div" => some [ldiv]
  | "mod" => some [lrem]
  | "and" => some [land]
  | "or" => some [lor]
  | "xor" => some [lxor]
  | "shiftl" => some [l2i, lshl]
  | "shiftr" => some [l2i, lushr]
  | "shifta" => some [l2i, lshr]
  | "plusFloat" => some [dup2X2, pop2, l2d, dadd]
  | "multFloat" => some [dup2X2, pop2, l2d, dmul]
  | _ => none

def floatOps? : String → Option (List UInt8)
  | "negate" => some [dneg]
  | "plus" => some [dadd]
  | "minus" => some [dsub]
  | "mult" => some [dmul]
  | "div" => some [ddiv]
  | "mod" => some [drem]
  | "plusInt" => some [l2d, dadd]
  | "minusInt" => some [l2d, dsub]
  | "multInt" => some [l2d, dmul]
  | "divInt" => some [l2d, ddiv]
  | "modInt" => some [l2d, drem]
  | _ => none

-- The instructions that load and store an element.
def elementOps? : StackType → Option (UInt8 × UInt8)
  | .bool | .byte => some (baload, bastore)
  | .short => some (saload, sastore)
  | .char => some (caload, castore)
  | .int => some (iaload, iastore)
  | .long => some (laload, lastore)
  | .float => some (faload, fastore)
  | .double => some (daload, dastore)
  | .obj | .void => none

def ofArray? (element : StackType) (name : String) : Option Intrinsic :=
  match elementCode? element, elementOps? element with
  | some code, some (load, store) =>
    match name with
    | "make" => some (.newArray code)
    | "size" => some (.ops [arrayLength])
    | "get" => some (.ops [load])
    | "set" => some (.ops [store])
    | _ => none
  | _, _ => none

-- The intrinsic for a method of a type.
def lookup? (parent : TypeRef) (name : String) : Option Intrinsic :=
  if name = "<new>" then some (.newObject parent.jname)
  else if name = "<class>" then some (.classLiteral parent.jname)
  else
    match parent.arrayElement? with
    | some element => ofArray? element name
    | none =>
      if parent.isBool then .ops <$> boolOps? name
      else if parent.isInt then .ops <$> intOps? name
      else if parent.isFloat then .ops <$> floatOps? name
      else none

end Intrinsic

end PodCompiler.Lowering
