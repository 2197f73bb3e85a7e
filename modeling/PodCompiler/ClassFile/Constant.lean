import PodCompiler.Pod.Writer

namespace PodCompiler.ClassFile

-- A constant. The floating-point ones are kept as their bits, and the compound ones refer to other
-- constants by index.
inductive Constant where
  | utf8 (s : String)
  | integer (v : Int32)
  | float (bits : UInt32)
  | long (v : Int64)
  | double (bits : UInt64)
  | class (name : UInt16)
  | string (text : UInt16)
  | fieldref (owner member : UInt16)
  | methodref (owner member : UInt16)
  | interfaceMethodref (owner member : UInt16)
  | nameAndType (name desc : UInt16)
  deriving DecidableEq, Hashable, Repr

namespace Constant

-- Whether the constant takes two indices.
def isWide : Constant → Bool
  | .long _ | .double _ => true
  | _ => false

-- How many indices the constant takes.
def width (c : Constant) : Nat :=
  if c.isWide then 2 else 1

-- The byte that a constant starts with.
def tag : Constant → UInt8
  | .utf8 _ => 1
  | .integer _ => 3
  | .float _ => 4
  | .long _ => 5
  | .double _ => 6
  | .class _ => 7
  | .string _ => 8
  | .fieldref _ _ => 9
  | .methodref _ _ => 10
  | .interfaceMethodref _ _ => 11
  | .nameAndType _ _ => 12

-- Appends the constant to a class file.
def put (b : Bytes) (c : Constant) : Bytes :=
  let b := b.put1 c.tag
  match c with
  | .utf8 s => b.putUtf s
  | .integer v => b.put4 v.toUInt32
  | .float bits => b.put4 bits
  | .long v => b.put8 v.toUInt64
  | .double bits => b.put8 bits
  | .class n | .string n => b.put2 n
  | .fieldref m n | .methodref m n | .interfaceMethodref m n | .nameAndType m n =>
    (b.put2 m).put2 n

end Constant

end PodCompiler.ClassFile
