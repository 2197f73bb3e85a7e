import PodCompiler.TypeRef.StackType

namespace PodCompiler.JavaName

-- Marks the pods that stand for packages of the virtual machine.
def ffiMark : String := "[java]"

-- The primitives by their keyword, as types of the nameless package.
def keyword? : String → Option StackType
  | "int" => some .int
  | "char" => some .char
  | "byte" => some .byte
  | "short" => some .short
  | "float" => some .float
  | "long" => some .long
  | "double" => some .double
  | "boolean" => some .bool
  | _ => none

-- The element types of the array classes of the package `fanx.interop`.
def arrayElement? : String → Option StackType
  | "BooleanArray" => some .bool
  | "ByteArray" => some .byte
  | "ShortArray" => some .short
  | "CharArray" => some .char
  | "IntArray" => some .int
  | "LongArray" => some .long
  | "FloatArray" => some .float
  | "DoubleArray" => some .double
  | _ => none

-- The package that a bracketed pod name stands for.
def package (pod : String) : String :=
  if pod.startsWith ffiMark then String.ofList (pod.toList.drop ffiMark.length) else pod

-- `a.b` as a path.
def path (package : String) : String :=
  package.map fun c => if c = '.' then '/' else c

-- A type of a package: a primitive, an array of primitives, or a class behind its array brackets.
def ofFfi (pod name : String) : String :=
  let pkg := package pod
  let byKeyword := if pkg.isEmpty then keyword? name else none
  let byArray := if pkg = "fanx.interop" then arrayElement? name else none
  match byKeyword, byArray with
  | some t, _ => String.singleton t.letter
  | none, some t => "[" ++ String.singleton t.letter
  | none, none =>
    let brackets := name.toList.takeWhile (· = '[')
    let base := String.ofList (name.toList.drop brackets.length)
    let cls := (if pkg.isEmpty then "" else path pkg ++ "/") ++ base
    if brackets.isEmpty then cls else String.ofList brackets ++ "L" ++ cls ++ ";"

-- The types of the pod `sys` that have a name of their own; a single letter is a type parameter.
def ofSys? (name : String) (nullable : Bool) : Option String :=
  match name with
  | "Bool" => some (if nullable then "java/lang/Boolean" else "Z")
  | "Int" => some (if nullable then "java/lang/Long" else "J")
  | "Float" => some (if nullable then "java/lang/Double" else "D")
  | "Decimal" => some "java/math/BigDecimal"
  | "Num" => some "java/lang/Number"
  | "Obj" => some "java/lang/Object"
  | "Str" => some "java/lang/String"
  | "Void" => some "V"
  | _ => if name.length = 1 then some "java/lang/Object" else none

-- The name of a type: `sys::Int` is `J`, `sys::Int?` is `java/lang/Long`, `acme::Widget` is
-- `fan/acme/Widget`, and `[java]java.util::Date` is `java/util/Date`.
def ofType (pod name : String) (nullable : Bool) : String :=
  match if pod = "sys" then ofSys? name nullable else none with
  | some mapped => mapped
  | none => if pod.startsWith "[" then ofFfi pod name else s!"fan/{pod}/{name}"

-- Whether a name is the descriptor of a primitive or of no value.
def isPrimitive (jname : String) : Bool :=
  ["Z", "B", "S", "C", "I", "J", "F", "D", "V"].contains jname

-- The descriptor of members of the type with the name.
def descriptor (jname : String) : String :=
  if isPrimitive jname || jname.startsWith "[" then jname else s!"L{jname};"

-- The class that implements the methods of the type with the name.
def implementation : String → String
  | "Z" | "java/lang/Boolean" => "fan/sys/FanBool"
  | "J" | "java/lang/Long" => "fan/sys/FanInt"
  | "D" | "java/lang/Double" => "fan/sys/FanFloat"
  | "java/lang/Object" => "fan/sys/FanObj"
  | "java/lang/String" => "fan/sys/FanStr"
  | "java/lang/Number" => "fan/sys/FanNum"
  | "java/math/BigDecimal" => "fan/sys/FanDecimal"
  | other => other

end PodCompiler.JavaName
