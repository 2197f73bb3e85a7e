import PodCompiler.Lowering.Item
import PodCompiler.TypeRef.Basic

namespace PodCompiler.Lowering.Conversion

open ClassFile.Op

-- Pushes a type. Those of `sys` are constants; any other is looked up once and kept in a field.
def pushType (t : TypeRef) : List (Item Ref) :=
  if t.isSys && !t.isGenericInstance then
    .const getStatic (.field s!"fan/sys/Sys.{t.name}Type:Lfan/sys/Type;") ::
      (if t.isNullable then [.callVirtual "fan/sys/Type.toNullable()Lfan/sys/Type;"] else [])
  else [
    .const getStatic (.typeLiteral t.signature),
    .op dup,
    .hop ifNonNull 15,
    .op pop,
    .const ldcW (.string t.signature),
    .op iconst1,
    .callStatic "fan/sys/Type.find(Ljava/lang/String;Z)Lfan/sys/Type;",
    .op dup,
    .const putStatic (.typeLiteral t.signature)]

-- Whether the object on the stack is of a type. Generic instances are not classes of the machine, so
-- the runtime tests for them.
def isInstance (t : TypeRef) : List (Item Ref) :=
  if t.isGenericInstance then
    pushType t ++ [.callStatic "fanx/util/OpUtil.is(Ljava/lang/Object;Lfan/sys/Type;)Z"]
  else [.const instanceOf (.class_ t.jnameBoxed)]

-- The object on the stack if it is of a type, and null if it is not.
def asInstance (t : TypeRef) : List (Item Ref) :=
  let cls := Ref.class_ t.jnameBoxed
  if t.isGenericInstance then
    .reserve cls :: pushType t ++ [
      .callStatic "fanx/util/OpUtil.as(Ljava/lang/Object;Lfan/sys/Type;)Ljava/lang/Object;",
      .const checkCast cls]
  else [
    .op dup,
    .const instanceOf cls,
    .hop ifne 8,
    .op pop,
    .op aconstNull,
    .hop goto 6,
    .const checkCast cls]

-- Boxes the primitive on the stack.
def box (stack : StackType) : Except LoweringError (List (Item Ref)) :=
  match stack.boxing? with
  | some (cls, _) => .ok [.callStatic s!"{cls}.valueOf({stack.letter})L{cls};"]
  | none => .error (.internal (.noBoxing stack))

-- Takes a primitive out of the object on the stack.
def unbox (stack : StackType) : Except LoweringError (List (Item Ref)) :=
  match stack.boxing? with
  | some (cls, getter) =>
    .ok [.const checkCast (.class_ cls), .callVirtual s!"{cls}.{getter}(){stack.letter}"]
  | none => .error (.internal (.noBoxing stack))

def cast (t : TypeRef) : Except LoweringError (List (Item Ref)) :=
  if t.isPrimitive then unbox t.stack else .ok [.const checkCast (.class_ t.jname)]

-- Throws what an error carries.
def throwErr : List (Item Ref) :=
  [.const getField (.field "fan/sys/Err.val:Lfan/sys/Err$Val;"), .op athrow]

-- Throws an error if the object on the stack is null.
def nullCheck : List (Item Ref) :=
  [.op dup, .hop ifNonNull 10, .callStatic "fan/sys/NullErr.makeCoerce()Lfan/sys/NullErr;"] ++
    throwErr

-- The four kinds of numbers that the machine computes with.
inductive NumberKind where
  | int
  | long
  | float
  | double
  deriving DecidableEq, Repr

def numberKind? : StackType → Option NumberKind
  | .byte | .short | .char | .int => some .int
  | .long => some .long
  | .float => some .float
  | .double => some .double
  | .bool | .obj | .void => none

-- The instruction from one kind to another; none is needed within a kind.
def convertKind : NumberKind → NumberKind → List UInt8
  | .int, .long => [i2l]
  | .int, .float => [i2f]
  | .int, .double => [i2d]
  | .long, .int => [l2i]
  | .long, .float => [l2f]
  | .long, .double => [l2d]
  | .float, .int => [f2i]
  | .float, .long => [f2l]
  | .float, .double => [f2d]
  | .double, .int => [d2i]
  | .double, .long => [d2l]
  | .double, .float => [d2f]
  | .int, .int | .long, .long | .float, .float | .double, .double => []

-- Cuts an int to a narrower type.
def narrow : StackType → List UInt8
  | .byte => [i2b]
  | .short => [i2s]
  | .char => [i2c]
  | _ => []

-- The instructions from one primitive number to another. There are none to or from a bool.
def convert? (source target : StackType) : Option (List UInt8) :=
  match numberKind? source, numberKind? target with
  | some a, some b => some (convertKind a b ++ narrow target)
  | _, _ => none

-- Makes a value of type `source` one of type `target`.
def coerce (source target : TypeRef) : Except LoweringError (List (Item Ref)) :=
  let bad : LoweringError := .badCoerce source.signature target.signature
  match source.stack, target.stack with
  | .void, _ | _, .void => .error bad
  | .obj, .obj =>
    .ok ((if source.isNullable && !target.isNullable then nullCheck else []) ++
      (if !target.isObj && source.jname ≠ target.jname then
        [.const checkCast (.class_ target.jname)]
      else []))
  | a, .obj => box a
  | .obj, b => do
    let items ← unbox b
    return (if source.isNullable then nullCheck else []) ++ items
  | a, b =>
    if a = b then .ok []
    else
      match convert? a b with
      | some codes => .ok (codes.map .op)
      | none => .error bad

end PodCompiler.Lowering.Conversion
