import PodCompiler.Lowering.OpenClass

namespace PodCompiler

namespace Pod

-- A literal.
inductive Literal where
  | int (value : Int64)
  | float (bits : UInt64)
  | decimal (text : String)
  | str (text : String)
  | duration (nanos : Int64)
  | uri (text : String)
  deriving DecidableEq, Repr

def Literal.kind : Literal → LiteralKind
  | .int _ => .int
  | .float _ => .float
  | .decimal _ => .decimal
  | .str _ => .str
  | .duration _ => .duration
  | .uri _ => .uri

-- The literals of one kind.
def LiteralKind.literals (k : LiteralKind) (l : Literals) : List Literal :=
  match k with
  | .int => l.ints.toList.map .int
  | .float => l.floats.toList.map .float
  | .decimal => l.decimals.toList.map .decimal
  | .str => l.strs.toList.map .str
  | .duration => l.durations.toList.map .duration
  | .uri => l.uris.toList.map .uri

namespace Literals

-- The literals with the names of their fields, in the order of the fields.
def values (l : Literals) : List (String × Literal) :=
  LiteralKind.all.flatMap fun k =>
    (k.literals l).zipIdx.map fun (v, index) => (k.fieldName index, v)

-- The literal in a field.
def get? (l : Literals) (field : String) : Option Literal :=
  (l.values.find? (·.1 = field)).map (·.2)

end Literals

end Pod

namespace Lowering

open ClassFile (Draft DraftM)
open Pod (LiteralKind)

-- The fields of the literals, with their descriptors.
def literalFields (l : Pod.Literals) : List (String × String) :=
  LiteralKind.all.flatMap fun k =>
    (List.range (k.count l)).map fun index => (k.fieldName index, k.desc)

def addLiteralFields (l : Pod.Literals) : DraftM Unit :=
  (literalFields l).forM fun (name, desc) =>
    Draft.addField (ClassFile.Access.public_ ||| ClassFile.Access.static_) name desc

-- The class of the literals of a pod. Its fields have no values yet.
def lowerLiterals (pod : Pod) (config : EmitConfig) : Except LoweringError ClassOutput := do
  let name := literalClass pod.name
  let access := ClassFile.Access.public_ ||| ClassFile.Access.super_ ||| ClassFile.Access.final_
  OpenClass.build name "java/lang/Object" access config (addLiteralFields pod.literals)

end Lowering

end PodCompiler
