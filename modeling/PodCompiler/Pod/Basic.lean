import PodCompiler.Pod.Definition
import PodCompiler.Pod.Literals
import PodCompiler.Text.Quoted

namespace PodCompiler

open Pod Archive

-- A loaded pod and the store that it came from.
structure Pod where
  name : String
  version : String
  depends : Array String
  attrs : Attributes
  symbols : Symbols
  literals : Literals
  types : Array TypeDef
  store : Store

namespace Pod

-- What the head of a pod starts with.
def magic : UInt32 := 0x0FC0DE05

def formatVersion : UInt32 := 0x01000016

-- The entry that holds the body of a type.
def bodyEntry (typeName : String) : String :=
  s!"fcode/{typeName}.fcode"

-- The head of a pod.
structure Head where
  name : String
  version : String
  depends : Array String
  attrs : Attributes

def readHead (s : Symbols) : Read Head := do
  let found ← Read.u4
  if found ≠ magic then throw (.badMagic found)
  let version ← Read.u4
  if version ≠ formatVersion then throw (.badVersion version)
  let name ← Read.utf
  let version ← Read.utf
  let count ← Read.u1
  let depends ← Read.times count.toNat Read.utf
  let attrs ← Attributes.read s
  return { name, version, depends, attrs }

-- A type of the list; its own type ref must be in the table.
def readType (s : Symbols) : Read TypeDef := do
  let t ← TypeDef.readMeta
  let _ ← Read.ofExcept (s.typeRef t.self)
  return t

def load (store : Store) : Except FormatError Pod := do
  let symbols ← Symbols.load store
  let data ← store.readRequired "fcode/pod.def"
  let head ← (readHead symbols).runOn data "pod.def"
  let types ← readTable store "fcode/types.def" "types.def" (readType symbols)
  let literals ← Literals.load store
  return {
    name := head.name
    version := head.version
    depends := head.depends
    attrs := head.attrs
    symbols, literals, types, store }

-- The type at an index.
def typeAt (p : Pod) (index : Nat) : Except FormatError TypeDef :=
  match p.types[index]? with
  | some t => .ok t
  | none => .error (.badIndex "types" index p.types.size)

def typeRefOf (p : Pod) (index : Nat) : Except FormatError TypeRef := do
  p.symbols.typeRef (← p.typeAt index).self

-- The index of the first type of the name.
def findType? (p : Pod) (name : String) : Option Nat :=
  p.types.findIdx? fun t =>
    match p.symbols.typeRef t.self with
    | .ok r => r.name = name
    | .error _ => false

-- The pod with the body of a type, which is read if it was not before.
def readBody (p : Pod) (index : Nat) : Except FormatError Pod := do
  let t ← p.typeAt index
  let r ← p.symbols.typeRef t.self
  if t.isHollow then
    let data ← p.store.readRequired (bodyEntry r.name)
    let body ← (TypeBody.read p.symbols).runOn data "type body"
    return { p with types := p.types.setIfInBounds index { t with body? := some body } }
  else return p

-- Reads the bodies of the types at the indices. On a failure the pod has those that came before.
def readBodies (p : Pod) : List Nat → Pod × Except FormatError Unit
  | [] => (p, .ok ())
  | i :: rest =>
    match p.readBody i with
    | .ok p => p.readBodies rest
    | .error e => (p, .error e)

def readAllBodies (p : Pod) : Pod × Except FormatError Unit :=
  p.readBodies (List.range p.types.size)

-- Loads a pod and reads all bodies.
def loadFull (store : Store) : Except FormatError Pod := do
  match (← load store).readAllBodies with
  | (p, .ok _) => return p
  | (_, .error e) => throw e

-- The pod in short.
def debug (p : Pod) : String :=
  let quoted := Text.Quoted.encode
  let depends := ", ".intercalate (p.depends.toList.map quoted)
  "FPod \x7b name: " ++ quoted p.name ++ ", version: " ++ quoted p.version ++ ", depends: [" ++
    depends ++ "], types: " ++ toString p.types.size ++ " \x7d"

end Pod

end PodCompiler
