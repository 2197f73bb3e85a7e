import PodCompiler.Archive.Zip
import PodCompiler.Pod.Cursor
import PodCompiler.TypeRef.Basic

namespace PodCompiler.Pod

open Archive (Store)

-- A field as code refers to it. The parent and the type are type refs.
structure FieldRef where
  parent : UInt16
  name : String
  type : UInt16
  deriving DecidableEq, Repr

-- A method as code refers to it.
structure MethodRef where
  parent : UInt16
  name : String
  ret : UInt16
  params : Array UInt16
  deriving DecidableEq, Repr

-- The tables that all other entries of a pod refer to by index.
structure Symbols where
  names : Array String := #[]
  typeRefs : Array TypeRef := #[]
  fieldRefs : Array FieldRef := #[]
  methodRefs : Array MethodRef := #[]
  deriving Repr

namespace Symbols

-- The item of a table at an index.
def lookup (table : String) (items : Array α) (i : UInt16) : Except FormatError α :=
  match items[i.toNat]? with
  | some a => .ok a
  | none => .error (.badIndex table i.toNat items.size)

def name (s : Symbols) (i : UInt16) : Except FormatError String :=
  lookup "names" s.names i

def typeRef (s : Symbols) (i : UInt16) : Except FormatError TypeRef :=
  lookup "typeRefs" s.typeRefs i

def fieldRef (s : Symbols) (i : UInt16) : Except FormatError FieldRef :=
  lookup "fieldRefs" s.fieldRefs i

def methodRef (s : Symbols) (i : UInt16) : Except FormatError MethodRef :=
  lookup "methodRefs" s.methodRefs i

-- Reads the index of a name, and gives the name.
def readName (s : Symbols) : Read String := do
  Read.ofExcept (s.name (← Read.u2))

def readTypeRef (s : Symbols) : Read TypeRef := do
  let pod ← s.readName
  let name ← s.readName
  let sig ← Read.utf
  return { pod, name, sig }

def readFieldRef (s : Symbols) : Read FieldRef := do
  let parent ← Read.u2
  let name ← s.readName
  let type ← Read.u2
  return { parent, name, type }

def readMethodRef (s : Symbols) : Read MethodRef := do
  let parent ← Read.u2
  let name ← s.readName
  let ret ← Read.u2
  let count ← Read.u1
  let params ← Read.times count.toNat Read.u2
  return { parent, name, ret, params }

end Symbols

-- The table in an entry of the store; a missing entry is an empty table.
def readTable (store : Store) (entry what : String) (item : Read α) :
    Except FormatError (Array α) := do
  match ← store.read entry with
  | some data => (Read.table item).runOn data what
  | none => return #[]

-- Reads the four tables, the names before the tables that use them.
def Symbols.load (store : Store) : Except FormatError Symbols := do
  let names ← readTable store "fcode/names.def" "names" Read.utf
  let named : Symbols := { names }
  let typeRefs ← readTable store "fcode/typeRefs.def" "typeRefs" named.readTypeRef
  let fieldRefs ← readTable store "fcode/fieldRefs.def" "fieldRefs" named.readFieldRef
  let methodRefs ← readTable store "fcode/methodRefs.def" "methodRefs" named.readMethodRef
  return { names, typeRefs, fieldRefs, methodRefs }

end PodCompiler.Pod
