import PodCompiler.Pod.Basic
import PodCompiler.Pod.Writer

namespace PodCompiler.Pod

-- A variable to be written; `default?` is the code of its default value.
structure VarSpec where
  name : String
  type : UInt16
  default? : Option Bytes := none

structure MethodSpec where
  name : String
  flags : UInt32
  ret : UInt16
  inheritedRet : UInt16
  maxStack : UInt8 := 16
  params : List VarSpec := []
  locals : List VarSpec := []
  code : Bytes := #[]
  errs : List ErrEntry := []
  lines : List LineNumber := []

structure FieldSpec where
  name : String
  flags : UInt32
  type : UInt16

structure TypeSpec where
  self : UInt16
  base : Option UInt16 := none
  mixins : List UInt16 := []
  flags : UInt32
  fields : List FieldSpec := []
  methods : List MethodSpec := []
  source : Option String := none

-- The tables of a pod so far. A type ref holds the indices of its names.
structure Builder where
  name : String
  version : String := "1.0"
  depends : List String := ["sys 1.0"]
  names : Array String := #[]
  typeRefs : Array (UInt16 × UInt16 × String) := #[]
  fieldRefs : Array (UInt16 × UInt16 × UInt16) := #[]
  methodRefs : Array (UInt16 × UInt16 × UInt16 × List UInt16) := #[]
  literals : Literals := {}
  magic : UInt32 := Pod.magic
  formatVersion : UInt32 := Pod.formatVersion

abbrev BuildM := StateM Builder

namespace Builder

-- The index of a name.
def intern (s : String) : BuildM UInt16 := fun b =>
  match b.names.idxOf? s with
  | some i => (i.toUInt16, b)
  | none => (b.names.size.toUInt16, { b with names := b.names.push s })

-- The index of a type ref.
def typeRef (pod name sig : String) : BuildM UInt16 := do
  let key := (← intern pod, ← intern name, sig)
  modifyGet fun b =>
    match b.typeRefs.idxOf? key with
    | some i => (i.toUInt16, b)
    | none => (b.typeRefs.size.toUInt16, { b with typeRefs := b.typeRefs.push key })

def fieldRef (parent : UInt16) (name : String) (type : UInt16) : BuildM Unit := do
  let n ← intern name
  modify fun b => { b with fieldRefs := b.fieldRefs.push (parent, n, type) }

def methodRef (parent : UInt16) (name : String) (ret : UInt16) (params : List UInt16) :
    BuildM Unit := do
  let n ← intern name
  modify fun b => { b with methodRefs := b.methodRefs.push (parent, n, ret, params) }

def putAttr (b : Bytes) (attr : String × Bytes) : BuildM Bytes := do
  let n ← intern attr.1
  return (b.put2 n).putBuf attr.2

def putAttrs (attrs : List (String × Bytes)) (b : Bytes) : BuildM Bytes :=
  attrs.foldlM putAttr (b.put2 attrs.length.toUInt16)

def putField (b : Bytes) (f : FieldSpec) : BuildM Bytes := do
  let n ← intern f.name
  putAttrs [] (((b.put2 n).put4 f.flags).put2 f.type)

def putVar (flags : UInt8) (b : Bytes) (v : VarSpec) : BuildM Bytes := do
  let n ← intern v.name
  let attrs := match v.default? with
    | some code => [("ParamDefault", code)]
    | none => []
  putAttrs attrs (((b.put2 n).put2 v.type).put1 flags)

def putErrEntry (b : Bytes) (e : ErrEntry) : Bytes :=
  (((b.put2 e.start).put2 e.stop).put2 e.handler).put2 e.type

def putLineNumber (b : Bytes) (l : LineNumber) : Bytes :=
  (b.put2 l.pc).put2 l.line

-- Tables that are empty have no attribute.
def methodAttrs (m : MethodSpec) : List (String × Bytes) :=
  (if m.errs.isEmpty then [] else [("ErrTable", Bytes.putTable #[] m.errs putErrEntry)]) ++
  (if m.lines.isEmpty then [] else [("LineNumbers", Bytes.putTable #[] m.lines putLineNumber)])

def putMethod (b : Bytes) (m : MethodSpec) : BuildM Bytes := do
  let n ← intern m.name
  let b := (((b.put2 n).put4 m.flags).put2 m.ret).put2 m.inheritedRet
  let b := ((b.put1 m.maxStack).put1 m.params.length.toUInt8).put1 m.locals.length.toUInt8
  let b ← m.params.foldlM (putVar Flag.param) b
  let b ← m.locals.foldlM (putVar 0) b
  putAttrs (methodAttrs m) (b.putBuf m.code)

def typeBody (t : TypeSpec) : BuildM Bytes := do
  let b ← t.fields.foldlM putField (Bytes.put2 #[] t.fields.length.toUInt16)
  let b ← t.methods.foldlM putMethod (b.put2 t.methods.length.toUInt16)
  let attrs := match t.source with
    | some file => [("SourceFile", Bytes.putUtf #[] file)]
    | none => []
  putAttrs attrs b

-- The name of the type that a type ref stands for; an index that has none counts as the first.
def typeName (b : Builder) (self : UInt16) : String :=
  let name := (b.typeRefs[self.toNat]?.map fun (_, name, _) => name).getD 0
  b.names.getD name.toNat ""

-- Appends the entry of a type's body, with which the names in it get their numbers.
def putTypeBody (entries : Archive.Entries) (t : TypeSpec) : BuildM Archive.Entries := do
  let body ← typeBody t
  return entries.insert (bodyEntry ((← get).typeName t.self)) body

def putTypeMeta (b : Bytes) (t : TypeSpec) : Bytes :=
  let b := (b.put2 t.self).put2 (t.base.getD TypeDef.nullIndex)
  (b.putTable t.mixins Bytes.put2).put4 t.flags

def head (b : Builder) : Bytes :=
  let out := Bytes.put4 (Bytes.be4 b.magic) b.formatVersion
  let out := ((out.putUtf b.name).putUtf b.version).put1 b.depends.length.toUInt8
  (b.depends.foldl Bytes.putUtf out).put2 0

def putTypeRef (b : Bytes) (r : UInt16 × UInt16 × String) : Bytes :=
  ((b.put2 r.1).put2 r.2.1).putUtf r.2.2

def putFieldRef (b : Bytes) (r : UInt16 × UInt16 × UInt16) : Bytes :=
  ((b.put2 r.1).put2 r.2.1).put2 r.2.2

def putMethodRef (b : Bytes) (r : UInt16 × UInt16 × UInt16 × List UInt16) : Bytes :=
  let b := ((b.put2 r.1).put2 r.2.1).put2 r.2.2.1
  r.2.2.2.foldl Bytes.put2 (b.put1 r.2.2.2.length.toUInt8)

-- The entries of the tables, after all names have their numbers.
def tableEntries (b : Builder) (types : List TypeSpec) : List (String × Bytes) := [
  ("fcode/pod.def", b.head),
  ("fcode/types.def", Bytes.putTable #[] types putTypeMeta),
  ("fcode/typeRefs.def", Bytes.putTable #[] b.typeRefs.toList putTypeRef),
  ("fcode/fieldRefs.def", Bytes.putTable #[] b.fieldRefs.toList putFieldRef),
  ("fcode/methodRefs.def", Bytes.putTable #[] b.methodRefs.toList putMethodRef),
  ("fcode/names.def", Bytes.putTable #[] b.names.toList Bytes.putUtf),
  ("fcode/ints.def", Bytes.putTable #[] (b.literals.ints.toList.map Int64.toUInt64) Bytes.put8),
  ("fcode/floats.def", Bytes.putTable #[] b.literals.floats.toList Bytes.put8),
  ("fcode/durations.def",
    Bytes.putTable #[] (b.literals.durations.toList.map Int64.toUInt64) Bytes.put8),
  ("fcode/decimals.def", Bytes.putTable #[] b.literals.decimals.toList Bytes.putUtf),
  ("fcode/strs.def", Bytes.putTable #[] b.literals.strs.toList Bytes.putUtf),
  ("fcode/uris.def", Bytes.putTable #[] b.literals.uris.toList Bytes.putUtf)]

-- The entries of the pod: the bodies of the types, then the tables.
def build (b : Builder) (types : List TypeSpec) : Archive.Entries :=
  let (bodies, b) := (types.foldlM putTypeBody {}).run b
  (b.tableEntries types).foldl (fun e item => e.insert item.1 item.2) bodies

end Builder

end PodCompiler.Pod
