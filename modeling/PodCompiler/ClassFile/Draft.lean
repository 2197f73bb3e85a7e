import PodCompiler.ClassFile.CodeBuffer
import PodCompiler.ClassFile.Pool

namespace PodCompiler.ClassFile

-- What a class file starts with.
def magic : UInt32 := 0xCAFEBABE

-- A field, with the indices of its name and its descriptor.
structure FieldInfo where
  access : UInt16
  name : String
  desc : String
  nameIndex : UInt16
  descIndex : UInt16

-- A method; an abstract one has no code.
structure MethodInfo where
  access : UInt16
  name : String
  desc : String
  code : Option CodeBuffer
  nameIndex : UInt16
  descIndex : UInt16

structure Draft where
  name : String
  superName : String
  access : UInt16
  major : UInt16
  minor : UInt16 := 0
  interfaces : Array (String × UInt16) := #[]
  fields : Array FieldInfo := #[]
  methods : Array MethodInfo := #[]
  sourceFile : Option String := none
  pool : Pool
  thisIndex : UInt16
  superIndex : UInt16

-- A step in the construction of a class.
abbrev DraftM := EStateM ClassError Draft

namespace Draft

-- A class without members. Its own name and that of its superclass open the pool.
def create (name superName : String) (access major : UInt16) : Except ClassError Draft :=
  let names : PoolM (UInt16 × UInt16) := do
    let thisIndex ← Pool.class_ name
    let superIndex ← Pool.class_ superName
    return (thisIndex, superIndex)
  match names.run {} with
  | .ok (thisIndex, superIndex) pool =>
    .ok { name, superName, access, major, pool, thisIndex, superIndex }
  | .error e _ => .error e

-- Runs an insertion on the pool of the class.
def onPool (m : PoolM α) : DraftM α := fun d =>
  let pool := d.pool
  let d := { d with pool := {} }
  match m pool with
  | .ok a pool => .ok a { d with pool }
  | .error e pool => .error e { d with pool }

def setSourceFile (file : Option String) (d : Draft) : Draft :=
  { d with sourceFile := file }

-- An interface is listed once.
def addInterface (name : String) : DraftM Unit := do
  if (← get).interfaces.any (·.1 = name) then return
  let i ← onPool (Pool.class_ name)
  modify fun d => { d with interfaces := d.interfaces.push (name, i) }

def addField (access : UInt16) (name desc : String) : DraftM Unit := do
  let nameIndex ← onPool (Pool.utf8 name)
  let descIndex ← onPool (Pool.utf8 desc)
  modify fun d =>
    { d with fields := d.fields.push { access, name, desc, nameIndex, descIndex } }

-- Code that is too large is refused before anything changes.
def addMethod (access : UInt16) (name desc : String) (code : Option CodeBuffer) : DraftM Unit := do
  match code.map CodeBuffer.checkSize with
  | some (.error e) => throw e
  | _ =>
    let nameIndex ← onPool (Pool.utf8 name)
    let descIndex ← onPool (Pool.utf8 desc)
    modify fun d =>
      { d with methods := d.methods.push { access, name, desc, code, nameIndex, descIndex } }

def hasField (d : Draft) (name : String) : Bool :=
  d.fields.any (·.name = name)

def hasMethod (d : Draft) (name desc : String) : Bool :=
  d.methods.any fun m => m.name = name && m.desc = desc

def findMethod? (d : Draft) (name : String) : Option MethodInfo :=
  d.methods.find? (·.name = name)

-- The indices of the attribute names, and of the source file behind its attribute name.
structure AttrIndices where
  code : UInt16
  lines : UInt16
  source : Option (UInt16 × UInt16)

-- Inserts the attribute names that the class needs.
def attrNames (d : Draft) : PoolM AttrIndices := do
  let code ← Pool.utf8 "Code"
  let hasLines := d.methods.any fun m => m.code.any fun c => !c.lines.isEmpty
  let lines ← if hasLines then Pool.utf8 "LineNumberTable" else pure 0
  match d.sourceFile with
  | none => return { code, lines, source := none }
  | some file =>
    let attr ← Pool.utf8 "SourceFile"
    let name ← Pool.utf8 file
    return { code, lines, source := some (attr, name) }

-- The number of bytes of a line table after its name and its length.
def lineTableSize (c : CodeBuffer) : Nat :=
  2 + 4 * c.lines.size

-- The number of bytes of a code attribute after its name and its length.
def codeAttrSize (c : CodeBuffer) : Nat :=
  2 + 2 + 4 + c.code.size + 2 + 8 * c.exceptions.size + 2 +
    (if c.lines.isEmpty then 0 else 6 + lineTableSize c)

def putException (b : Bytes) (e : ExceptionEntry) : Bytes :=
  (((b.put2 e.startPc).put2 e.endPc).put2 e.handlerPc).put2 e.catchType

def putLine (b : Bytes) (l : LineEntry) : Bytes :=
  (b.put2 l.startPc).put2 l.line

def putLineTable (b : Bytes) (c : CodeBuffer) (linesName : UInt16) : Bytes :=
  if c.lines.isEmpty then b.put2 0
  else
    (((b.put2 1).put2 linesName).put4 (lineTableSize c).toUInt32).putTable c.lines.toList putLine

def putCode (b : Bytes) (c : CodeBuffer) (attrs : AttrIndices) : Bytes :=
  let b := (b.put2 attrs.code).put4 (codeAttrSize c).toUInt32
  let b := ((b.put2 c.maxStack).put2 c.maxLocals).put4 c.code.size.toUInt32 ++ c.code
  let b := b.putTable c.exceptions.toList putException
  putLineTable b c attrs.lines

def putField (b : Bytes) (f : FieldInfo) : Bytes :=
  (((b.put2 f.access).put2 f.nameIndex).put2 f.descIndex).put2 0

def putMethod (attrs : AttrIndices) (b : Bytes) (m : MethodInfo) : Bytes :=
  let b := ((b.put2 m.access).put2 m.nameIndex).put2 m.descIndex
  match m.code with
  | none => b.put2 0
  | some c => putCode (b.put2 1) c attrs

def putSource (b : Bytes) : Option (UInt16 × UInt16) → Bytes
  | none => b.put2 0
  | some (attr, file) => (((b.put2 1).put2 attr).put4 2).put2 file

-- The bytes of the class, over a pool that holds all names. Of a count or a length that is too large
-- for its two bytes the low end is written.
def serialize (d : Draft) (pool : Pool) (attrs : AttrIndices) : Bytes :=
  let b := ((Bytes.be4 magic).put2 d.minor).put2 d.major
  let b := pool.put b
  let b := ((b.put2 d.access).put2 d.thisIndex).put2 d.superIndex
  let b := b.putTable (d.interfaces.toList.map (·.2)) Bytes.put2
  let b := b.putTable d.fields.toList putField
  let b := b.putTable d.methods.toList (putMethod attrs)
  putSource b attrs.source

-- The finished class.
def finish (d : Draft) : Except ClassError Bytes :=
  match (attrNames d).run d.pool with
  | .ok attrs pool => .ok (serialize d pool attrs)
  | .error e _ => .error e

end Draft

end PodCompiler.ClassFile
