import PodCompiler.ClassFile.Draft
import PodCompiler.Decimal.Layout
import PodCompiler.Pod.Cursor
import PodCompiler.Text.Quoted

namespace PodCompiler.ClassFile

open Pod (Cursor FormatError Read)

-- The constant as text: its kind, and its parts in brackets.
def Constant.debug : Constant → String
  | .utf8 s => s!"Utf8({Text.Quoted.encode s})"
  | .integer v => s!"Integer({v.toInt})"
  | .float bits => s!"Float({(Decimal.ofBits Decimal.single bits.toNat).render Decimal.tagged})"
  | .long v => s!"Long({v.toInt})"
  | .double bits => s!"Double({(Decimal.ofBits Decimal.double bits.toNat).render Decimal.tagged})"
  | .class n => s!"Class({n.toNat})"
  | .string n => s!"String({n.toNat})"
  | .fieldref m n => s!"Fieldref({m.toNat}, {n.toNat})"
  | .methodref m n => s!"Methodref({m.toNat}, {n.toNat})"
  | .interfaceMethodref m n => s!"InterfaceMethodref({m.toNat}, {n.toNat})"
  | .nameAndType m n => s!"NameAndType({m.toNat}, {n.toNat})"

-- A read of a class file: it fails for the reasons of a class file.
abbrev ParseM := EStateM ClassError Cursor

def ParseM.ofRead (r : Read α) : ParseM α := fun c =>
  match r c with
  | .ok a c => .ok a c
  | .error e c => .error (.malformed (.unreadable e)) c

instance : MonadLift Read ParseM := ⟨ParseM.ofRead⟩

def ParseM.ofExcept : Except ClassError α → ParseM α
  | .ok a => pure a
  | .error e => throw e

instance : MonadLift (Except ClassError) ParseM := ⟨ParseM.ofExcept⟩

-- `m`, `n` times over; what the first runs gave stands in `done`.
def ParseM.timesAfter (m : ParseM α) (done : Array α) : Nat → ParseM (Array α)
  | 0 => pure done
  | n + 1 => do timesAfter m (done.push (← m)) n

-- A two-byte count and that many items.
def ParseM.table (m : ParseM α) : ParseM (Array α) := do
  timesAfter m #[] (← Read.u2).toNat

structure ParsedException where
  startPc : UInt16
  endPc : UInt16
  handlerPc : UInt16
  catchType : Option String
  deriving DecidableEq, Repr

structure ParsedCode where
  maxStack : UInt16
  maxLocals : UInt16
  code : Bytes
  exceptions : Array ParsedException
  lines : Array LineEntry
  deriving DecidableEq, Repr

structure ParsedField where
  access : UInt16
  name : String
  desc : String
  deriving DecidableEq, Repr

structure ParsedMethod where
  access : UInt16
  name : String
  desc : String
  code : Option ParsedCode
  deriving DecidableEq, Repr

-- The constants of a class by index. Index zero and the second index of a long or a double are
-- empty.
abbrev ConstantTable := Array (Option Constant)

namespace ConstantTable

-- The constant at an index.
def get (t : ConstantTable) (i : UInt16) : Except ClassError Constant :=
  match t[i.toNat]? with
  | some (some c) => .ok c
  | _ => .error (.malformed (.noConstant i))

def utf8 (t : ConstantTable) (i : UInt16) : Except ClassError String := do
  match ← t.get i with
  | .utf8 s => .ok s
  | other => .error (.malformed (.notUtf8 other.debug))

def className (t : ConstantTable) (i : UInt16) : Except ClassError String := do
  match ← t.get i with
  | .class n => t.utf8 n
  | other => .error (.malformed (.notClass other.debug))

def nameAndType (t : ConstantTable) (i : UInt16) : Except ClassError (String × String) := do
  match ← t.get i with
  | .nameAndType n d => return (← t.utf8 n, ← t.utf8 d)
  | other => .error (.malformed (.notNameAndType other.debug))

-- What an instruction that refers to the constant is about: a member with its owner, the text of a
-- string, the name of a class, or a number.
def describe (t : ConstantTable) (i : UInt16) : Except ClassError String := do
  match ← t.get i with
  | .fieldref c nt =>
    let (name, desc) ← t.nameAndType nt
    let owner ← t.className c
    return s!"{owner}.{name}:{desc}"
  | .methodref c nt | .interfaceMethodref c nt =>
    let (name, desc) ← t.nameAndType nt
    let owner ← t.className c
    return s!"{owner}.{name}{desc}"
  | .class n | .string n => t.utf8 n
  | .integer v => .ok (toString v.toInt)
  | .long v => .ok (toString v.toInt)
  | .float bits => .ok ((Decimal.ofBits Decimal.single bits.toNat).render Decimal.plain)
  | .double bits => .ok ((Decimal.ofBits Decimal.double bits.toNat).render Decimal.plain)
  | other => .error (.malformed (.notDescribable other.debug))

end ConstantTable

structure Parsed where
  major : UInt16
  access : UInt16
  name : String
  superName : String
  interfaces : Array String
  fields : Array ParsedField
  methods : Array ParsedMethod
  sourceFile : Option String
  pool : ConstantTable
  deriving DecidableEq, Repr

namespace Parsed

-- The next `n` bytes, one by one: a failure stands at the end of the file.
def bytes (n : Nat) : Read Bytes := fun c =>
  if n ≤ c.remaining then Read.take n c
  else .error (.truncated c.what c.bytes.size) { c with pos := c.bytes.size }

def text (n : Nat) : ParseM String := do
  match Text.ModifiedUtf8.decode (← bytes n) with
  | .ok s => pure s
  | .error fault => throw (.malformed (.unreadable (.text fault)))

-- The constant behind a tag.
def constant : ParseM Constant := do
  let tag ← Read.u1
  match tag.toNat with
  | 1 => return .utf8 (← text (← Read.u2).toNat)
  | 3 => return .integer (← Read.u4).toInt32
  | 4 => return .float (← Read.u4)
  | 5 => return .long (← Read.i8)
  | 6 => return .double (← Read.u8)
  | 7 => return .class (← Read.u2)
  | 8 => return .string (← Read.u2)
  | 9 => return .fieldref (← Read.u2) (← Read.u2)
  | 10 => return .methodref (← Read.u2) (← Read.u2)
  | 11 => return .interfaceMethodref (← Read.u2) (← Read.u2)
  | 12 => return .nameAndType (← Read.u2) (← Read.u2)
  | _ => throw (.malformed (.unknownTag tag))

-- Constants up to `count` indices. `table` holds those read so far; a wide constant leaves the next
-- index empty, and none of it past the count.
def constants (count : Nat) (table : ConstantTable) : ParseM ConstantTable := do
  if table.size < count then
    let c ← constant
    constants count
      (if c.isWide && table.size + 1 < count then (table.push (some c)).push none
        else table.push (some c))
  else return table
termination_by count - table.size
decreasing_by
  rename_i h
  split <;> simp <;> omega

-- Skips attributes.
def skipAttribute : ParseM Unit := do
  let _ ← Read.u2
  Read.skip (← Read.u4).toNat

def field (pool : ConstantTable) : ParseM ParsedField := do
  let access ← Read.u2
  let name ← pool.utf8 (← Read.u2)
  let desc ← pool.utf8 (← Read.u2)
  let _ ← ParseM.table skipAttribute
  return { access, name, desc }

def exception (pool : ConstantTable) : ParseM ParsedException := do
  let startPc ← Read.u2
  let endPc ← Read.u2
  let handlerPc ← Read.u2
  let index ← Read.u2
  let catchType ← if index = 0 then pure none else some <$> pool.className index
  return { startPc, endPc, handlerPc, catchType }

def line : ParseM LineEntry := do
  return ⟨← Read.u2, ← Read.u2⟩

-- The lines of an attribute of some code; other attributes have none.
def codeAttribute (pool : ConstantTable) : ParseM (Array LineEntry) := do
  let attr ← pool.utf8 (← Read.u2)
  let size ← Read.u4
  if attr = "LineNumberTable" then ParseM.table line
  else
    Read.skip size.toNat
    return #[]

def code (pool : ConstantTable) : ParseM ParsedCode := do
  let maxStack ← Read.u2
  let maxLocals ← Read.u2
  let code ← bytes (← Read.u4).toNat
  let exceptions ← ParseM.table (exception pool)
  let lines ← ParseM.table (codeAttribute pool)
  return { maxStack, maxLocals, code, exceptions, lines := lines.flatten }

-- The code of an attribute of a method, if it is one.
def methodAttribute (pool : ConstantTable) : ParseM (Option ParsedCode) := do
  let attr ← pool.utf8 (← Read.u2)
  let size ← Read.u4
  if attr = "Code" then some <$> code pool
  else
    Read.skip size.toNat
    return none

-- The last value that is given, if any is.
def lastGiven (xs : Array (Option α)) : Option α :=
  xs.foldl (fun last x => x.or last) none

def method (pool : ConstantTable) : ParseM ParsedMethod := do
  let access ← Read.u2
  let name ← pool.utf8 (← Read.u2)
  let desc ← pool.utf8 (← Read.u2)
  let attrs ← ParseM.table (methodAttribute pool)
  return { access, name, desc, code := lastGiven attrs }

-- The source file of an attribute of a class, if it names one.
def classAttribute (pool : ConstantTable) : ParseM (Option String) := do
  let attr ← pool.utf8 (← Read.u2)
  let size ← Read.u4
  if attr = "SourceFile" then some <$> pool.utf8 (← Read.u2)
  else
    Read.skip size.toNat
    return none

def read : ParseM Parsed := do
  let found ← Read.u4
  if found ≠ magic then throw (.malformed (.badMagic found))
  let _ ← Read.u2
  let major ← Read.u2
  let count ← Read.u2
  let pool ← constants count.toNat #[none]
  let access ← Read.u2
  let name ← pool.className (← Read.u2)
  let superName ← pool.className (← Read.u2)
  let interfaces ← ParseM.table do pool.className (← Read.u2)
  let fields ← ParseM.table (field pool)
  let methods ← ParseM.table (method pool)
  let attrs ← ParseM.table (classAttribute pool)
  let sourceFile := lastGiven attrs
  return { major, access, name, superName, interfaces, fields, methods, sourceFile, pool }

-- Reads a class file; bytes after its end are not looked at.
def parse (b : Bytes) : Except ClassError Parsed :=
  match read.run (Cursor.start b "class") with
  | .ok c _ => .ok c
  | .error e _ => .error e

def findMethod? (c : Parsed) (name desc : String) : Option ParsedMethod :=
  c.methods.find? fun m => m.name = name && m.desc = desc

def methodsNamed (c : Parsed) (name : String) : Array ParsedMethod :=
  c.methods.filter (·.name = name)

end Parsed

end PodCompiler.ClassFile
