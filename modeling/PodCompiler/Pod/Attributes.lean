import PodCompiler.Pod.Symbols

namespace PodCompiler.Pod

-- A protected range of code, its handler, and the type that is caught.
structure ErrEntry where
  start : UInt16
  stop : UInt16
  handler : UInt16
  type : UInt16
  deriving DecidableEq, Repr

-- The source line of the instruction at a position.
structure LineNumber where
  pc : UInt16
  line : UInt16
  deriving DecidableEq, Repr

-- Named byte runs in their order. What a name means is decided when it is asked for.
structure Attributes where
  items : Array (String × Bytes) := #[]
  deriving DecidableEq, Repr

namespace Attributes

def readItem (s : Symbols) : Read (String × Bytes) := do
  let name ← s.readName
  let data ← Read.buf
  return (name, data)

def read (s : Symbols) : Read Attributes :=
  Attributes.mk <$> Read.table (readItem s)

-- The first attribute of the name.
def get? (a : Attributes) (name : String) : Option Bytes :=
  (a.items.find? (·.1 = name)).map (·.2)

def readErrEntry : Read ErrEntry := do
  let start ← Read.u2
  let stop ← Read.u2
  let handler ← Read.u2
  let type ← Read.u2
  return { start, stop, handler, type }

def readLineNumber : Read LineNumber := do
  let pc ← Read.u2
  let line ← Read.u2
  return { pc, line }

-- The table in an attribute; without the attribute it is empty.
def table (a : Attributes) (name : String) (item : Read α) : Except FormatError (Array α) :=
  match a.get? name with
  | some data => (Read.table item).runOn data name
  | none => .ok #[]

-- The value in an attribute, if it is there.
def value (a : Attributes) (name : String) (r : Read α) : Except FormatError (Option α) :=
  match a.get? name with
  | some data => some <$> r.runOn data name
  | none => .ok none

def errTable (a : Attributes) : Except FormatError (Array ErrEntry) :=
  a.table "ErrTable" readErrEntry

def lineNumbers (a : Attributes) : Except FormatError (Array LineNumber) :=
  a.table "LineNumbers" readLineNumber

def lineNumber (a : Attributes) : Except FormatError (Option UInt16) :=
  a.value "LineNumber" Read.u2

def sourceFile (a : Attributes) : Except FormatError (Option String) :=
  a.value "SourceFile" Read.utf

end Attributes

end PodCompiler.Pod
