import PodCompiler.Config.Basic
import PodCompiler.Toml.Reader

namespace PodCompiler

open Toml (Value)

-- The settings of a section, by name or in their order. A date counts as a section without
-- settings.
inductive Settings where
  | named (entries : List (String × Value))
  | listed (items : List Value)

namespace Settings

def ofValue? : Value → Option Settings
  | .table _ entries => some (.named entries)
  | .array items => some (.listed items)
  | .tables items => some (.listed (items.map (.table .header)))
  | .dateTime => some (.named [])
  | _ => none

def get? (s : Settings) (index : Nat) (name : String) : Option Value :=
  match s with
  | .named entries => (entries.find? (·.1 = name)).map (·.2)
  | .listed items => items[index]?

-- A setting, or its default.
def read (s : Settings) (index : Nat) (name : String) (f : Value → Option α) (default : α) :
    Option α :=
  match s.get? index name with
  | some v => f v
  | none => some default

-- The section of a name; one that is not there has no settings.
def section? (entries : List (String × Value)) (name : String) : Option Settings :=
  match entries.find? (·.1 = name) with
  | some (_, v) => ofValue? v
  | none => some (.named [])

end Settings

namespace Toml.Value

def toBool? : Value → Option Bool
  | .boolean b => some b
  | _ => none

def toUInt16? : Value → Option UInt16
  | .integer v => if 0 ≤ v ∧ v < 0x10000 then some v.toNat.toUInt16 else none
  | _ => none

def isEmpty : Value → Bool
  | .table _ [] | .array [] => true
  | _ => false

-- A word, as a string or as the only key of a table, with nothing in it.
def toWord? : Value → Option String
  | .string text => some text
  | .table _ [(key, v)] => if v.isEmpty then some key else none
  | _ => none

-- One of some things by its word.
def oneOf (all : List α) (word : α → String) (v : Value) : Option α := do
  let text ← v.toWord?
  all.find? (word · = text)

end Toml.Value

namespace EmitConfig

def ofSettings (s : Settings) : Option EmitConfig := do
  let classMajor ← s.read 0 "class_major" Value.toUInt16? 49
  let finallyStrategy ←
    s.read 1 "finally_strategy" (Value.oneOf [.inline, .subroutine] FinallyStrategy.word) .inline
  let emitDynamicSubclasses ← s.read 2 "emit_dynamic_subclasses" Value.toBool? false
  let lineNumbers ← s.read 3 "line_numbers" Value.toBool? true
  let sourceFiles ← s.read 4 "source_files" Value.toBool? true
  let parallel ← s.read 5 "parallel" Value.toBool? false
  return { classMajor, finallyStrategy, emitDynamicSubclasses, lineNumbers, sourceFiles, parallel }

end EmitConfig

namespace ProjectConfig

def ofTable (t : Toml.Table) : Option ProjectConfig := do
  let emit ← EmitConfig.ofSettings (← Settings.section? t.entries "emit")
  let log ← Settings.section? t.entries "log"
  let logLevel ←
    log.read 0 "level" (Value.oneOf [.debug, .info, .warn, .error] LogLevel.word) .info
  return { emit, logLevel }

-- The settings in a text, if they go together. What is not known is ignored.
def parse (text : String) : Except ConfigError ProjectConfig := do
  match (Toml.parse? text).bind ofTable with
  | none => throw .parse
  | some c =>
    c.emit.validate
    return c

-- The text with all settings.
def render (c : ProjectConfig) : String :=
  let e := c.emit
  let quoted (word : String) : String := "\"" ++ word ++ "\""
  String.join ([
    "[emit]",
    s!"class_major = {e.classMajor.toNat}",
    s!"finally_strategy = {quoted e.finallyStrategy.word}",
    s!"emit_dynamic_subclasses = {e.emitDynamicSubclasses}",
    s!"line_numbers = {e.lineNumbers}",
    s!"source_files = {e.sourceFiles}",
    s!"parallel = {e.parallel}",
    "",
    "[log]",
    s!"level = {quoted c.logLevel.word}"].map (· ++ "\n"))

end ProjectConfig

end PodCompiler
