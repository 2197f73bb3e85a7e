import PodCompiler.Archive.Fault

namespace PodCompiler

-- How a finally block is lowered: copied to each place that runs it, or shared as a subroutine.
inductive FinallyStrategy where
  | inline
  | subroutine
  deriving DecidableEq, Repr

def FinallyStrategy.word : FinallyStrategy → String
  | .inline => "inline"
  | .subroutine => "subroutine"

-- How classes are written. `parallel` says that types may be lowered side by side; it never changes
-- what comes out.
structure EmitConfig where
  classMajor : UInt16 := 49
  finallyStrategy : FinallyStrategy := .inline
  emitDynamicSubclasses : Bool := false
  lineNumbers : Bool := true
  sourceFiles : Bool := true
  parallel : Bool := false
  deriving DecidableEq, Repr

inductive LogLevel where
  | debug
  | info
  | warn
  | error
  deriving DecidableEq, Repr

namespace LogLevel

def word : LogLevel → String
  | .debug => "debug"
  | .info => "info"
  | .warn => "warn"
  | .error => "error"

-- Reads a level in any case. A word that is none is given back in lower case.
def ofString (s : String) : Except String LogLevel :=
  match s.map Char.toLower with
  | "debug" => .ok .debug
  | "info" => .ok .info
  | "warn" | "warning" => .ok .warn
  | "error" => .ok .error
  | other => .error other

-- What is said of a word that is no level.
def unknownMessage (word : String) : String :=
  "unknown log level '" ++ word ++ "'"

end LogLevel

-- All settings of a project.
structure ProjectConfig where
  emit : EmitConfig := {}
  logLevel : LogLevel := .info
  deriving DecidableEq, Repr

-- Settings that no class can be written with.
inductive ConfigFault where
  | unsupportedMajor (major : UInt16)
  | subroutineTooNew
  deriving DecidableEq, Repr

-- Why settings cannot be used.
inductive ConfigError where
  | io (fault : Archive.IoFault)
  | parse
  | invalid (fault : ConfigFault)
  deriving DecidableEq, Repr

-- The first class version in which there are no subroutines.
def firstMajorWithoutSubroutines : UInt16 := 51

def ConfigFault.message : ConfigFault → String
  | .unsupportedMajor major => s!"class_major {major.toNat} not supported (45..=52)"
  | .subroutineTooNew =>
    s!"finally_strategy = \"subroutine\" needs class_major < {firstMajorWithoutSubroutines.toNat}"

def ConfigError.message : ConfigError → String
  | .io fault => s!"IO error: {fault.message}"
  | .parse => "Config parse error"
  | .invalid fault => s!"Invalid config: {fault.message}"

-- Checks that the settings go together.
def EmitConfig.validate (c : EmitConfig) : Except ConfigError Unit :=
  if c.classMajor < 45 || 52 < c.classMajor then
    .error (.invalid (.unsupportedMajor c.classMajor))
  else if c.finallyStrategy = .subroutine && firstMajorWithoutSubroutines ≤ c.classMajor then
    .error (.invalid .subroutineTooNew)
  else .ok ()

end PodCompiler
