import PodCompiler.Config.Basic
import PodCompiler.Lowering.Error

namespace PodCompiler.Command

open Archive (IoFault)
open Lowering (LoweringError)
open Pod (FormatError)

structure Failure where
  message : String
  causes : List String := []
  deriving DecidableEq, Repr

namespace Failure

-- What was about to be done when the failure came.
def during (f : Failure) (message : String) : Failure :=
  ⟨message, f.message :: f.causes⟩

def ofIo (e : IoFault) : Failure :=
  ⟨e.message, []⟩

-- A failure of the system is named twice: as that of a pod, and as itself.
def ofFormat : FormatError → Failure
  | .io e => (ofIo e).during (FormatError.message (.io e))
  | e => ⟨e.message, []⟩

def ofLowering : LoweringError → Failure
  | .format e => ofFormat e
  | e => ⟨e.message, []⟩

def ofConfig (e : ConfigError) : Failure :=
  ⟨e.message, []⟩

-- All on one line.
def oneLine (f : Failure) : String :=
  ": ".intercalate (f.message :: f.causes)

-- A cause in the list of causes. Its further lines are indented as the first is.
def indent (first other cause : String) : String :=
  first ++ ("\n" ++ other).intercalate (cause.splitOn "\n")

-- The causes, with numbers if there are several.
def causeLines (causes : List String) : List String :=
  match causes with
  | [cause] => [indent "    " "    " cause]
  | causes => causes.zipIdx.map fun (cause, i) =>
    indent (Text.padLeft ' ' 5 (toString i) ++ ": ") "       " cause

-- The report of a failed command.
def report (f : Failure) : String :=
  let causes :=
    if f.causes.isEmpty then ""
    else "\n\nCaused by:" ++ String.join ((causeLines f.causes).map ("\n" ++ ·))
  s!"Error: {f.message}{causes}\n"

end Failure

end PodCompiler.Command
