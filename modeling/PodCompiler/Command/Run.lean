import PodCompiler.Command.Arguments
import PodCompiler.Command.Dump

namespace PodCompiler.Command

open Lowering (PodSet)

-- The settings for a run: those of a file that was named, or those of the project.
def settings (config : Option String) : ConsoleM ProjectConfig := do
  let files := (← get).files
  match config with
  | some path =>
    match loadConfig files path with
    | .ok c => return c
    | .error e => throw ((Failure.ofConfig e).during s!"Failed to load config: {path}")
  | none =>
    match loadProjectConfig files "." with
    | .ok c => return c
    | .error e => throw ((Failure.ofConfig e).during s!"Failed to load {configFile}")

def runEmit (pod out : String) (config : Option String) (dynamic : Bool) (depends : List String) :
    ConsoleM Unit := do
  let project ← settings config
  let emit := if dynamic then { project.emit with emitDynamicSubclasses := true } else project.emit
  let files := (← get).files
  let others ← depends.mapM fun path => ofExcept (openPod files path)
  let written ← emitPod pod out (others.foldl PodSet.add {}) emit
  printLine s!"{written.length} classes -> {out}"

def runCommand : Invocation → ConsoleM Unit
  | .emit pod out config dynamic depends => runEmit pod out config dynamic depends
  | .dump pod => dump pod
  | .ops => dumpOpcodes

-- What a run leaves: its exit code, the report if it failed, and the files with what was printed.
structure Outcome where
  code : UInt32
  report : Option String := none
  console : Console

-- The files that a command reads.
def Invocation.inputs : Invocation → List String
  | .emit pod _ config _ depends => pod :: config.getD configFile :: depends
  | .dump pod => [pod]
  | .ops => []

-- The exit code of a run whose arguments do not fit.
def usageCode : UInt32 := 2

-- Runs a command line on files.
def run (args : List String) (files : FileTree) : Outcome :=
  match Arguments.parse? args with
  | none => { code := usageCode, console := { files } }
  | some a =>
    match (runCommand a.command).run { files } with
    | .ok _ console => { code := 0, console }
    | .error f console => { code := 1, report := some f.report, console }

end PodCompiler.Command
