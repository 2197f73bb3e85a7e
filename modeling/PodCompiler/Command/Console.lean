import PodCompiler.Command.Failure
import PodCompiler.Command.FileTree
import PodCompiler.Config.Text
import PodCompiler.Lowering.Pod
import PodCompiler.Text.LossyUtf8

namespace PodCompiler.Command

open Archive (IoFault)
open Lowering (ClassOutput PodSet)

-- The files, the classes that were written among them, in their order, and what was printed so far.
structure Console where
  files : FileTree := {}
  written : List (String × Bytes) := []
  output : String := ""

-- What was written before a failure stays.
abbrev ConsoleM := EStateM Failure Console

def printLine (line : String) : ConsoleM Unit :=
  modify fun c => { c with output := c.output ++ line ++ "\n" }

-- A change of the files.
def onFiles (f : FileTree → Except IoFault FileTree) (doing : String) : ConsoleM Unit := do
  match f (← get).files with
  | .ok files => modify fun c => { c with files }
  | .error e => throw ((Failure.ofIo e).during doing)

-- The file in a directory in which the settings of a project stand.
def configFile : String := "fanjvm.toml"

-- The settings in a file.
def loadConfig (t : FileTree) (path : String) : Except ConfigError ProjectConfig := do
  let data ← (t.read path).mapError .io
  match Text.LossyUtf8.decodeStrict? data with
  | some text => ProjectConfig.parse text
  | none => throw (.io .invalidText)

-- The settings of the project in a directory; without a file they are the defaults.
def loadProjectConfig (t : FileTree) (dir : String) : Except ConfigError ProjectConfig :=
  let path := Path.join dir configFile
  if t.exists? path then loadConfig t path else .ok {}

-- The pod in a file, with all bodies.
def openPod (t : FileTree) (path : String) : Except Failure Pod := do
  let pod ←
    (do
      let data ← (t.read path).mapError Pod.FormatError.io
      Pod.load (.zip (← Archive.Zip.ofBytes data))).mapError fun e =>
        (Failure.ofFormat e).during s!"Failed to open pod: {path}"
  match pod.readAllBodies with
  | (pod, .ok _) => return pod
  | (_, .error e) => throw ((Failure.ofFormat e).during s!"Failed to read types of {path}")

-- Writes a class below a directory. The result is the path of its file.
def writeClass (out : String) (c : ClassOutput) : ConsoleM String := do
  let path := Path.join out c.path
  let dir := Path.parent path
  onFiles (·.makeDirectories dir) s!"Failed to create directory: {dir}"
  onFiles (·.write path c.bytes) s!"Failed to write class: {path}"
  modify fun console => { console with written := console.written ++ [(path, c.bytes)] }
  return path

-- Lowers the pod in a file among other pods and writes its classes below a directory. The result is
-- the paths of their files.
def emitPod (path out : String) (others : PodSet) (config : EmitConfig) :
    ConsoleM (List String) := do
  match config.validate with
  | .error e => throw (Failure.ofConfig e)
  | .ok _ =>
    let pod ← ofExcept (openPod (← get).files path)
    match Lowering.lowerPod pod (others.add pod) config with
    | .error e => throw ((Failure.ofLowering e).during s!"Failed to emit pod {pod.name}")
    | .ok classes => classes.mapM (writeClass out)

end PodCompiler.Command
