namespace PodCompiler.Command

-- What the emit command is told.
structure EmitArguments where
  pod : Option String := none
  out : Option String := none
  config : Option String := none
  dynamic : Bool := false
  depends : List String := []
  deriving DecidableEq, Repr

inductive Invocation where
  | emit (pod out : String) (config : Option String) (dynamic : Bool) (depends : List String)
  | dump (pod : String)
  | ops
  deriving DecidableEq, Repr

structure Arguments where
  verbose : Bool
  command : Invocation
  deriving DecidableEq, Repr

namespace Arguments

-- Where classes go if nothing else is said.
def defaultOut : String := "classes"

-- Whether an argument can be a value.
def isValue (arg : String) : Bool :=
  !arg.isEmpty && (arg = "-" || !arg.startsWith "-")

-- Gives an option that stands once its value.
def once (current : Option String) (v : String) : Option (Option String) :=
  if current.isNone && !v.isEmpty then some (some v) else none

-- The options with values.
inductive Setting where
  | out
  | config
  | depend
  deriving DecidableEq, Repr

def Setting.ofName? : String → Option Setting
  | "-o" | "--out" => some .out
  | "-c" | "--config" => some .config
  | "-d" | "--depend" => some .depend
  | _ => none

def set (a : EmitArguments) (s : Setting) (v : String) : Option EmitArguments :=
  match s with
  | .out => (once a.out v).map fun out => { a with out }
  | .config => (once a.config v).map fun config => { a with config }
  | .depend => if v.isEmpty then none else some { a with depends := a.depends ++ [v] }

-- An option with its value in one argument.
def splitOption? (arg : String) : Option (Setting × String) :=
  if arg.startsWith "--" then
    match arg.splitOn "=" with
    | name :: first :: rest => (Setting.ofName? name).map (·, "=".intercalate (first :: rest))
    | _ => none
  else
    match arg.toList with
    | '-' :: c :: '=' :: v => (Setting.ofName? (String.ofList ['-', c])).map (·, String.ofList v)
    | '-' :: c :: v => (Setting.ofName? (String.ofList ['-', c])).map (·, String.ofList v)
    | _ => none

-- The pod to emit.
def setPod (a : EmitArguments) (v : String) : Option EmitArguments :=
  (once a.pod v).map fun pod => { a with pod }

def readEmit (a : EmitArguments) : List String → Option EmitArguments
  | [] => some a
  | "--" :: rest => rest.foldlM setPod a
  | "--dynamic" :: rest => if a.dynamic then none else readEmit { a with dynamic := true } rest
  | arg :: rest =>
    match Setting.ofName? arg, rest with
    | some s, v :: rest => do
      if isValue v then readEmit (← set a s v) rest else none
    | some _, [] => none
    | none, rest =>
      if isValue arg then do readEmit (← setPod a arg) rest
      else do
        let (s, v) ← splitOption? arg
        readEmit (← set a s v) rest

def readCommand : List String → Option Invocation
  | "emit" :: rest => do
    let a ← readEmit {} rest
    let pod ← a.pod
    return .emit pod (a.out.getD defaultOut) a.config a.dynamic a.depends
  | ["dump", pod] => if isValue pod then some (.dump pod) else none
  | ["dump", "--", pod] => if pod.isEmpty then none else some (.dump pod)
  | ["ops"] => some .ops
  | _ => none

-- Reads the arguments; none if they do not fit.
def parse? (args : List String) : Option Arguments := do
  match args with
  | "-v" :: rest | "--verbose" :: rest => return ⟨true, ← readCommand rest⟩
  | rest => return ⟨false, ← readCommand rest⟩

end Arguments

end PodCompiler.Command
