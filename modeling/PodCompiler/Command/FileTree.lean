import PodCompiler.Archive.Fault
import PodCompiler.Bytes

namespace PodCompiler.Command

open Archive (IoFault)

inductive FileNode where
  | file (data : Bytes)
  | directory
  deriving DecidableEq, Repr

-- The nodes by their paths from the root, each once. The root itself is not listed.
structure FileTree where
  nodes : List (List String × FileNode) := []

namespace Path

-- Goes on from `base` along `path`.
def join (base path : String) : String :=
  if path.startsWith "/" || base.isEmpty then path
  else if base.endsWith "/" then base ++ path
  else base ++ "/" ++ path

-- The path without its last part.
def parent (path : String) : String :=
  match (path.splitOn "/").dropLast with
  | [] => ""
  | first :: rest =>
    let rest := (rest.reverse.dropWhile fun part => part = "" || part = ".").reverse
    "/".intercalate (first :: rest)

-- The longest name, and the longest path.
def maxName : Nat := 255

def maxPath : Nat := 4095

end Path

namespace FileTree

def node? (t : FileTree) (location : List String) : Option FileNode :=
  if location.isEmpty then some .directory else (t.nodes.find? (·.1 = location)).map (·.2)

-- Follows the parts of a path from a location. Every part but the last must be a directory.
def walk (t : FileTree) (location : List String) : List String → Except IoFault (List String)
  | [] => .ok location
  | part :: rest =>
    match t.node? location with
    | none => .error .notFound
    | some (.file _) => .error .notADirectory
    | some .directory =>
      if part = "" || part = "." then t.walk location rest
      else if part = ".." then t.walk location.dropLast rest
      else if Path.maxName < part.utf8ByteSize then .error .nameTooLong
      else t.walk (location ++ [part]) rest

-- Where a path leads. There need not be anything.
def locate (t : FileTree) (path : String) : Except IoFault (List String) :=
  if path.isEmpty then .error .notFound
  else if path.contains (Char.ofNat 0) then .error .nulInName
  else if Path.maxPath < path.utf8ByteSize then .error .nameTooLong
  else t.walk [] (path.splitOn "/")

def find (t : FileTree) (path : String) : Except IoFault FileNode := do
  match t.node? (← t.locate path) with
  | some node => return node
  | none => throw .notFound

def exists? (t : FileTree) (path : String) : Bool :=
  (t.find path).toOption.isSome

def isDirectory (t : FileTree) (path : String) : Bool :=
  (t.find path).toOption = some .directory

def read (t : FileTree) (path : String) : Except IoFault Bytes := do
  match ← t.find path with
  | .file data => return data
  | .directory => throw .isADirectory

def insert (t : FileTree) (location : List String) (node : FileNode) : FileTree :=
  ⟨t.nodes.filter (·.1 ≠ location) ++ [(location, node)]⟩

-- Makes a file, or replaces what is in it.
def write (t : FileTree) (path : String) (data : Bytes) : Except IoFault FileTree := do
  let location ← t.locate path
  match t.node? location with
  | some .directory => throw .isADirectory
  | _ => return t.insert location (.file data)

def makeDirectory (t : FileTree) (path : String) : Except IoFault FileTree := do
  let location ← t.locate path
  match t.node? location with
  | some _ => throw .alreadyExists
  | none => return t.insert location .directory

-- Makes a directory and those around it that are missing, `depth` at most.
def makeDirectoriesWithin (t : FileTree) : (depth : Nat) → String → Except IoFault FileTree
  | 0, _ => .error .notFound
  | depth + 1, path =>
    if path.isEmpty then .ok t
    else
      match t.makeDirectory path with
      | .ok t => .ok t
      | .error .notFound => do
        let t ← t.makeDirectoriesWithin depth (Path.parent path)
        match t.makeDirectory path with
        | .ok t => return t
        | .error e => if t.isDirectory path then return t else throw e
      | .error e => if t.isDirectory path then .ok t else .error e

def makeDirectories (t : FileTree) (path : String) : Except IoFault FileTree :=
  t.makeDirectoriesWithin ((path.splitOn "/").length + 1) path

-- A file with the directories around it.
def place (t : FileTree) (path : String) (data : Bytes) : Except IoFault FileTree := do
  (← t.makeDirectories (Path.parent path)).write path data

-- All files with their paths, in the order of the paths.
def files (t : FileTree) : List (String × Bytes) :=
  let all := t.nodes.filterMap fun (location, node) =>
    match node with
    | .file data => some ("/".intercalate location, data)
    | .directory => none
  all.mergeSort fun a b => a.1 ≤ b.1

end FileTree

end PodCompiler.Command
