namespace PodCompiler.Lowering

-- A copy of a finally block: the instruction that asked for it, where the block starts, the copied
-- range of instructions, and the range of the code that came out. The first four are positions of the
-- instructions, of which the loader gives a method 65535 bytes at most.
structure InlineCopy where
  site : Nat
  finallyStart : Nat
  start : Nat
  stop : Nat
  javaStart : Nat
  javaEnd : Nat
  deriving DecidableEq, Repr

-- A scope: the scope around it, what it knows of each position, and its copy once that is complete.
-- A position that it does not know is looked up in the scope around it.
structure Scope where
  parent : Option Nat
  map : Array (Option Nat)
  copy : Option InlineCopy := none
  deriving DecidableEq, Repr

-- All scopes over a buffer of `size` bytes. The end of the buffer is a position too.
structure Relocation where
  size : Nat
  scopes : Array Scope
  deriving DecidableEq, Repr

namespace Relocation

-- The scope of the method itself.
def mainScope : Nat := 0

def emptyMap (size : Nat) : Array (Option Nat) :=
  Array.replicate (size + 1) none

def ofSize (size : Nat) : Relocation :=
  ⟨size, #[⟨none, emptyMap size, none⟩]⟩

-- Notes that the instruction at `pos` begins at `java`.
def record (r : Relocation) (scope pos java : Nat) : Relocation :=
  { r with scopes := r.scopes.modify scope fun s =>
      { s with map := s.map.setIfInBounds pos (some java) } }

-- What one scope knows of a position.
def getLocal (r : Relocation) (scope pos : Nat) : Option Nat :=
  r.scopes[scope]?.bind fun s => (s.map[pos]?).join

def parent (r : Relocation) (scope : Nat) : Option Nat :=
  r.scopes[scope]?.bind (·.parent)

-- Looks a position up in `depth` scopes at most, from `scope` outwards.
def getWithin (r : Relocation) (pos : Nat) : Nat → Nat → Option Nat
  | 0, _ => none
  | depth + 1, scope =>
    match r.getLocal scope pos with
    | some java => some java
    | none =>
      match r.parent scope with
      | some outer => r.getWithin pos depth outer
      | none => none

-- Looks a position up in a scope and in those around it.
def get (r : Relocation) (scope pos : Nat) : Option Nat :=
  r.getWithin pos r.scopes.size scope

-- The number of the scope that `pushScope` opens.
def nextScope (r : Relocation) : Nat :=
  r.scopes.size

def pushScope (r : Relocation) (parent : Nat) : Relocation :=
  { r with scopes := r.scopes.push ⟨some parent, emptyMap r.size, none⟩ }

-- Notes the copy of a scope.
def closeScope (r : Relocation) (scope : Nat) (copy : InlineCopy) : Relocation :=
  { r with scopes := r.scopes.modify scope fun s => { s with copy := some copy } }

def copy (r : Relocation) (scope : Nat) : Option InlineCopy :=
  r.scopes[scope]?.bind (·.copy)

-- The copies directly inside a scope.
def children (r : Relocation) (scope : Nat) : List InlineCopy :=
  (r.scopes.toList.filter (·.parent = some scope)).filterMap (·.copy)

-- What the main scope knows of each position.
def mainMap (r : Relocation) : Array (Option Nat) :=
  (r.scopes[mainScope]?.map (·.map)).getD #[]

end Relocation

end PodCompiler.Lowering
