import PodCompiler.Pod.Symbols

namespace PodCompiler.Pod

open Archive (Store)

-- The literals of a pod. Floats are kept as their bits, decimals as text, durations in nanoseconds.
structure Literals where
  ints : Array Int64 := #[]
  floats : Array UInt64 := #[]
  decimals : Array String := #[]
  strs : Array String := #[]
  durations : Array Int64 := #[]
  uris : Array String := #[]
  deriving DecidableEq, Repr

namespace Literals

def load (store : Store) : Except FormatError Literals := do
  let ints ← readTable store "fcode/ints.def" "ints" Read.i8
  let floats ← readTable store "fcode/floats.def" "floats" Read.u8
  let decimals ← readTable store "fcode/decimals.def" "decimals" Read.utf
  let strs ← readTable store "fcode/strs.def" "strs" Read.utf
  let durations ← readTable store "fcode/durations.def" "durations" Read.i8
  let uris ← readTable store "fcode/uris.def" "uris" Read.utf
  return { ints, floats, decimals, strs, durations, uris }

-- The number of literals of all kinds.
def size (l : Literals) : Nat :=
  l.ints.size + l.floats.size + l.decimals.size + l.strs.size + l.durations.size + l.uris.size

end Literals

-- The kinds of literals, in the order of their tables.
inductive LiteralKind where
  | int
  | float
  | decimal
  | str
  | duration
  | uri
  deriving DecidableEq, Repr

namespace LiteralKind

def all : List LiteralKind :=
  [.int, .float, .decimal, .str, .duration, .uri]

-- What the names of the fields that hold such literals start with; the index follows.
def letters : LiteralKind → String
  | .int => "I"
  | .float => "F"
  | .decimal => "D"
  | .str => "S"
  | .duration => "Dur"
  | .uri => "U"

-- The descriptor of the fields that hold such literals.
def desc : LiteralKind → String
  | .int => "Ljava/lang/Long;"
  | .float => "Ljava/lang/Double;"
  | .decimal => "Ljava/math/BigDecimal;"
  | .str => "Ljava/lang/String;"
  | .duration => "Lfan/sys/Duration;"
  | .uri => "Lfan/sys/Uri;"

-- The name of the field that holds the literal at an index.
def fieldName (k : LiteralKind) (index : Nat) : String :=
  k.letters ++ toString index

-- The number of literals of the kind.
def count (k : LiteralKind) (l : Literals) : Nat :=
  match k with
  | .int => l.ints.size
  | .float => l.floats.size
  | .decimal => l.decimals.size
  | .str => l.strs.size
  | .duration => l.durations.size
  | .uri => l.uris.size

end LiteralKind

end PodCompiler.Pod
