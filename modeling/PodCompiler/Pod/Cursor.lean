import PodCompiler.Pod.Error

namespace PodCompiler.Pod

-- A position in the bytes of one entry; `what` names the entry in errors.
structure Cursor where
  bytes : Bytes
  pos : Nat
  what : String

namespace Cursor

def start (bytes : Bytes) (what : String) : Cursor :=
  ⟨bytes, 0, what⟩

def remaining (c : Cursor) : Nat :=
  c.bytes.size - c.pos

def isAtEnd (c : Cursor) : Bool :=
  c.remaining = 0

-- Moves to an absolute position, and no further than the end.
def seek (c : Cursor) (pos : Nat) : Cursor :=
  { c with pos := min pos c.bytes.size }

end Cursor

-- A read: it moves the cursor, and keeps it when it fails.
abbrev Read := EStateM FormatError Cursor

namespace Read

-- Runs a read from the start of an entry.
def runOn (r : Read α) (bytes : Bytes) (what : String) : Except FormatError α :=
  match r.run (Cursor.start bytes what) with
  | .ok a _ => .ok a
  | .error e _ => .error e

-- The next `n` bytes.
def take (n : Nat) : Read Bytes := fun c =>
  if c.remaining < n then .error (.truncated c.what c.pos) c
  else .ok (c.bytes.extract c.pos (c.pos + n)) { c with pos := c.pos + n }

def skip (n : Nat) : Read Unit := do
  let _ ← take n

def seek (pos : Nat) : Read Unit :=
  modify (·.seek pos)

def u1 : Read UInt8 := fun c =>
  match c.bytes[c.pos]? with
  | some v => .ok v { c with pos := c.pos + 1 }
  | none => .error (.truncated c.what c.pos) c

-- Words have the most significant byte first.
def u2 : Read UInt16 := fun c =>
  match c.bytes.be2? c.pos with
  | some v => .ok v { c with pos := c.pos + 2 }
  | none => .error (.truncated c.what c.pos) c

def u4 : Read UInt32 := fun c =>
  match c.bytes.be4? c.pos with
  | some v => .ok v { c with pos := c.pos + 4 }
  | none => .error (.truncated c.what c.pos) c

def u8 : Read UInt64 := fun c =>
  match c.bytes.be8? c.pos with
  | some v => .ok v { c with pos := c.pos + 8 }
  | none => .error (.truncated c.what c.pos) c

def i8 : Read Int64 :=
  UInt64.toInt64 <$> u8

-- A byte run behind its length.
def buf : Read Bytes := do
  take (← u2).toNat

-- A text behind the length of its encoding.
def utf : Read String := do
  match Text.ModifiedUtf8.decode (← buf) with
  | .ok s => pure s
  | .error fault => throw (.text fault)

-- `r`, `n` times over; what the first reads gave stands in `done`.
def timesAfter (r : Read α) (done : Array α) : Nat → Read (Array α)
  | 0 => pure done
  | n + 1 => do timesAfter r (done.push (← r)) n

def times (n : Nat) (r : Read α) : Read (Array α) :=
  timesAfter r #[] n

-- A table: a two-byte count and that many items.
def table (r : Read α) : Read (Array α) := do
  times (← u2).toNat r

-- A step that needs no bytes.
def ofExcept : Except FormatError α → Read α
  | .ok a => pure a
  | .error e => throw e

end Read

end PodCompiler.Pod
