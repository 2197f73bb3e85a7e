namespace PodCompiler

-- A run of bytes: an archive entry, a code buffer or a whole class file.
abbrev Bytes := Array UInt8

namespace Bytes

-- Words, most significant byte first.
def be2 (v : UInt16) : Bytes :=
  #[(v >>> 8).toUInt8, v.toUInt8]

def be4 (v : UInt32) : Bytes :=
  #[(v >>> 24).toUInt8, (v >>> 16).toUInt8, (v >>> 8).toUInt8, v.toUInt8]

def be8 (v : UInt64) : Bytes :=
  #[(v >>> 56).toUInt8, (v >>> 48).toUInt8, (v >>> 40).toUInt8, (v >>> 32).toUInt8,
    (v >>> 24).toUInt8, (v >>> 16).toUInt8, (v >>> 8).toUInt8, v.toUInt8]

-- Words, least significant byte first.
def le2 (v : UInt16) : Bytes :=
  #[v.toUInt8, (v >>> 8).toUInt8]

def le4 (v : UInt32) : Bytes :=
  #[v.toUInt8, (v >>> 8).toUInt8, (v >>> 16).toUInt8, (v >>> 24).toUInt8]

-- The word whose bytes are given, most significant first.
def join2 (a b : UInt8) : UInt16 :=
  (a.toUInt16 <<< 8) ||| b.toUInt16

def join4 (a b c d : UInt8) : UInt32 :=
  (a.toUInt32 <<< 24) ||| (b.toUInt32 <<< 16) ||| (c.toUInt32 <<< 8) ||| d.toUInt32

def join8 (hi lo : UInt32) : UInt64 :=
  (hi.toUInt64 <<< 32) ||| lo.toUInt64

-- The big-endian word at `pos`, if all of its bytes are there.
def be2? (b : Bytes) (pos : Nat) : Option UInt16 :=
  if h : pos + 2 ≤ b.size then some (join2 b[pos] b[pos + 1]) else none

def be4? (b : Bytes) (pos : Nat) : Option UInt32 :=
  if h : pos + 4 ≤ b.size then some (join4 b[pos] b[pos + 1] b[pos + 2] b[pos + 3]) else none

def be8? (b : Bytes) (pos : Nat) : Option UInt64 :=
  match b.be4? pos, b.be4? (pos + 4) with
  | some hi, some lo => some (join8 hi lo)
  | _, _ => none

-- The little-endian word at `pos`, if all of its bytes are there.
def le2? (b : Bytes) (pos : Nat) : Option UInt16 :=
  if h : pos + 2 ≤ b.size then some (join2 b[pos + 1] b[pos]) else none

def le4? (b : Bytes) (pos : Nat) : Option UInt32 :=
  if h : pos + 4 ≤ b.size then some (join4 b[pos + 3] b[pos + 2] b[pos + 1] b[pos]) else none

-- The `n` bytes from `pos` on, if they are all there.
def slice? (b : Bytes) (pos n : Nat) : Option Bytes :=
  if pos + n ≤ b.size then some (b.extract pos (pos + n)) else none

-- Writes a word over the bytes at `pos`; bytes outside the run are dropped.
def set2 (b : Bytes) (pos : Nat) (v : UInt16) : Bytes :=
  (b.setIfInBounds pos (v >>> 8).toUInt8).setIfInBounds (pos + 1) v.toUInt8

def set4 (b : Bytes) (pos : Nat) (v : UInt32) : Bytes :=
  (b.set2 pos (v >>> 16).toUInt16).set2 (pos + 2) v.toUInt16

-- Appends a word.
def put1 (b : Bytes) (v : UInt8) : Bytes :=
  b.push v

def put2 (b : Bytes) (v : UInt16) : Bytes :=
  b ++ be2 v

def put4 (b : Bytes) (v : UInt32) : Bytes :=
  b ++ be4 v

def put8 (b : Bytes) (v : UInt64) : Bytes :=
  b ++ be8 v

@[simp] theorem size_be2 (v : UInt16) : (be2 v).size = 2 := rfl

@[simp] theorem size_be4 (v : UInt32) : (be4 v).size = 4 := rfl

@[simp] theorem size_be8 (v : UInt64) : (be8 v).size = 8 := rfl

@[simp] theorem size_set2 (b : Bytes) (pos : Nat) (v : UInt16) : (b.set2 pos v).size = b.size := by
  simp [set2]

@[simp] theorem size_set4 (b : Bytes) (pos : Nat) (v : UInt32) : (b.set4 pos v).size = b.size := by
  simp [set4]

end Bytes

end PodCompiler
