import PodCompiler.Bytes

namespace PodCompiler.Text.LossyUtf8

def replacement : Char := Char.ofNat 0xFFFD

-- The least and the greatest second byte after a lead byte, and how many bytes follow the lead.
def follow? (lead : UInt8) : Option (UInt8 × UInt8 × Nat) :=
  if 0xC2 ≤ lead && lead ≤ 0xDF then some (0x80, 0xBF, 1)
  else if lead = 0xE0 then some (0xA0, 0xBF, 2)
  else if lead = 0xED then some (0x80, 0x9F, 2)
  else if 0xE1 ≤ lead && lead ≤ 0xEF then some (0x80, 0xBF, 2)
  else if lead = 0xF0 then some (0x90, 0xBF, 3)
  else if 0xF1 ≤ lead && lead ≤ 0xF3 then some (0x80, 0xBF, 3)
  else if lead = 0xF4 then some (0x80, 0x8F, 3)
  else none

-- A character that is not complete: its bits so far, the bounds of the next byte, and how many
-- bytes are missing.
structure Pending where
  value : Nat
  low : UInt8
  high : UInt8
  missing : Nat

-- What is known of a text after some bytes: its characters, whether all bytes were UTF-8, and the
-- character that is not complete.
structure Progress where
  chars : Array Char := #[]
  valid : Bool := true
  pending : Option Pending := none

-- A byte where a character starts.
def first (p : Progress) (b : UInt8) : Progress :=
  if b < 0x80 then { p with chars := p.chars.push (Char.ofNat b.toNat), pending := none }
  else
    match follow? b with
    | some (low, high, missing) =>
      { p with pending := some ⟨b.toNat % Nat.pow 2 (6 - missing), low, high, missing⟩ }
    | none => { chars := p.chars.push replacement, valid := false, pending := none }

def next (p : Progress) (b : UInt8) : Progress :=
  match p.pending with
  | none => first p b
  | some q =>
    if q.low ≤ b && b ≤ q.high then
      let value := q.value * 64 + b.toNat % 64
      if q.missing = 1 then { p with chars := p.chars.push (Char.ofNat value), pending := none }
      else { p with pending := some ⟨value, 0x80, 0xBF, q.missing - 1⟩ }
    else first { chars := p.chars.push replacement, valid := false, pending := none } b

def run (b : Bytes) : Progress :=
  let p := b.foldl next {}
  match p.pending with
  | none => p
  | some _ => { chars := p.chars.push replacement, valid := false, pending := none }

-- The text of some bytes. Each longest run that starts a character and cannot be finished is replaced
-- by one character, and so is any other byte that is no UTF-8.
def decode (b : Bytes) : String :=
  String.ofList (run b).chars.toList

-- The text of some bytes that are UTF-8.
def decodeStrict? (b : Bytes) : Option String :=
  if (run b).valid then some (decode b) else none

-- The UTF-8 bytes of a text.
def encode (s : String) : Bytes :=
  s.toUTF8.data

end PodCompiler.Text.LossyUtf8
