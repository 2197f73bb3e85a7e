import PodCompiler.Bytes
import PodCompiler.Text.Numeral

namespace PodCompiler.Text.ModifiedUtf8

-- The ways in which bytes fail to be a text.
inductive Fault where
  | shortPair (pos : Nat)
  | shortTriple (pos : Nat)
  | badLead (byte : UInt8) (pos : Nat)
  | loneSurrogate
  deriving DecidableEq, Repr

def Fault.message : Fault → String
  | .shortPair pos => s!"short 2-byte sequence at {pos}"
  | .shortTriple pos => s!"short 3-byte sequence at {pos}"
  | .badLead byte pos => s!"bad lead byte 0x{hex 2 byte.toNat} at {pos}"
  | .loneSurrogate => "invalid utf-16: lone surrogate found"

-- The UTF-16 units of a character: itself, or a high and a low surrogate.
def unitsOf (c : Char) : List UInt16 :=
  if c.toNat < 0x10000 then [c.toNat.toUInt16]
  else
    let n := c.toNat - 0x10000
    [(0xD800 + n / 0x400).toUInt16, (0xDC00 + n % 0x400).toUInt16]

-- The bytes of one unit. The zero unit takes two, so no written text holds a zero byte.
def encodeUnit (u : UInt16) : List UInt8 :=
  if 0 < u && u < 0x80 then [u.toUInt8]
  else if u < 0x800 then [((u >>> 6) &&& 0x1F).toUInt8 ||| 0xC0, (u &&& 0x3F).toUInt8 ||| 0x80]
  else [((u >>> 12) &&& 0x0F).toUInt8 ||| 0xE0, ((u >>> 6) &&& 0x3F).toUInt8 ||| 0x80,
    (u &&& 0x3F).toUInt8 ||| 0x80]

def encodeChar (c : Char) : List UInt8 :=
  (unitsOf c).flatMap encodeUnit

def encode (s : String) : Bytes :=
  (s.toList.flatMap encodeChar).toArray

-- Units read so far are kept in `units`; `pos` counts the bytes behind.
def decodeUnits (pos : Nat) (units : Array UInt16) : List UInt8 → Except Fault (Array UInt16)
  | [] => .ok units
  | a :: rest =>
    if a &&& 0x80 = 0 then
      decodeUnits (pos + 1) (units.push a.toUInt16) rest
    else if a &&& 0xE0 = 0xC0 then
      match rest with
      | b :: rest =>
        decodeUnits (pos + 2)
          (units.push (((a &&& 0x1F).toUInt16 <<< 6) ||| (b &&& 0x3F).toUInt16)) rest
      | [] => .error (.shortPair pos)
    else if a &&& 0xF0 = 0xE0 then
      match rest with
      | b :: c :: rest =>
        decodeUnits (pos + 3)
          (units.push (((a &&& 0x0F).toUInt16 <<< 12) ||| ((b &&& 0x3F).toUInt16 <<< 6) |||
            (c &&& 0x3F).toUInt16)) rest
      | _ => .error (.shortTriple pos)
    else .error (.badLead a pos)

def isHighSurrogate (u : UInt16) : Bool :=
  0xD800 ≤ u && u < 0xDC00

def isLowSurrogate (u : UInt16) : Bool :=
  0xDC00 ≤ u && u < 0xE000

-- The characters of a list of units; a surrogate outside a pair has none.
def charsOfUnits (chars : Array Char) : List UInt16 → Option (Array Char)
  | [] => some chars
  | u :: rest =>
    if isHighSurrogate u then
      match rest with
      | v :: rest =>
        if isLowSurrogate v then
          charsOfUnits
            (chars.push (Char.ofNat (0x10000 + (u.toNat - 0xD800) * 0x400 + (v.toNat - 0xDC00))))
            rest
        else none
      | [] => none
    else if isLowSurrogate u then none
    else charsOfUnits (chars.push (Char.ofNat u.toNat)) rest

def decode (b : Bytes) : Except Fault String :=
  match decodeUnits 0 #[] b.toList with
  | .error e => .error e
  | .ok units =>
    match charsOfUnits #[] units.toList with
    | some chars => .ok (String.ofList chars.toList)
    | none => .error .loneSurrogate

end PodCompiler.Text.ModifiedUtf8
