import PodCompiler.Archive.Crc32
import PodCompiler.Archive.Deflate
import PodCompiler.Archive.Inflate
import PodCompiler.Archive.Store
import PodCompiler.Pod.Error
import PodCompiler.Text.LossyUtf8

namespace PodCompiler.Archive

open Pod (FormatError)

-- The marks of the records.
def localMark : UInt32 := 0x04034B50

def centralMark : UInt32 := 0x02014B50

def endMark : UInt32 := 0x06054B50

-- Packing of data and its reverse.
structure Codec where
  pack : Bytes → Bytes
  unpack : Bytes → Option Bytes

def Codec.deflate : Codec :=
  ⟨Archive.deflate, inflate⟩

-- The ways in which data is held.
def plainMethod : UInt16 := 0

def deflateMethod : UInt16 := 8

-- What the central directory says of an entry. Only the fields up to `localOffset` are used to read
-- it.
structure ZipEntry where
  name : String
  method : UInt16
  packedSize : Nat
  size : Nat
  localOffset : Nat
  madeBy : UInt16
  neededVersion : UInt16
  flags : UInt16
  crc : UInt32
  extraSize : Nat
  commentSize : Nat
  deriving DecidableEq, Repr

-- An archive: its bytes, and its entries in the order in which their names first came up.
structure Zip where
  data : Bytes
  entries : Array ZipEntry

namespace Zip

def le2 (data : Bytes) (pos : Nat) : Except FormatError UInt16 :=
  match data.le2? pos with
  | some v => .ok v
  | none => .error (.truncated "zip" pos)

def le4 (data : Bytes) (pos : Nat) : Except FormatError UInt32 :=
  match data.le4? pos with
  | some v => .ok v
  | none => .error (.truncated "zip" pos)

-- The last end record at or before `pos`.
def findEndBefore (data : Bytes) : Nat → Option Nat
  | 0 => if data.le4? 0 = some endMark then some 0 else none
  | pos + 1 => if data.le4? (pos + 1) = some endMark then some (pos + 1) else findEndBefore data pos

-- The bytes of an end record without a comment.
def endSize : Nat := 22

def findEnd (data : Bytes) : Except FormatError Nat :=
  if data.size < endSize then .error (.archive .tooSmall)
  else
    match findEndBefore data (data.size - endSize) with
    | some pos => .ok pos
    | none => .error (.archive .noEndRecord)

-- The bytes of a central header before its name.
def centralSize : Nat := 46

-- The entry whose central header is at `pos`, and the position of the next one.
def centralAt (data : Bytes) (pos : Nat) : Except FormatError (ZipEntry × Nat) := do
  if (← le4 data pos) ≠ centralMark then throw (.archive (.badCentralHeader pos))
  let method ← le2 data (pos + 10)
  let packedSize ← le4 data (pos + 20)
  let size ← le4 data (pos + 24)
  let nameSize ← le2 data (pos + 28)
  let extraSize ← le2 data (pos + 30)
  let commentSize ← le2 data (pos + 32)
  let localOffset ← le4 data (pos + 42)
  match data.slice? (pos + centralSize) nameSize.toNat with
  | none => throw (.truncated "zip" pos)
  | some name =>
    let entry := {
      name := Text.LossyUtf8.decode name
      method
      packedSize := packedSize.toNat
      size := size.toNat
      localOffset := localOffset.toNat
      madeBy := (data.le2? (pos + 4)).getD 0
      neededVersion := (data.le2? (pos + 6)).getD 0
      flags := (data.le2? (pos + 8)).getD 0
      crc := (data.le4? (pos + 16)).getD 0
      extraSize := extraSize.toNat
      commentSize := commentSize.toNat }
    return (entry, pos + centralSize + nameSize.toNat + extraSize.toNat + commentSize.toNat)

-- A later entry takes the place of an earlier one of the same name.
def insertEntry (entries : Array ZipEntry) (e : ZipEntry) : Array ZipEntry :=
  if entries.any (·.name = e.name) then entries.map fun old => if old.name = e.name then e else old
  else entries.push e

-- `count` central headers from `pos` on; `done` holds the entries before.
def centralsAfter (data : Bytes) (done : Array ZipEntry) (pos : Nat) :
    Nat → Except FormatError (Array ZipEntry)
  | 0 => .ok done
  | count + 1 => do
    let (e, next) ← centralAt data pos
    centralsAfter data (insertEntry done e) next count

-- Reads the directory of an archive.
def ofBytes (data : Bytes) : Except FormatError Zip := do
  let endPos ← findEnd data
  let count ← le2 data (endPos + 10)
  let start ← le4 data (endPos + 16)
  let entries ← centralsAfter data #[] start.toNat count.toNat
  return { data, entries }

def names (z : Zip) : Array String :=
  z.entries.map (·.name)

-- Takes out the data of an entry. The name goes into errors.
def extract (codec : Codec) (z : Zip) (e : ZipEntry) : Except FormatError Bytes := do
  let pos := e.localOffset
  if (← le4 z.data pos) ≠ localMark then throw (.archive (.badLocalHeader e.name))
  let nameSize ← le2 z.data (pos + 26)
  let extraSize ← le2 z.data (pos + 28)
  let start := pos + 30 + nameSize.toNat + extraSize.toNat
  match z.data.slice? start e.packedSize with
  | none => throw (.truncated "zip" start)
  | some packed =>
    if e.method = plainMethod then return packed
    else if e.method = deflateMethod then
      match codec.unpack packed with
      | none => throw (.io .corruptStream)
      | some data =>
        if data.size = e.size then return data
        else throw (.archive (.wrongSize e.name data.size e.size))
    else throw (.archive (.unknownMethod e.name e.method))

-- The data of the entry with the name, if there is one.
def readWith (codec : Codec) (z : Zip) (name : String) : Except FormatError (Option Bytes) :=
  match z.entries.find? (·.name = name) with
  | some e => some <$> z.extract codec e
  | none => .ok none

def read (z : Zip) (name : String) : Except FormatError (Option Bytes) :=
  z.readWith .deflate name

-- What both headers of an entry have in common: flags, method, time, checksum, sizes and the length
-- of the name.
def commonHeader (name packed data : Bytes) : Bytes :=
  Bytes.le2 0 ++ Bytes.le2 deflateMethod ++ Bytes.le4 0 ++ Bytes.le4 (crc32 data) ++
    Bytes.le4 packed.size.toUInt32 ++ Bytes.le4 data.size.toUInt32 ++ Bytes.le2 name.size.toUInt16

-- The version of the format that an entry needs.
def version : UInt16 := 20

-- An entry with its local header.
def localRecord (name packed data : Bytes) : Bytes :=
  Bytes.le4 localMark ++ Bytes.le2 version ++ commonHeader name packed data ++ Bytes.le2 0 ++
    name ++ packed

-- The central header of an entry whose local header is at `offset`.
def centralRecord (name packed data : Bytes) (offset : Nat) : Bytes :=
  Bytes.le4 centralMark ++ Bytes.le2 version ++ Bytes.le2 version ++
    commonHeader name packed data ++ Array.replicate 12 0 ++ Bytes.le4 offset.toUInt32 ++ name

def endRecord (count : Nat) (centralSize centralOffset : Nat) : Bytes :=
  Bytes.le4 endMark ++ Bytes.le4 0 ++ Bytes.le2 count.toUInt16 ++ Bytes.le2 count.toUInt16 ++
    Bytes.le4 centralSize.toUInt32 ++ Bytes.le4 centralOffset.toUInt32 ++ Bytes.le2 0

-- Appends an entry to the local part and to the directory.
def putEntry (codec : Codec) (parts : Bytes × Bytes) (item : String × Bytes) : Bytes × Bytes :=
  let name := Text.LossyUtf8.encode item.1
  let packed := codec.pack item.2
  (parts.1 ++ localRecord name packed item.2,
    parts.2 ++ centralRecord name packed item.2 parts.1.size)

-- The largest number of entries of an archive.
def maxEntries : Nat := 65535

-- The archive that holds the entries; none if there are too many of them.
def writeWith? (codec : Codec) (e : Entries) : Option Bytes :=
  if e.size ≤ maxEntries then
    let (locals, central) := e.items.foldl (putEntry codec) (#[], #[])
    some (locals ++ central ++ endRecord e.size central.size locals.size)
  else none

def write? (e : Entries) : Option Bytes :=
  writeWith? .deflate e

end Zip

-- Where the entries of a pod come from.
inductive Store where
  | memory (entries : Entries)
  | zip (archive : Zip)

namespace Store

def names : Store → Array String
  | .memory e => e.names
  | .zip z => z.names

-- The data of an entry, if there is one of the name.
def read : Store → String → Except FormatError (Option Bytes)
  | .memory e, name => .ok (e.get? name)
  | .zip z, name => z.read name

-- The data of an entry that must be there.
def readRequired (s : Store) (name : String) : Except FormatError Bytes := do
  match ← s.read name with
  | some data => return data
  | none => throw (.missingEntry name)

end Store

end PodCompiler.Archive
