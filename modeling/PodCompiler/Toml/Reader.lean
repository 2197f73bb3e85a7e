import PodCompiler.Toml.Value

namespace PodCompiler.Toml

-- Takes characters off the front of a text, or fails on what does not belong there.
abbrev Reader := StateT (List Char) Option

namespace Reader

def apostrophe : Char := Char.ofNat 0x27

-- The rest of the text.
def rest : Reader (List Char) := get

-- The next character, which stays.
def peek : Reader (Option Char) :=
  return (← get).head?

def takeWhile (p : Char → Bool) : Reader (List Char) := fun cs =>
  some (cs.takeWhile p, cs.dropWhile p)

def skipWhile (p : Char → Bool) : Reader Unit :=
  (fun _ => ()) <$> takeWhile p

def expect (text : String) : Reader Unit := fun cs =>
  if text.toList.isPrefixOf cs then some ((), cs.drop text.length) else none

-- Takes a text if it is next.
def skip? (text : String) : Reader Bool := fun cs =>
  if text.toList.isPrefixOf cs then some (true, cs.drop text.length) else some (false, cs)

-- The first of some readers that does not fail.
def firstOf : List (Reader α) → Reader α
  | [] => failure
  | r :: rs => fun cs =>
    match r cs with
    | some found => some found
    | none => firstOf rs cs

-- A reader for the rest of the text that takes as much fuel as the text is long.
def bounded (r : Nat → Reader α) : Reader α := do
  r ((← rest).length + 1)

end Reader

open Reader

def isBlank (c : Char) : Bool :=
  c = ' ' || c = '\t'

-- Characters that stand for themselves in comments and strings: no controls but the tab.
def isPrintable (c : Char) : Bool :=
  c = '\t' || (' ' ≤ c && c ≤ '~') || 0x80 ≤ c.toNat

def blanks : Reader Unit :=
  skipWhile isBlank

def newline : Reader Unit :=
  firstOf [expect "\n", expect "\r\n"]

def comment : Reader Unit := do
  if (← peek) = some '#' then skipWhile isPrintable

-- What is left of a line: blanks, a comment, and a line end or the end of the text.
def lineEnd : Reader Unit := do
  blanks
  comment
  if (← rest).isEmpty then return else newline

-- Blanks, comments and line ends between the items of an array.
def gap : Nat → Reader Unit
  | 0 => failure
  | fuel + 1 => do
    blanks
    comment
    match ← optional newline with
    | some _ => gap fuel
    | none => return

-- Strings.
def hexValue? (c : Char) : Option Nat :=
  if c.isDigit then some (c.toNat - '0'.toNat)
  else if 'a' ≤ c && c ≤ 'f' then some (c.toNat - 'a'.toNat + 10)
  else if 'A' ≤ c && c ≤ 'F' then some (c.toNat - 'A'.toNat + 10)
  else none

-- A character by `n` hexadecimal digits of its number.
def codePoint (n : Nat) : Reader Char := do
  let cs ← rest
  if cs.length < n then failure
  let digits ← ((cs.take n).mapM hexValue? : Option (List Nat))
  let code := digits.foldl (fun acc d => acc * 16 + d) 0
  if code < 0xD800 || (0xDFFF < code && code ≤ 0x10FFFF) then
    set (cs.drop n)
    return Char.ofNat code
  else failure

-- What stands behind a backslash.
def escape : Reader Char := do
  match ← rest with
  | 'b' :: cs => set cs; return '\x08'
  | 't' :: cs => set cs; return '\t'
  | 'n' :: cs => set cs; return '\n'
  | 'f' :: cs => set cs; return '\x0c'
  | 'r' :: cs => set cs; return '\r'
  | '"' :: cs => set cs; return '"'
  | '\\' :: cs => set cs; return '\\'
  | 'u' :: cs => set cs; codePoint 4
  | 'U' :: cs => set cs; codePoint 8
  | _ => failure

-- The characters of a string up to its quote.
def basicChars : Nat → Reader (List Char)
  | 0 => failure
  | fuel + 1 => do
    match ← rest with
    | '"' :: cs => set cs; return []
    | '\\' :: cs =>
      set cs
      let c ← escape
      return c :: (← basicChars fuel)
    | c :: cs => if isPrintable c then set cs; return c :: (← basicChars fuel) else failure
    | [] => failure

def basicString : Reader String := do
  expect "\""
  String.ofList <$> bounded basicChars

def literalString : Reader String := do
  expect (String.singleton apostrophe)
  let text ← takeWhile fun c => isPrintable c && c ≠ apostrophe
  expect (String.singleton apostrophe)
  return String.ofList text

-- Blanks and line ends.
def blankLines : Nat → Reader Unit
  | 0 => failure
  | fuel + 1 => do
    blanks
    match ← optional newline with
    | some _ => blankLines fuel
    | none => return

-- A backslash at the end of a line takes all blanks and line ends behind it away.
def joinLines : Reader Unit := do
  blanks
  newline
  bounded blankLines

-- The characters of a string over several lines, up to three quotes; up to two more belong to it.
def multilineChars (quote : Char) (escapes : Bool) : Nat → Reader (List Char)
  | 0 => failure
  | fuel + 1 => do
    let cs ← rest
    let quotes := (cs.takeWhile (· = quote)).length
    if 3 ≤ quotes then
      let taken := min quotes 5
      set (cs.drop taken)
      return List.replicate (taken - 3) quote
    match cs with
    | '\r' :: '\n' :: cs => set cs; return '\n' :: (← multilineChars quote escapes fuel)
    | '\n' :: cs => set cs; return '\n' :: (← multilineChars quote escapes fuel)
    | c :: cs =>
      set cs
      if escapes && c = '\\' then
        match ← optional escape with
        | some c => return c :: (← multilineChars quote escapes fuel)
        | none =>
          joinLines
          multilineChars quote escapes fuel
      else if isPrintable c then return c :: (← multilineChars quote escapes fuel)
      else failure
    | [] => failure

-- A string in three quotes; a line end right behind them is not part of it.
def multilineString (quote : Char) (escapes : Bool) : Reader String := do
  expect (String.ofList [quote, quote, quote])
  let _ ← optional newline
  String.ofList <$> bounded (multilineChars quote escapes)

def string : Reader String :=
  firstOf [multilineString '"' true, multilineString apostrophe false, basicString, literalString]

-- Keys.
def isBare (c : Char) : Bool :=
  c.isAlphanum || c = '_' || c = '-'

def bareKey : Reader String := do
  let text ← takeWhile isBare
  if text.isEmpty then failure else return String.ofList text

def simpleKey : Reader String := do
  blanks
  let key ← firstOf [basicString, literalString, bareKey]
  blanks
  return key

-- How deep keys and values may be nested.
def maxDepth : Nat := 80

def keyParts : Nat → Reader (List String)
  | 0 => failure
  | fuel + 1 => do
    let key ← simpleKey
    if ← skip? "." then return key :: (← keyParts fuel) else return [key]

-- The parts of a key but the last, and the last.
def key : Reader (List String × String) := do
  let parts ← keyParts (maxDepth - 1)
  match parts.getLast? with
  | some last => return (parts.dropLast, last)
  | none => failure

-- Numbers.
-- Digits, between which underscores may stand.
def digits (p : Char → Bool) : Nat → Reader (List Char)
  | 0 => failure
  | fuel + 1 => do
    let run ← takeWhile p
    if run.isEmpty then failure
    match ← optional (do expect "_"; digits p fuel) with
    | some more => return run ++ more
    | none => return run

def numberOf (base : Nat) (cs : List Char) : Nat :=
  cs.foldl (fun acc c => acc * base + (hexValue? c).getD 0) 0

-- The sign of a number.
def sign : Reader Bool := do
  if ← skip? "-" then return true
  let _ ← skip? "+"
  return false

-- A whole number in decimal without a needless zero in front.
def decimalDigits : Reader (List Char) := do
  if (← peek) = some '0' then
    expect "0"
    return ['0']
  bounded (digits Char.isDigit)

def isInt64 (v : Int) : Bool :=
  -0x8000000000000000 ≤ v && v < 0x8000000000000000

def integerOf (v : Int) : Reader Value :=
  if isInt64 v then return .integer v else failure

def decimal : Reader Value := do
  let negative ← sign
  let v : Int := numberOf 10 (← decimalDigits)
  integerOf (if negative then -v else v)

-- A whole number in another base.
def based (start : String) (base : Nat) (p : Char → Bool) : Reader Value := do
  expect start
  integerOf (numberOf base (← bounded (digits p)))

def integer : Reader Value :=
  firstOf [
    based "0x" 16 (hexValue? · |>.isSome),
    based "0o" 8 (fun c => '0' ≤ c && c ≤ '7'),
    based "0b" 2 (fun c => c = '0' || c = '1'),
    decimal]

-- The least number that rounds to infinity.
def infinityBound : Nat := Nat.pow 2 1024 - Nat.pow 2 970

-- Whether `mantissa * 10 ^ exponent` is too large for a double.
def isHuge (mantissa : Nat) (exponent : Int) : Bool :=
  let size : Int := (Nat.repr mantissa).length + exponent
  if mantissa = 0 || size < 300 then false
  else if 320 < size then true
  else if 0 ≤ exponent then infinityBound ≤ mantissa * Nat.pow 10 exponent.toNat
  else infinityBound * Nat.pow 10 (-exponent).toNat ≤ mantissa

def fraction : Reader (List Char) := do
  expect "."
  bounded (digits Char.isDigit)

def exponent : Reader Int := do
  firstOf [expect "e", expect "E"]
  let negative ← sign
  let v : Int := numberOf 10 (← bounded (digits Char.isDigit))
  return if negative then -v else v

-- A number with a fraction, an exponent or both. One above all doubles is refused.
def finite : Reader Value := do
  let negative ← sign
  let whole ← decimalDigits
  let part ← optional fraction
  let power ← optional exponent
  if part.isNone && power.isNone then failure
  let part := part.getD []
  let huge := isHuge (numberOf 10 (whole ++ part)) (power.getD 0 - part.length)
  if huge && !negative then failure else return .float

def special : Reader Value := do
  let _ ← sign
  firstOf [expect "inf", expect "nan"]
  return .float

-- A number of `n` digits within bounds.
def fixed (n low high : Nat) : Reader Nat := do
  let cs ← rest
  let text := cs.take n
  let v := numberOf 10 text
  if text.length = n && text.all Char.isDigit && low ≤ v && v ≤ high then
    set (cs.drop n)
    return v
  else failure

def daysInMonth (year month : Nat) : Nat :=
  if month = 2 then
    if year % 4 = 0 && (year % 100 ≠ 0 || year % 400 = 0) then 29 else 28
  else if [4, 6, 9, 11].contains month then 30
  else 31

def date : Reader Unit := do
  let year ← fixed 4 0 9999
  expect "-"
  let month ← fixed 2 1 12
  expect "-"
  let _ ← fixed 2 1 (daysInMonth year month)

def time : Reader Unit := do
  let _ ← fixed 2 0 23
  expect ":"
  let _ ← fixed 2 0 59
  expect ":"
  let _ ← fixed 2 0 60
  if ← skip? "." then
    let run ← takeWhile Char.isDigit
    if run.isEmpty then failure

def offset : Reader Unit := do
  firstOf [
    expect "Z",
    expect "z",
    do
      firstOf [expect "+", expect "-"]
      let _ ← fixed 2 0 23
      expect ":"
      let _ ← fixed 2 0 59]

def dateTime : Reader Value := do
  firstOf [
    do
      date
      let _ ← optional do
        firstOf [expect "T", expect "t", expect " "]
        time
        let _ ← optional offset,
    time]
  return .dateTime

def boolean : Reader Value :=
  firstOf [
    do expect "true"; return .boolean true,
    do expect "false"; return .boolean false]

-- A value that holds no others.
def scalar : Reader Value :=
  firstOf [.string <$> string, boolean, dateTime, finite, special, integer]

-- The items of an array up to its bracket; a comma may stand behind the last.
def arrayItems (value : Reader Value) : Nat → Reader (List Value)
  | 0 => failure
  | fuel + 1 => do
    bounded gap
    if ← skip? "]" then return []
    let v ← value
    bounded gap
    if ← skip? "," then return v :: (← arrayItems value fuel)
    expect "]"
    return [v]

-- The entries of a table in braces, behind those in `t`. They stand on one line.
def inlineEntries (value : Reader Value) (t : Table) : Nat → Reader Table
  | 0 => failure
  | fuel + 1 => do
    let (path, last) ← key
    expect "="
    blanks
    let v ← value
    blanks
    let t ← t.put path last v
    if ← skip? "," then inlineEntries value t fuel
    else
      expect "\x7d"
      return t

def inlineTable (value : Reader Value) : Reader Value := do
  blanks
  if ← skip? "\x7d" then return .table .inline []
  Table.toValue <$> bounded (inlineEntries value ⟨.inline, []⟩)

-- A value in which others are nested `depth` deep at most.
def value : (depth : Nat) → Reader Value
  | 0 => failure
  | depth + 1 => do
    if ← skip? "[" then
      if depth = 0 then failure else .array <$> bounded (arrayItems (value depth))
    else if ← skip? "\x7b" then
      if depth = 0 then failure else inlineTable (value depth)
    else scalar

-- Documents.
-- What is read so far, and the path of the table that the next keys belong to.
structure Document where
  root : Table := .empty
  current : List String := []

namespace Document

def put (d : Document) (path : List String) (last : String) (v : Value) : Option Document := do
  let root ← d.root.within false (Table.put path last v) d.current
  return { d with root }

def enter (d : Document) (item : Bool) (path : List String) (last : String) : Option Document := do
  let root ← d.root.within false (if item then Table.openItem last else Table.openTable last) path
  return { root, current := path ++ [last] }

-- One line, which may go on in strings and arrays.
def line (d : Document) : Reader Document := do
  blanks
  let c ← peek
  if c = none || c = some '#' || c = some '\n' || c = some '\r' then return d
  if ← skip? "[[" then
    let (path, last) ← key
    expect "]]"
    d.enter true path last
  else if ← skip? "[" then
    let (path, last) ← key
    expect "]"
    d.enter false path last
  else
    let (path, last) ← key
    expect "="
    blanks
    let v ← value maxDepth
    d.put path last v

def lines (d : Document) : Nat → Reader Document
  | 0 => failure
  | fuel + 1 => do
    let d ← d.line
    lineEnd
    if (← rest).isEmpty then return d else lines d fuel

end Document

-- The root table of a text; a mark of the byte order in front of it is skipped.
def parse? (text : String) : Option Table := do
  let cs := text.toList
  let cs := if cs.head? = some '\ufeff' then cs.tail else cs
  let (d, _) ← (bounded (Document.lines {})).run cs
  return d.root

end PodCompiler.Toml
