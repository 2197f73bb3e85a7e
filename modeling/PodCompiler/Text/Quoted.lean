import PodCompiler.Text.Visible

namespace PodCompiler.Text.Quoted

-- A code point in braces.
def codePoint (c : Char) : String :=
  "\\u\x7b" ++ String.ofList (Nat.toDigits 16 c.toNat) ++ "\x7d"

-- The form of a character between quotes: the quote, the backslash and four controls behind a
-- backslash, and by its code point what cannot be seen or would join the character before it.
def encodeChar (c : Char) : String :=
  if c = '"' then "\\\""
  else if c = '\\' then "\\\\"
  else if c = '\n' then "\\n"
  else if c = '\r' then "\\r"
  else if c = '\t' then "\\t"
  else if c.toNat = 0 then "\\0"
  else if ' ' ≤ c && c ≤ '~' then String.singleton c
  else if isJoining c || !isVisible c then codePoint c
  else String.singleton c

-- A text between quotes.
def encode (s : String) : String :=
  "\"" ++ String.join (s.toList.map encodeChar) ++ "\""

end PodCompiler.Text.Quoted
