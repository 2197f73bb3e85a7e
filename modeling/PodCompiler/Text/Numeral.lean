namespace PodCompiler.Text

-- `s` moved to the right edge of a field of `width` characters, with `fill` before it.
def padLeft (fill : Char) (width : Nat) (s : String) : String :=
  String.ofList (List.replicate (width - s.length) fill) ++ s

-- `s` moved to the left edge of a field of `width` characters.
def padRight (width : Nat) (s : String) : String :=
  s ++ String.ofList (List.replicate (width - s.length) ' ')

-- `n` in base sixteen with capital letters, at least `width` digits wide.
def hex (width n : Nat) : String :=
  padLeft '0' width (String.ofList ((Nat.toDigits 16 n).map Char.toUpper))

end PodCompiler.Text
