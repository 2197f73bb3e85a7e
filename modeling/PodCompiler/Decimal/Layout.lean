import PodCompiler.Decimal.Shortest

namespace PodCompiler.Decimal

-- How a number is laid out: whether whole numbers keep a zero after the point, and below and from
-- which exponent of the leading digit an exponent is written.
structure Layout where
  keepPoint : Bool
  scientific : Option (Int × Int)

-- Every number is written out, whole numbers without a point.
def plain : Layout := ⟨false, none⟩

-- Whole numbers have a point, and very small and very large numbers an exponent.
def tagged : Layout := ⟨true, some (-4, 16)⟩

def zeros (n : Nat) : String :=
  String.ofList (List.replicate n '0')

-- The digits with a point among them.
def positional (l : Layout) (d : Digits) : String :=
  let cs := Nat.toDigits 10 d.digits
  let whole := (cs.length : Int) + d.exponent
  if 0 ≤ d.exponent then
    String.ofList cs ++ zeros d.exponent.toNat ++ if l.keepPoint then ".0" else ""
  else if whole ≤ 0 then "0." ++ zeros (-whole).toNat ++ String.ofList cs
  else String.ofList (cs.take whole.toNat) ++ "." ++ String.ofList (cs.drop whole.toNat)

-- One digit before the point, and the exponent of that digit.
def scientific (d : Digits) : String :=
  let cs := Nat.toDigits 10 d.digits
  let point := if 1 < cs.length then "." else ""
  String.ofList (cs.take 1) ++ point ++ String.ofList (cs.drop 1) ++ "e" ++
    toString ((cs.length : Int) - 1 + d.exponent)

def Digits.render (l : Layout) (d : Digits) : String :=
  let leading := ((Nat.toDigits 10 d.digits).length : Int) - 1 + d.exponent
  match l.scientific with
  | some (low, high) => if low ≤ leading ∧ leading < high then positional l d else scientific d
  | none => positional l d

def Value.render (l : Layout) : Value → String
  | .nan => "NaN"
  | .infinite negative => (if negative then "-" else "") ++ "inf"
  | .zero negative => (if negative then "-" else "") ++ if l.keepPoint then "0.0" else "0"
  | .finite negative abs => (if negative then "-" else "") ++ abs.render l

end PodCompiler.Decimal
