namespace PodCompiler.Decimal

-- A binary format: the widths of the mantissa and of the exponent.
structure BinaryFormat where
  mantissaBits : Nat
  exponentBits : Nat

def single : BinaryFormat := ⟨23, 8⟩

def double : BinaryFormat := ⟨52, 11⟩

-- The positive number `digits · 10 ^ exponent`.
structure Digits where
  digits : Nat
  exponent : Int
  deriving DecidableEq, Repr

-- What the bits of a number say.
inductive Value where
  | nan
  | infinite (negative : Bool)
  | zero (negative : Bool)
  | finite (negative : Bool) (abs : Digits)
  deriving DecidableEq, Repr

-- The positive number `mantissa · 2 ^ exponent`. `narrow` tells that the gap below is half of the
-- gap above.
structure Binary where
  mantissa : Nat
  exponent : Int
  narrow : Bool

-- Numerator and denominator of `n · 2 ^ e`.
def scaleTwo (n : Nat) (e : Int) : Nat × Nat :=
  if 0 ≤ e then (n * Nat.pow 2 e.toNat, 1) else (n, Nat.pow 2 (-e).toNat)

-- The bounds of the decimals that single out a number, which are the midpoints to its neighbours, and
-- the number itself, in quarters of a unit of its last place: numerators over one denominator.
structure Interval where
  low : Nat
  value : Nat
  high : Nat
  den : Nat
  closed : Bool

def Binary.interval (b : Binary) : Interval :=
  let quarter := b.exponent - 2
  let at_ (n : Nat) := (scaleTwo n quarter).1
  { low := at_ (4 * b.mantissa - if b.narrow then 1 else 2)
    value := at_ (4 * b.mantissa)
    high := at_ (4 * b.mantissa + 2)
    den := (scaleTwo 1 quarter).2
    closed := b.mantissa % 2 = 0 }

-- The same interval in units of `10 ^ e`.
def Interval.inUnits (i : Interval) (e : Int) : Interval :=
  if 0 ≤ e then { i with den := i.den * Nat.pow 10 e.toNat }
  else
    let s := Nat.pow 10 (-e).toNat
    { i with low := i.low * s, value := i.value * s, high := i.high * s }

def Interval.contains (i : Interval) (n : Nat) : Bool :=
  if i.closed then i.low ≤ n * i.den && n * i.den ≤ i.high
  else i.low < n * i.den && n * i.den < i.high

-- The whole number of units in the interval that is nearest to the value, and of two that are as
-- near the larger.
def Interval.nearest? (i : Interval) : Option Nat :=
  let below := i.value / i.den
  let isBelow := i.contains below
  let isAbove := i.contains (below + 1)
  if isBelow && isAbove then
    some (if (below + 1) * i.den - i.value ≤ i.value - below * i.den then below + 1 else below)
  else if isBelow then some below
  else if isAbove then some (below + 1)
  else none

-- The exponent of the leading decimal digit of the value.
def Interval.magnitude (i : Interval) : Int :=
  let digits (n : Nat) : Int := (Nat.toDigits 10 n).length
  let k := digits i.value - digits i.den
  let j := i.inUnits k
  if j.den ≤ j.value then k else k - 1

-- Zeros at the end of the digits moved into the exponent.
def Digits.trim (d : Digits) : Digits :=
  let zeros := ((Nat.toDigits 10 d.digits).reverse.takeWhile (· = '0')).length
  ⟨d.digits / Nat.pow 10 zeros, d.exponent + zeros⟩

-- The first of the grids with unit `10 ^ e`, `10 ^ (e - 1)`, … that has a point in the interval.
def Interval.shortestFrom (i : Interval) : Nat → Int → Digits
  | 0, e => ⟨(i.inUnits e).value / (i.inUnits e).den, e⟩
  | n + 1, e =>
    match (i.inUnits e).nearest? with
    | some d => ⟨d, e⟩
    | none => i.shortestFrom n (e - 1)

-- Seventeen digits always single out a number of the formats here.
def Binary.shortest (b : Binary) : Digits :=
  (b.interval.shortestFrom 17 b.interval.magnitude).trim

-- Reads the bits of a number.
def ofBits (f : BinaryFormat) (bits : Nat) : Value :=
  let mantissa := bits % Nat.pow 2 f.mantissaBits
  let exponent := bits / Nat.pow 2 f.mantissaBits % Nat.pow 2 f.exponentBits
  let negative := bits / Nat.pow 2 (f.mantissaBits + f.exponentBits) % 2 = 1
  let least : Int := 2 - Nat.pow 2 (f.exponentBits - 1) - f.mantissaBits
  if exponent = Nat.pow 2 f.exponentBits - 1 then
    if mantissa = 0 then .infinite negative else .nan
  else if exponent = 0 then
    if mantissa = 0 then .zero negative
    else .finite negative (Binary.shortest ⟨mantissa, least, false⟩)
  else
    .finite negative (Binary.shortest
      ⟨Nat.pow 2 f.mantissaBits + mantissa, least + (exponent - 1), mantissa = 0 && 1 < exponent⟩)

end PodCompiler.Decimal
