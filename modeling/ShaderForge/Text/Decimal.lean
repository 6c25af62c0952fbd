/-!
# Shortest decimals

The decimal with the fewest digits that reads back as a given binary floating
point number, and its layout in text.
-/

namespace ShaderForge

/-- The widths of an interchange format: stored fraction bits and exponent bits. -/
structure BinaryFormat where
  fractionBits : Nat
  exponentBits : Nat
deriving DecidableEq, Repr

namespace BinaryFormat

def single : BinaryFormat := ⟨23, 8⟩

def double : BinaryFormat := ⟨52, 11⟩

end BinaryFormat

/-- What a bit pattern denotes.  A finite number has magnitude
`mantissa * 2 ^ exponent`; `atPower` holds when the number below is closer. -/
inductive BinaryValue where
  | nan
  | infinite (negative : Bool)
  | finite (negative : Bool) (mantissa : Nat) (exponent : Int) (atPower : Bool)
deriving DecidableEq, Repr

def BinaryFormat.decode (f : BinaryFormat) (bits : Nat) : BinaryValue :=
  let fraction := bits % (1 <<< f.fractionBits)
  let exponent := (bits >>> f.fractionBits) % (1 <<< f.exponentBits)
  let negative := (bits >>> (f.fractionBits + f.exponentBits)) % 2 == 1
  let bias : Nat := (1 <<< (f.exponentBits - 1)) - 1 + f.fractionBits
  if exponent = (1 <<< f.exponentBits) - 1 then
    if fraction = 0 then .infinite negative else .nan
  else if exponent = 0 then
    .finite negative fraction (1 - (bias : Int)) false
  else
    .finite negative ((1 <<< f.fractionBits) + fraction) ((exponent : Int) - bias) (fraction == 0)

/-- The decimal `coefficient * 10 ^ exponent`. -/
structure Decimal where
  coefficient : Nat
  exponent : Int
deriving DecidableEq, Repr

namespace Decimal

/-- The magnitude `numerator / denominator` of a decimal. -/
def ratio (d : Decimal) : Nat × Nat :=
  if 0 ≤ d.exponent then (d.coefficient * Nat.pow 10 d.exponent.toNat, 1)
  else (d.coefficient, Nat.pow 10 (-d.exponent).toNat)

/-- Drops trailing zeros of the coefficient, moving them into the exponent. -/
def normalize (d : Decimal) : Nat → Decimal
  | 0 => d
  | fuel + 1 =>
    if d.coefficient ≠ 0 ∧ d.coefficient % 10 = 0 then
      normalize ⟨d.coefficient / 10, d.exponent + 1⟩ fuel
    else d

/-- The number of decimal digits before the point of `numerator / denominator`;
zero or negative when the quotient is below one. -/
def magnitude (numerator denominator : Nat) : Int :=
  let whole := numerator / denominator
  if whole ≠ 0 then (toString whole).length
  else
    -- Below one: count the leading zeros after the point.
    let places := (toString (denominator / numerator)).length
    if numerator * Nat.pow 10 (places - 1) < denominator then 1 - (places : Int)
    else 2 - (places : Int)

end Decimal

/-- The open or closed range of reals that read back as one binary number, as
numerators over a common denominator, with the number itself between them. -/
structure ReadBack where
  low : Nat
  value : Nat
  high : Nat
  denominator : Nat
  inclusive : Bool

namespace ReadBack

/-- The range around `mantissa * 2 ^ exponent`: half a unit up, and half a unit
down, or a quarter where the spacing halves below the number. -/
def of (mantissa : Nat) (exponent : Int) (atPower : Bool) : ReadBack :=
  let scale := if 2 ≤ exponent then 1 <<< (exponent - 2).toNat else 1
  let denominator := if exponent < 2 then 1 <<< (2 - exponent).toNat else 1
  let below := if atPower then 1 else 2
  { low := (4 * mantissa - below) * scale
    value := 4 * mantissa * scale
    high := (4 * mantissa + 2) * scale
    denominator
    inclusive := mantissa % 2 == 0 }

def contains (r : ReadBack) (d : Decimal) : Bool :=
  let (n, m) := d.ratio
  let x := n * r.denominator
  if r.inclusive then decide (r.low * m ≤ x) && decide (x ≤ r.high * m)
  else decide (r.low * m < x) && decide (x < r.high * m)

/-- The nearer of the two neighbours with the last digit at `10 ^ exponent`, if it
reads back.  A tie goes up. -/
def onGrid? (r : ReadBack) (exponent : Int) : Option Decimal :=
  let numerator := if exponent < 0 then r.value * Nat.pow 10 (-exponent).toNat else r.value
  let unit := if exponent < 0 then r.denominator else r.denominator * Nat.pow 10 exponent.toNat
  let down : Decimal := ⟨numerator / unit, exponent⟩
  let up : Decimal := ⟨numerator / unit + 1, exponent⟩
  let nearerUp := decide (unit ≤ 2 * (numerator % unit))
  match r.contains down, r.contains up with
  | true, true => some (if nearerUp then up else down)
  | true, false => some down
  | false, true => some up
  | false, false => none

/-- The first grid, from coarse to fine, with a decimal that reads back. -/
def shortestFrom (r : ReadBack) (exponent : Int) : Nat → Option Decimal
  | 0 => none
  | fuel + 1 =>
    match r.onGrid? exponent with
    | some d => some d
    | none => r.shortestFrom (exponent - 1) fuel

/-- The decimal with the fewest digits that reads back; seventeen always suffice. -/
def shortest (r : ReadBack) : Decimal :=
  let top := Decimal.magnitude r.value r.denominator
  match r.shortestFrom (top - 1) 20 with
  | some d => d.normalize 20
  | none => ⟨0, 0⟩

end ReadBack

/-- The layout of a floating point number: decimals outside
`10 ^ low ≤ x < 10 ^ high` are written with an exponent. -/
structure FloatLayout where
  low : Int
  high : Int

namespace FloatLayout

/-- A positive decimal in positional notation, with a digit on both sides of the point. -/
def positional (d : Decimal) : String :=
  let digits := (toString d.coefficient).toList
  let point : Int := digits.length + d.exponent
  let zeros (n : Int) : List Char := List.replicate n.toNat '0'
  if point ≤ 0 then String.ofList (['0', '.'] ++ zeros (-point) ++ digits)
  else if 0 ≤ d.exponent then String.ofList (digits ++ zeros d.exponent ++ ['.', '0'])
  else String.ofList (digits.take point.toNat ++ ['.'] ++ digits.drop point.toNat)

/-- A positive decimal with one digit before the point and an exponent. -/
def scientific (d : Decimal) : String :=
  let digits := (toString d.coefficient).toList
  let tail := digits.drop 1
  let point := if tail.isEmpty then [] else '.' :: tail
  String.ofList (digits.take 1 ++ point) ++ "e" ++ toString (digits.length + d.exponent - 1)

def render (l : FloatLayout) (d : Decimal) : String :=
  let point : Int := (toString d.coefficient).length + d.exponent
  if l.low < point ∧ point ≤ l.high then positional d else scientific d

end FloatLayout

/-- Listings write numbers from `10 ^ -4` up to `10 ^ 16` in positional notation. -/
def listingLayout : FloatLayout := ⟨-4, 16⟩

def BinaryFormat.text (f : BinaryFormat) (bits : Nat) : String :=
  match f.decode bits with
  | .nan => "NaN"
  | .infinite negative => if negative then "-inf" else "inf"
  | .finite negative mantissa exponent atPower =>
    let sign := if negative then "-" else ""
    if mantissa = 0 then sign ++ "0.0"
    else sign ++ listingLayout.render (ReadBack.of mantissa exponent atPower).shortest

end ShaderForge
