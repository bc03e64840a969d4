import SchemaLang.Number.Binary64

/-!
# The shortest decimal of a number

Of the decimals that read back as a given double precision number, the text of the
number shows one with the fewest digits, of those the nearest, and of two that are
equally near the one whose last digit is even.

## Main definitions

* `Decimal` — digits times a power of ten.
* `Decimal.magnitude` — what a decimal reads back as.
* `Binary64.shortest` — the decimal that is shown.
* `DecimalLayout`, `DecimalLayout.text` — how its digits are written.

## References

`SPEC_FULL.md`, section 10.4: floats in the text of a configuration.
-/

namespace SchemaLang

/-- The decimal `digits * 10 ^ exponent`. -/
structure Decimal where
  /-- The digits, read as one number. -/
  digits : Nat
  /-- The power of ten. -/
  exponent : Int
  deriving DecidableEq, Repr, Inhabited

namespace Decimal

/-- The decimal as a ratio of natural numbers. -/
def ratio (d : Decimal) : Nat × Nat :=
  if 0 ≤ d.exponent then (d.digits * Nat.pow 10 d.exponent.toNat, 1)
  else (d.digits, Nat.pow 10 (-d.exponent).toNat)

/-- The magnitude of the number that the decimal reads back as. -/
def magnitude (d : Decimal) : Nat := Binary64.nearestMagnitude d.ratio.1 d.ratio.2

/-- Drops a zero at the end of the digits, if there is one. -/
def dropZero (d : Decimal) : Decimal :=
  if d.digits % 10 = 0 ∧ d.digits ≠ 0 then ⟨d.digits / 10, d.exponent + 1⟩ else d

end Decimal

namespace Binary64

/-- The number of decimal digits of a natural number. -/
def digitCount (n : Nat) : Nat := (Nat.toDigits 10 n).length

/-- The position of the decimal point: the least `p` with `num / den < 10 ^ p`, for
positive arguments. -/
def pointPosition (num den : Nat) : Int :=
  let e : Int := (digitCount num : Int) - digitCount den
  let reached := if 0 ≤ e then den * Nat.pow 10 e.toNat ≤ num else den ≤ num * Nat.pow 10 (-e).toNat
  if reached then e + 1 else e

/-- The ratio divided by a power of ten. -/
def scaleBy (exponent : Int) (num den : Nat) : Nat × Nat :=
  if 0 ≤ exponent then (num, den * Nat.pow 10 exponent.toNat)
  else (num * Nat.pow 10 (-exponent).toNat, den)

/-- Of the two decimals next to the number on the grid of the power of ten, the one that
reads back as the number, and the nearer one if both do. -/
def neighbour? (x : Binary64) (exponent : Int) : Option Decimal :=
  let r := scaleBy exponent x.ratio.1 x.ratio.2
  let below : Decimal := ⟨r.1 / r.2, exponent⟩
  let above : Decimal := ⟨r.1 / r.2 + 1, exponent⟩
  match below.magnitude == x.magnitude, above.magnitude == x.magnitude with
  | true, true => some ⟨roundDiv r.1 r.2, exponent⟩
  | true, false => some below
  | false, true => some above
  | false, false => none

/-- The most digits that are ever needed. -/
def mostDigits : Nat := 17

/-- The shortest decimal of the magnitude of a finite number. -/
def shortest (x : Binary64) : Decimal :=
  if x.isZero then ⟨0, 0⟩
  else
    let p := pointPosition x.ratio.1 x.ratio.2
    let found := (List.range mostDigits).findSome? fun n : Nat => x.neighbour? (p - (n + 1))
    (found.getD default).dropZero

end Binary64

/-! ### Writing the digits -/

/-- The decisions of a format about the text of a number. -/
structure DecimalLayout where
  /-- The greatest position of the decimal point for which no exponent is written. -/
  greatest : Int
  /-- The least such position. -/
  least : Int
  /-- Whether an exponent that is not negative has a plus sign. -/
  plusSign : Bool
  deriving DecidableEq, Repr, Inhabited

namespace DecimalLayout

/-- The text of an exponent. -/
def exponentText (l : DecimalLayout) (e : Int) : List Char :=
  let sign := if e < 0 then ['-'] else if l.plusSign then ['+'] else []
  'e' :: sign ++ Nat.toDigits 10 e.natAbs

/-- Digits with the decimal point at the given position: a point always stands among
digits, unless an exponent is written. -/
def place (l : DecimalLayout) (digits : List Char) (point : Int) : List Char :=
  if 0 < point ∧ point ≤ l.greatest then
    let whole := digits.take point.toNat
    let zeros := List.replicate (point.toNat - digits.length) '0'
    let fraction := digits.drop point.toNat
    whole ++ zeros ++ '.' :: (if fraction.isEmpty then ['0'] else fraction)
  else if l.least ≤ point ∧ point ≤ 0 then
    '0' :: '.' :: List.replicate (-point).toNat '0' ++ digits
  else
    let fraction := digits.drop 1
    digits.take 1 ++ (if fraction.isEmpty then [] else '.' :: fraction) ++
      l.exponentText (point - 1)

/-- The text of a finite number. -/
def text (l : DecimalLayout) (x : Binary64) : List Char :=
  let d := x.shortest
  let digits := Nat.toDigits 10 d.digits
  (if x.negative then ['-'] else []) ++ l.place digits (digits.length + d.exponent)

end DecimalLayout

end SchemaLang
