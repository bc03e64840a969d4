/-!
# Double precision numbers as exact words

A number with a fraction is kept as the 64-bit word of the binary interchange
format: one sign bit, eleven exponent bits, fifty-two fraction bits.  The
magnitude of a finite word is `significand * 2 ^ scale`.  All arithmetic here is
exact arithmetic on natural numbers followed by one rounding to the nearest word,
where a tie goes to the even significand.

## Main definitions

* `Binary64` — a word, with `significand` and `scale`.
* `Binary64.ofRatio` — the word nearest to a ratio of natural numbers.
* `Binary64.ofDecimal` — the word nearest to a decimal numeral.
* `Binary64.same` — equality of the numbers, for which the two zeros are one.

## References

`SPEC_FULL.md`, section 11, integer and float: the numbers that `read_number` reads with a
fraction.
-/

namespace SchemaLang

/-- The quotient `num / den` rounded to the nearest natural number, a tie going to
the even neighbour. -/
def roundDiv (num den : Nat) : Nat :=
  let q := num / den
  let r := num % den
  if 2 * r < den then q else if den < 2 * r then q + 1 else q + q % 2

/-- A double precision number, as its word. -/
structure Binary64 where
  /-- The word. -/
  bits : UInt64
  deriving DecidableEq, Repr, Inhabited

namespace Binary64

/-- The number of fraction bits. -/
def fractionBits : Nat := 52

/-- The exponent of the smallest positive number. -/
def leastScale : Int := -1074

/-- The word of positive infinity; greater words without a sign are no numbers. -/
def infinityBits : Nat := 0x7FF0000000000000

/-! ### Parts of a word -/

/-- Whether the sign bit is set. -/
def negative (x : Binary64) : Bool := Nat.pow 2 63 ≤ x.bits.toNat

/-- The word without its sign bit. -/
def magnitude (x : Binary64) : Nat := x.bits.toNat % Nat.pow 2 63

/-- Whether the word is a number and no infinity. -/
def isFinite (x : Binary64) : Bool := x.magnitude < infinityBits

/-- Whether the word is one of the two zeros. -/
def isZero (x : Binary64) : Bool := x.magnitude == 0

/-- The exponent field; zero for zeros and subnormal numbers. -/
def exponentField (x : Binary64) : Nat := x.magnitude / Nat.pow 2 fractionBits

/-- The integer `m` for which the magnitude of a finite number is `m * 2 ^ scale`. -/
def significand (x : Binary64) : Nat :=
  let fraction := x.magnitude % Nat.pow 2 fractionBits
  if x.exponentField = 0 then fraction else Nat.pow 2 fractionBits + fraction

/-- The exponent `q` for which the magnitude of a finite number is
`significand * 2 ^ q`. -/
def scale (x : Binary64) : Int :=
  if x.exponentField = 0 then leastScale else x.exponentField - 1 + leastScale

/-! ### Rounding -/

/-- The word with the given sign and magnitude. -/
def ofMagnitude (negative : Bool) (magnitude : Nat) : Binary64 :=
  ⟨UInt64.ofNat (if negative then Nat.pow 2 63 + magnitude else magnitude)⟩

/-- The greatest exponent `e` with `2 ^ e ≤ num / den`, for positive arguments. -/
def floorLog2 (num den : Nat) : Int :=
  let e : Int := (num.log2 : Int) - den.log2
  let reached := if 0 ≤ e then den * Nat.pow 2 e.toNat ≤ num else den ≤ num * Nat.pow 2 (-e).toNat
  if reached then e else e - 1

/-- The magnitude of the word nearest to `num / den`.  A significand that rounds up
to `2 ^ 53` carries into the exponent field, and what is too large is infinite. -/
def nearestMagnitude (num den : Nat) : Nat :=
  if num = 0 then 0
  else
    let q := max (floorLog2 num den - fractionBits) leastScale
    let m :=
      if 0 ≤ q then roundDiv num (den * Nat.pow 2 q.toNat)
      else roundDiv (num * Nat.pow 2 (-q).toNat) den
    min ((q - leastScale).toNat * Nat.pow 2 fractionBits + m) infinityBits

/-- The word nearest to `num / den` with the given sign. -/
def ofRatio (negative : Bool) (num den : Nat) : Binary64 :=
  ofMagnitude negative (nearestMagnitude num den)

/-- The word nearest to `digits * 10 ^ (-places)` with the given sign. -/
def ofDecimal (negative : Bool) (digits places : Nat) : Binary64 :=
  ofRatio negative digits (Nat.pow 10 places)

/-! ### Arithmetic -/

/-- The magnitude of a finite number as a ratio of natural numbers. -/
def ratio (x : Binary64) : Nat × Nat :=
  if 0 ≤ x.scale then (x.significand * Nat.pow 2 x.scale.toNat, 1)
  else (x.significand, Nat.pow 2 (-x.scale).toNat)

/-- The rounded product of two finite numbers. -/
def mul (x y : Binary64) : Binary64 :=
  ofRatio (x.negative != y.negative) (x.ratio.1 * y.ratio.1) (x.ratio.2 * y.ratio.2)

/-- The rounded quotient of two finite numbers, the second not zero. -/
def div (x y : Binary64) : Binary64 :=
  ofRatio (x.negative != y.negative) (x.ratio.1 * y.ratio.2) (x.ratio.2 * y.ratio.1)

/-- Equality of the numbers: the two zeros are equal, and what is no number equals
nothing. -/
def same (x y : Binary64) : Bool :=
  x.magnitude ≤ infinityBits && (x.bits == y.bits || x.isZero && y.isZero)

/-- A half lies on the grid. -/
example : ofDecimal false 5 1 = ⟨0x3FE0000000000000⟩ := by decide +kernel

/-- A tenth does not, and is rounded up. -/
example : ofDecimal true 1 1 = ⟨0xBFB999999999999A⟩ := by decide +kernel

/-- The smallest positive number, and what rounds to it. -/
example : ofDecimal false 3 324 = ⟨1⟩ ∧ ofDecimal false 2 324 = ⟨0⟩ := by decide +kernel

/-- The greatest finite number, and the least numeral above it that is infinite. -/
example : ofDecimal false (17976931348623157 * 10 ^ 292) 0 = ⟨0x7FEFFFFFFFFFFFFF⟩ ∧
    ofDecimal false (17976931348623159 * 10 ^ 292) 0 = ⟨0x7FF0000000000000⟩ := by decide +kernel

end Binary64

end SchemaLang
