import SchemaLang.Json.Raw
import SchemaLang.Value

/-!
# What JSON texts stand for

Code units of the surrogate range stand for a character only in pairs.  A number
without point and exponent is an integer if 64 bits hold it.  Any other number is
computed in double precision from its first digits, as many as 64 bits hold, and from
a power of ten; what is too large for it stands for nothing.  Arrays and objects may
be nested up to a limit.  A name that repeats keeps its first place and its last value.

## Main definitions

* `Json.text?` — the characters of a string.
* `Json.Numeral.value?` — the value of a number.
* `Json.Raw.value?`, `Json.Raw.nesting` — the value of a text, and how deep it is nested.
* `Json.value?` — the value of a whole text.

## References

`SPEC_FULL.md`, section 10.4: texts that a configuration is read from.
-/

namespace SchemaLang

namespace Json

/-! ### Strings -/

/-- Whether a code unit is the first of a pair. -/
def isHighSurrogate (n : Nat) : Bool := 0xD800 ≤ n && n ≤ 0xDBFF

/-- Whether a code unit is the second of a pair. -/
def isLowSurrogate (n : Nat) : Bool := 0xDC00 ≤ n && n ≤ 0xDFFF

/-- The character that a pair of code units stands for. -/
def pairChar (high low : Nat) : Char :=
  Char.ofNat (0x10000 + (high - 0xD800) * 0x400 + (low - 0xDC00))

/-- The characters of a string. -/
def text? : List Part → Option (List Char)
  | [] => some []
  | .char c :: ps => (text? ps).map (c :: ·)
  | .unit high :: .unit low :: ps =>
    if isHighSurrogate high && isLowSurrogate low then (text? ps).map (pairChar high low :: ·)
    else if isHighSurrogate high || isLowSurrogate high then none
    else (text? (.unit low :: ps)).map (Char.ofNat high :: ·)
  | .unit n :: ps =>
    if isHighSurrogate n || isLowSurrogate n then none else (text? ps).map (Char.ofNat n :: ·)

/-- The string that a text stands for. -/
def string? (ps : List Part) : Option String := (text? ps).map String.ofList

/-! ### Numbers -/

/-- The greatest number of 64 bits. -/
def mostSignificand : Nat := 18446744073709551615

/-- The greatest exponent that is computed with. -/
def mostExponent : Nat := 2147483647

/-- Takes digits as long as the number stays within a limit; the number and the digits
left. -/
def takeDigits (limit : Nat) (n : Nat) : List Char → Nat × List Char
  | [] => (n, [])
  | d :: ds =>
    let m := 10 * n + (d.toNat - '0'.toNat)
    if m ≤ limit then takeDigits limit m ds else (n, d :: ds)

/-- The power of ten as a double precision number. -/
def powerOfTen (e : Nat) : Binary64 := .ofRatio false (Nat.pow 10 e) 1

/-- The greatest power of ten that double precision holds. -/
def mostPower : Int := 308

/-- The number times a power of ten, in double precision, by at most one power at a time;
nothing when it is too large. -/
def scaled? (f : Binary64) (e : Int) : Option Binary64 :=
  if e < -mostPower then
    if f.isZero then some f else scaled? (f.div (powerOfTen mostPower.toNat)) (e + mostPower)
  else if e < 0 then some (f.div (powerOfTen (-e).toNat))
  else if e ≤ mostPower then
    let g := f.mul (powerOfTen e.toNat)
    if g.isFinite then some g else none
  else if f.isZero then some f
  else none
termination_by (-e).toNat
decreasing_by simp only [mostPower] at *; omega

/-- A double precision number with a sign. -/
def signed (negative : Bool) (f : Binary64) : Binary64 := .ofMagnitude negative f.magnitude

/-- The exponent between two limits. -/
def clampExponent (e : Int) : Int := max (-2147483648) (min e 2147483647)

namespace Numeral

/-- The first digits as a number, and the power of ten that goes with them.  Digits before
the point that are left over raise the power, those after it are dropped. -/
def significand (n : Numeral) : Nat × Int :=
  let whole := takeDigits mostSignificand 0 n.whole
  let fraction := n.fraction.getD []
  let all := takeDigits mostSignificand whole.1 fraction
  (all.1, (whole.2.length : Int) - ((fraction.length : Int) - all.2.length))

/-- The value of a number in double precision.  An exponent that is not computed with makes
the number zero or too large. -/
def float? (n : Numeral) : Option Binary64 :=
  let (m, e) := n.significand
  match n.exponent with
  | none => (scaled? (.ofRatio false m 1) e).map (signed n.negative)
  | some (down, digits) =>
    let t := takeDigits mostExponent 0 digits
    if t.2.isEmpty then
      let e' := clampExponent (if down then e - t.1 else e + t.1)
      (scaled? (.ofRatio false m 1) e').map (signed n.negative)
    else if m = 0 ∨ down then some (.ofMagnitude n.negative 0)
    else none

/-- The value of a number: an integer if it has neither point nor exponent and 64 bits hold
it, where negative zero is no integer. -/
def value? (n : Numeral) : Option Value :=
  let whole := takeDigits mostSignificand 0 n.whole
  let isInteger := n.fraction.isNone && n.exponent.isNone && whole.2.isEmpty &&
    (!n.negative || (0 < whole.1 && whole.1 ≤ 9223372036854775808))
  if isInteger then some (.int (if n.negative then -whole.1 else whole.1))
  else n.float?.map .float

end Numeral

/-! ### Values -/

namespace Raw

mutual

/-- How deep arrays and objects are nested. -/
def nesting : Raw → Nat
  | .array xs => nestingElements xs + 1
  | .object ms => nestingMembers ms + 1
  | .null => 0
  | .bool _ => 0
  | .number _ => 0
  | .string _ => 0

/-- The deepest nesting of elements. -/
def nestingElements : List Raw → Nat
  | [] => 0
  | x :: xs => max (nesting x) (nestingElements xs)

/-- The deepest nesting of members. -/
def nestingMembers : List (List Part × Raw) → Nat
  | [] => 0
  | (_, v) :: ms => max (nesting v) (nestingMembers ms)

end

mutual

/-- The value that a text stands for, however deep it is nested. -/
def value? : Raw → Option Value
  | .null => some .null
  | .bool b => some (.bool b)
  | .number n => n.value?
  | .string ps => (string? ps).map .str
  | .array xs => (valueElements? xs).map .arr
  | .object ms => (valueMembers? ms).map fun es => .obj (Entries.ofList es)

/-- The values of elements. -/
def valueElements? : List Raw → Option (List Value)
  | [] => some []
  | x :: xs =>
    match value? x, valueElements? xs with
    | some v, some vs => some (v :: vs)
    | _, _ => none

/-- The names and values of members as written. -/
def valueMembers? : List (List Part × Raw) → Option (List (String × Value))
  | [] => some []
  | (name, x) :: ms =>
    match string? name, value? x, valueMembers? ms with
    | some k, some v, some es => some ((k, v) :: es)
    | _, _, _ => none

end

/-- The value that a text stands for, if it is nested at most `depth` deep. -/
def valueWithin? (depth : Nat) (x : Raw) : Option Value :=
  if x.nesting ≤ depth then x.value? else none

end Raw

/-- How deep a text may be nested. -/
def mostNesting : Nat := 127

/-- The value of a whole text. -/
def value? (cs : List Char) : Option Value := (read? cs).bind (·.valueWithin? mostNesting)

end Json

end SchemaLang
