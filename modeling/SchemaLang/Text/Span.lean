import SchemaLang.Text.Bytes

/-!
# Spans and locations

A span is the half-open range of bytes that a piece of syntax was read from.  A
location is what a person is shown for a byte position: line and column, both
counted from one, columns in characters.

## Main definitions

* `Span` — a range of byte positions.
* `Location`, `Location.ofPosition` — line and column of a byte position.

## References

`SPEC_FULL.md`, section 3, position span, and section 10.1: `Span`, `get_line_and_column`.
-/

namespace SchemaLang

/-- The bytes from `start` up to and without `stop`. -/
structure Span where
  /-- The first byte. -/
  start : Nat
  /-- The byte after the last one. -/
  stop : Nat
  deriving DecidableEq, Repr, Inhabited

namespace Span

/-- The number of bytes; a span whose ends are swapped is empty. -/
def length (s : Span) : Nat := s.stop - s.start

/-- Whether the span holds no byte. -/
def isEmpty (s : Span) : Bool := s.length == 0

/-- The span moved `n` bytes to the right. -/
def shift (n : Nat) (s : Span) : Span := ⟨s.start + n, s.stop + n⟩

@[simp] theorem length_shift (n : Nat) (s : Span) : (s.shift n).length = s.length := by
  simp only [length, shift]; omega

end Span

/-- A place in a text as a person counts it. -/
structure Location where
  /-- The line, from one. -/
  line : Nat
  /-- The column in characters, from one. -/
  column : Nat
  deriving DecidableEq, Repr, Inhabited

namespace Location

/-- Where every text begins. -/
def origin : Location := ⟨1, 1⟩

/-- The location after reading one character. -/
def advance (l : Location) (c : Char) : Location :=
  if c = '\n' then ⟨l.line + 1, 1⟩ else ⟨l.line, l.column + 1⟩

/-- The location of a byte position: what is reached after all characters that
start before it. -/
def ofPosition (source : List Char) (position : Nat) : Location :=
  (charsBefore position source).foldl advance origin

@[simp] theorem ofPosition_zero (source : List Char) : ofPosition source 0 = origin := by
  simp [ofPosition]

end Location

end SchemaLang
