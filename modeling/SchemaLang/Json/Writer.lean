import SchemaLang.Number.Shortest
import SchemaLang.Value

/-!
# Writing JSON

Two forms of the text of a value: compact, without any blank, and pretty, with one
element or member on a line and two blanks for each level.

## Main definitions

* `Json.numberLayout` — how numbers with a fraction are written.
* `Json.quoted` — the text of a string.
* `Json.compactOnto`, `Json.prettyOnto` — the text of a value in front of another.
* `Json.compact`, `Json.pretty` — the text of a value.

## References

`SPEC_FULL.md`, section 10.4: the text of `to_value`, and `to_json`.
-/

namespace SchemaLang

namespace Json

/-- Numbers from `10 ^ -5` up to `10 ^ 16` are written without an exponent, and an
exponent always has a sign. -/
def numberLayout : DecimalLayout := ⟨16, -4, true⟩

/-- Up to sixteen digits stand before the point, and up to four zeros after it. -/
example : [(1, 0), (1234567, 3), (10 ^ 15, 0), (10 ^ 16, 0), (12, 6), (1, 6)].map
    (fun d : Nat × Nat => String.ofList (numberLayout.text (.ofDecimal true d.1 d.2))) =
    ["-1.0", "-1234.567", "-1000000000000000.0", "-1e+16", "-0.000012", "-1e-6"] := by
  decide +kernel

/-- Zero keeps its sign. -/
example : String.ofList (numberLayout.text (.ofDecimal true 0 0)) = "-0.0" := by
  decide +kernel

/-- A hexadecimal digit. -/
def hexDigit (n : Nat) : Char := Nat.digitChar n

/-- The text of a character in a string: quote, backslash and control characters are
escaped, everything else stands for itself. -/
def escaped (c : Char) : List Char :=
  if c = '"' then ['\\', '"']
  else if c = '\\' then ['\\', '\\']
  else if c = '\x08' then ['\\', 'b']
  else if c = '\t' then ['\\', 't']
  else if c = '\n' then ['\\', 'n']
  else if c = '\x0c' then ['\\', 'f']
  else if c = '\r' then ['\\', 'r']
  else if c.toNat < 0x20 then
    ['\\', 'u', '0', '0', hexDigit (c.toNat / 16), hexDigit (c.toNat % 16)]
  else [c]

/-- The text of a string. -/
def quoted (s : String) : List Char := '"' :: s.toList.flatMap escaped ++ ['"']

/-- The text of an integer. -/
def integer (n : Int) : List Char :=
  (if n < 0 then ['-'] else []) ++ Nat.toDigits 10 n.natAbs

/-- The text of a truth value. -/
def boolean (b : Bool) : List Char := if b then "true".toList else "false".toList

/-- The text of the absent value. -/
def null : List Char := "null".toList

/-! ### Compact text -/

mutual

/-- Writes a value without blanks in front of a text. -/
def compactOnto : Value → List Char → List Char
  | .null, rest => null ++ rest
  | .bool b, rest => boolean b ++ rest
  | .int n, rest => integer n ++ rest
  | .float x, rest => numberLayout.text x ++ rest
  | .str s, rest => quoted s ++ rest
  | .arr [], rest => '[' :: ']' :: rest
  | .arr (x :: xs), rest => '[' :: compactOnto x (compactElements xs (']' :: rest))
  | .obj [], rest => '{' :: '}' :: rest
  | .obj ((k, v) :: ms), rest =>
    '{' :: quoted k ++ ':' :: compactOnto v (compactMembers ms ('}' :: rest))

/-- Writes further elements of an array in front of a text. -/
def compactElements : List Value → List Char → List Char
  | [], rest => rest
  | x :: xs, rest => ',' :: compactOnto x (compactElements xs rest)

/-- Writes further members of an object in front of a text. -/
def compactMembers : List (String × Value) → List Char → List Char
  | [], rest => rest
  | (k, v) :: ms, rest => ',' :: quoted k ++ ':' :: compactOnto v (compactMembers ms rest)

end

/-- The text of a value, without blanks. -/
def compact (v : Value) : List Char := compactOnto v []

/-! ### Pretty text -/

/-- The start of a line at a level. -/
def newLine (level : Nat) : List Char := '\n' :: List.replicate (2 * level) ' '

mutual

/-- Writes a value at a level, one element or member on a line, in front of a text. -/
def prettyOnto (level : Nat) : Value → List Char → List Char
  | .null, rest => null ++ rest
  | .bool b, rest => boolean b ++ rest
  | .int n, rest => integer n ++ rest
  | .float x, rest => numberLayout.text x ++ rest
  | .str s, rest => quoted s ++ rest
  | .arr [], rest => '[' :: ']' :: rest
  | .arr (x :: xs), rest =>
    '[' :: newLine (level + 1) ++
      prettyOnto (level + 1) x (prettyElements (level + 1) xs (newLine level ++ ']' :: rest))
  | .obj [], rest => '{' :: '}' :: rest
  | .obj ((k, v) :: ms), rest =>
    '{' :: newLine (level + 1) ++ quoted k ++ ':' :: ' ' ::
      prettyOnto (level + 1) v (prettyMembers (level + 1) ms (newLine level ++ '}' :: rest))

/-- Writes further elements of an array at a level in front of a text. -/
def prettyElements (level : Nat) : List Value → List Char → List Char
  | [], rest => rest
  | x :: xs, rest => ',' :: newLine level ++ prettyOnto level x (prettyElements level xs rest)

/-- Writes further members of an object at a level in front of a text. -/
def prettyMembers (level : Nat) : List (String × Value) → List Char → List Char
  | [], rest => rest
  | (k, v) :: ms, rest =>
    ',' :: newLine level ++ quoted k ++ ':' :: ' ' ::
      prettyOnto level v (prettyMembers level ms rest)

end

/-- The text of a value on lines of their own. -/
def pretty (v : Value) : List Char := prettyOnto 0 v []

end Json

end SchemaLang
