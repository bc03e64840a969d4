import SchemaLang.Json.Writer
import SchemaLang.Text.Bytes
import SchemaLang.Yaml.Scalar

/-!
# Writing YAML

The text of a value in block style: a member or element on a line, objects in objects
two columns further in, arrays in objects not further in.  What is inside an array
starts on the line of its dash.

## Main definitions

* `Yaml.isSimpleKey` — names that stand before a colon on one line.
* `Yaml.valueOnto`, `Yaml.membersOnto`, `Yaml.elementsOnto` — the lines of a value.
* `Yaml.document` — the text of a value.

## References

`SPEC_FULL.md`, section 10.4: `to_yaml`.
-/

namespace SchemaLang

namespace Yaml

/-- Numbers are written as in JSON, but a positive exponent has no sign. -/
def numberLayout : DecimalLayout := { Json.numberLayout with plusSign := false }

/-- The greatest number of bytes of a name that stands before a colon on one line. -/
def longestSimpleKey : Nat := 128

/-- Whether a name stands before a colon on one line. -/
def isSimpleKey (s : String) : Bool :=
  !s.toList.any isBreak && byteLength s.toList ≤ longestSimpleKey

/-- Where a value stands. -/
inductive Place where
  /-- After a name and its colon. -/
  | afterKey : Place
  /-- After a dash, or a colon that is alone. -/
  | afterMark : Place
  deriving DecidableEq, Repr, Inhabited

/-- A name at a column and the colon after it.  A name that is long or has line breaks
stands alone after a question mark. -/
def keyHead (column : Nat) (k : String) : List Char :=
  if isSimpleKey k then scalar column k ++ [':']
  else '?' :: ' ' :: scalarLine (column + 2) k ++ spaces column ++ [':']

/-- Where the value of a name stands. -/
def keyPlace (k : String) : Place := if isSimpleKey k then .afterKey else .afterMark

/-- What stands before the first element or member: a new line, unless it goes on after a
mark. -/
def opening : Place → Nat → List Char
  | .afterKey, column => '\n' :: spaces column
  | .afterMark, _ => [' ']

/-- The column of elements; those of a named array are not further in. -/
def elementColumn : Place → Nat → Nat
  | .afterKey, column => column
  | .afterMark, column => column + 2

/-- A value on the line where it stands, in front of a text. -/
def onLine (text rest : List Char) : List Char := ' ' :: text ++ '\n' :: rest

mutual

/-- Writes a value that stands at a place of a column in front of a text. -/
def valueOnto (place : Place) (column : Nat) : Value → List Char → List Char
  | .null, rest => onLine Json.null rest
  | .bool b, rest => onLine (Json.boolean b) rest
  | .int n, rest => onLine (Json.integer n) rest
  | .float x, rest => onLine (numberLayout.text x) rest
  | .str s, rest => ' ' :: scalarLine (column + 2) s ++ rest
  | .arr [], rest => onLine ['[', ']'] rest
  | .obj [], rest => onLine ['{', '}'] rest
  | .arr (x :: xs), rest =>
    opening place (elementColumn place column) ++ '-' ::
      valueOnto .afterMark (elementColumn place column) x
        (elementsOnto (elementColumn place column) xs rest)
  | .obj ((k, v) :: ms), rest =>
    opening place (column + 2) ++ keyHead (column + 2) k ++
      valueOnto (keyPlace k) (column + 2) v (membersOnto (column + 2) ms rest)

/-- Writes elements on lines at a column in front of a text. -/
def elementsOnto (column : Nat) : List Value → List Char → List Char
  | [], rest => rest
  | x :: xs, rest =>
    spaces column ++ '-' :: valueOnto .afterMark column x (elementsOnto column xs rest)

/-- Writes members on lines at a column in front of a text. -/
def membersOnto (column : Nat) : List (String × Value) → List Char → List Char
  | [], rest => rest
  | (k, v) :: ms, rest =>
    spaces column ++ keyHead column k ++ valueOnto (keyPlace k) column v (membersOnto column ms rest)

end

/-- The text of an object. -/
def document (ms : Entries Value) : List Char :=
  if ms.isEmpty then ['{', '}', '\n'] else membersOnto 0 ms []

end Yaml

end SchemaLang
