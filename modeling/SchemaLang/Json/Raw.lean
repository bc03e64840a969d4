/-!
# The form of JSON texts

A text is first read for its form alone: strings as characters and escapes, numbers
as digits, objects with every member that is written.  What the parts stand for, and
whether they stand for anything, is a second question.

## Main definitions

* `Json.Part`, `Json.Numeral`, `Json.Raw` — strings, numbers and values as written.
* `Json.readString?`, `Json.readNumeral?`, `Json.readValue?` — reading them.
* `Json.read?` — reading a whole text.

## References

`SPEC_FULL.md`, section 10.4: texts that a configuration is read from.
-/

namespace SchemaLang

namespace Json

/-- A part of a string as written. -/
inductive Part where
  /-- A character. -/
  | char (c : Char) : Part
  /-- A code unit, written with four hexadecimal digits. -/
  | unit (n : Nat) : Part
  deriving DecidableEq, Repr, Inhabited

/-- A number as written. -/
structure Numeral where
  /-- Whether it has a minus sign. -/
  negative : Bool
  /-- The digits before the point. -/
  whole : List Char
  /-- The digits after the point, if there is one. -/
  fraction : Option (List Char)
  /-- The exponent, if there is one: whether it has a minus sign, and its digits. -/
  exponent : Option (Bool × List Char)
  deriving DecidableEq, Repr, Inhabited

/-- A value as written. -/
inductive Raw where
  /-- The absent value. -/
  | null : Raw
  /-- A truth value. -/
  | bool (b : Bool) : Raw
  /-- A number. -/
  | number (n : Numeral) : Raw
  /-- A string. -/
  | string (parts : List Part) : Raw
  /-- An array. -/
  | array (elements : List Raw) : Raw
  /-- An object; a name may repeat. -/
  | object (members : List (List Part × Raw)) : Raw
  deriving Repr, Inhabited

/-! ### Strings -/

/-- Whether a character may stand between the parts of a text. -/
def isBlank (c : Char) : Bool := c == ' ' || c == '\n' || c == '\t' || c == '\r'

/-- A text without the blanks it starts with. -/
def skip (cs : List Char) : List Char := cs.dropWhile isBlank

/-- The value of a hexadecimal digit. -/
def hexValue? (c : Char) : Option Nat :=
  if '0' ≤ c ∧ c ≤ '9' then some (c.toNat - '0'.toNat)
  else if 'a' ≤ c ∧ c ≤ 'f' then some (c.toNat - 'a'.toNat + 10)
  else if 'A' ≤ c ∧ c ≤ 'F' then some (c.toNat - 'A'.toNat + 10)
  else none

/-- The value of four hexadecimal digits. -/
def hexUnit? (a b c d : Char) : Option Nat :=
  match hexValue? a, hexValue? b, hexValue? c, hexValue? d with
  | some a, some b, some c, some d => some (((a * 16 + b) * 16 + c) * 16 + d)
  | _, _, _, _ => none

/-- The character that a backslash and a letter stand for. -/
def simpleEscape? (c : Char) : Option Char :=
  match c with
  | '"' => some '"'
  | '\\' => some '\\'
  | '/' => some '/'
  | 'b' => some '\x08'
  | 'f' => some '\x0c'
  | 'n' => some '\n'
  | 'r' => some '\r'
  | 't' => some '\t'
  | _ => none

/-- Puts a part in front of the rest of a string, if there is both. -/
def addPart (p : Option Part) (r : Option (List Part × List Char)) :
    Option (List Part × List Char) :=
  match p, r with
  | some p, some (ps, rest) => some (p :: ps, rest)
  | _, _ => none

/-- Reads a string after its opening quote: its parts and what follows it. -/
def readString? : List Char → Option (List Part × List Char)
  | [] => none
  | '"' :: cs => some ([], cs)
  | '\\' :: 'u' :: a :: b :: c :: d :: cs => addPart ((hexUnit? a b c d).map .unit) (readString? cs)
  | '\\' :: e :: cs => addPart ((simpleEscape? e).map .char) (readString? cs)
  | c :: cs => if c.toNat < 0x20 then none else addPart (some (.char c)) (readString? cs)

/-! ### Numbers -/

/-- The digits a text starts with, at least one, and what follows them. -/
def readDigits? (cs : List Char) : Option (List Char × List Char) :=
  let ds := cs.takeWhile Char.isDigit
  if ds.isEmpty then none else some (ds, cs.dropWhile Char.isDigit)

/-- Reads the digits before the point: a zero stands alone. -/
def readWhole? : List Char → Option (List Char × List Char)
  | '0' :: cs => if cs.head?.any Char.isDigit then none else some (['0'], cs)
  | cs => readDigits? cs

/-- Reads the digits after the point, if there is one. -/
def readFraction? : List Char → Option (Option (List Char) × List Char)
  | '.' :: cs => (readDigits? cs).map fun r => (some r.1, r.2)
  | cs => some (none, cs)

/-- Reads the sign of an exponent: whether it is a minus sign. -/
def readExponentSign : List Char → Bool × List Char
  | '-' :: cs => (true, cs)
  | '+' :: cs => (false, cs)
  | cs => (false, cs)

/-- Reads an exponent, if there is one. -/
def readExponent? : List Char → Option (Option (Bool × List Char) × List Char)
  | c :: cs =>
    if c = 'e' ∨ c = 'E' then
      let s := readExponentSign cs
      (readDigits? s.2).map fun r => (some (s.1, r.1), r.2)
    else some (none, c :: cs)
  | [] => some (none, [])

/-- Reads a minus sign, if there is one. -/
def readSign : List Char → Bool × List Char
  | '-' :: cs => (true, cs)
  | cs => (false, cs)

/-- Reads a number. -/
def readNumeral? (cs : List Char) : Option (Numeral × List Char) := do
  let (negative, cs) := readSign cs
  let (whole, cs) ← readWhole? cs
  let (fraction, cs) ← readFraction? cs
  let (exponent, cs) ← readExponent? cs
  return (⟨negative, whole, fraction, exponent⟩, cs)

/-! ### Values -/

/-- Reads a value of one part. -/
def readScalar? : List Char → Option (Raw × List Char)
  | 'n' :: 'u' :: 'l' :: 'l' :: cs => some (.null, cs)
  | 't' :: 'r' :: 'u' :: 'e' :: cs => some (.bool true, cs)
  | 'f' :: 'a' :: 'l' :: 's' :: 'e' :: cs => some (.bool false, cs)
  | '"' :: cs => (readString? cs).map fun r => (.string r.1, r.2)
  | cs => (readNumeral? cs).map fun r => (.number r.1, r.2)

/-- Reads a name and the colon after it. -/
def readName? (cs : List Char) : Option (List Part × List Char) :=
  match skip cs with
  | '"' :: cs =>
    match readString? cs with
    | some (name, cs) =>
      match skip cs with
      | ':' :: cs => some (name, cs)
      | _ => none
    | none => none
  | _ => none

mutual

/-- Reads a value; `fuel` bounds the number of parts it has. -/
def readValue? : Nat → List Char → Option (Raw × List Char)
  | 0, _ => none
  | fuel + 1, cs =>
    match skip cs with
    | '[' :: cs =>
      match skip cs with
      | ']' :: cs => some (.array [], cs)
      | cs => (readElements? fuel cs).map fun r => (.array r.1, r.2)
    | '{' :: cs =>
      match skip cs with
      | '}' :: cs => some (.object [], cs)
      | cs => (readMembers? fuel cs).map fun r => (.object r.1, r.2)
    | cs => readScalar? cs

/-- Reads elements up to the closing mark, at least one. -/
def readElements? : Nat → List Char → Option (List Raw × List Char)
  | 0, _ => none
  | fuel + 1, cs =>
    match readValue? fuel cs with
    | none => none
    | some (v, cs) =>
      match skip cs with
      | ']' :: cs => some ([v], cs)
      | ',' :: cs => (readElements? fuel cs).map fun r => (v :: r.1, r.2)
      | _ => none

/-- Reads members up to the closing mark, at least one. -/
def readMembers? : Nat → List Char → Option (List (List Part × Raw) × List Char)
  | 0, _ => none
  | fuel + 1, cs =>
    match readName? cs with
    | none => none
    | some (name, cs) =>
      match readValue? fuel cs with
      | none => none
      | some (v, cs) =>
        match skip cs with
        | '}' :: cs => some ([(name, v)], cs)
        | ',' :: cs => (readMembers? fuel cs).map fun r => ((name, v) :: r.1, r.2)
        | _ => none

end

/-- Reads a whole text, after which nothing but blanks may stand.  A text of `n`
characters has at most `n` values, each in at most one array or object. -/
def read? (cs : List Char) : Option Raw :=
  match readValue? (2 * cs.length + 2) cs with
  | some (v, rest) => if (skip rest).isEmpty then some v else none
  | none => none

end Json

end SchemaLang
