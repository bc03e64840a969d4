import SchemaLang.Number.Shortest

/-!
# Strings in YAML

A string may stand as it is, in single quotes, in double quotes, or as a block of
lines.  It is quoted if it would be read as something else, and the form it takes is
the first one that can hold it.

## Main definitions

* `Yaml.readsAsOther` — strings that would be read as null, a truth value or a number.
* `Yaml.plainHolds`, `Yaml.singleHolds`, `Yaml.literalHolds` — what the forms can hold.
* `Yaml.Style`, `Yaml.styleOf` — the form of a string.
* `Yaml.scalar` — the text of a string.

## References

`SPEC_FULL.md`, section 10.4: strings in the text of `to_yaml`.
-/

namespace SchemaLang

namespace Yaml

/-! ### Strings that would be read as something else -/

/-- The words for the absent value and the truth values. -/
def reservedWords : List String :=
  ["", "null", "Null", "NULL", "~", "true", "True", "TRUE", "false", "False", "FALSE"]

/-- The words for what is no finite number. -/
def infiniteWords : List String :=
  [".inf", ".Inf", ".INF", "+.inf", "+.Inf", "+.INF", "-.inf", "-.Inf", "-.INF",
   ".nan", ".NaN", ".NAN"]

/-- A text without the sign it may start with. -/
def dropSign : List Char → List Char
  | '+' :: cs => cs
  | '-' :: cs => cs
  | cs => cs

/-- The value of a digit in a base. -/
def digitIn? (base : Nat) (c : Char) : Option Nat :=
  let value? :=
    if '0' ≤ c ∧ c ≤ '9' then some (c.toNat - '0'.toNat)
    else if 'a' ≤ c ∧ c ≤ 'f' then some (c.toNat - 'a'.toNat + 10)
    else if 'A' ≤ c ∧ c ≤ 'F' then some (c.toNat - 'A'.toNat + 10)
    else none
  value?.filter (· < base)

/-- The value of a row of digits in a base, at least one. -/
def natIn? (base : Nat) (cs : List Char) : Option Nat :=
  if cs.isEmpty then none
  else cs.foldlM (fun n c => (digitIn? base c).map (base * n + ·)) 0

/-- The value of a number with a mark for its base. -/
def marked? : List Char → Option Nat
  | '0' :: 'x' :: cs => natIn? 16 cs
  | '0' :: 'o' :: cs => natIn? 8 cs
  | '0' :: 'b' :: cs => natIn? 2 cs
  | _ => none

/-- Whether a text is a number with a mark for its base, of at most 128 bits. -/
def isMarkedInteger : List Char → Bool
  | '-' :: cs => (marked? cs).any (· ≤ Nat.pow 2 127)
  | '+' :: cs => (marked? cs).any (· < Nat.pow 2 128)
  | cs => (marked? cs).any (· < Nat.pow 2 128)

/-- Whether a text is a row of digits with a zero in front. -/
def hasLeadingZero (cs : List Char) : Bool :=
  match dropSign cs with
  | '0' :: d :: ds => (d :: ds).all Char.isDigit
  | _ => false

/-- The exponent of a decimal number, zero if there is none. -/
def exponent? : List Char → Option Int
  | [] => some 0
  | c :: cs =>
    if c = 'e' ∨ c = 'E' then
      (natIn? 10 (dropSign cs)).map fun n => if cs.head? = some '-' then -(n : Int) else n
    else none

/-- A decimal number without a sign.  Digits may be missing before or after the point,
but not both. -/
def decimal? (cs : List Char) : Option Decimal :=
  let whole := cs.takeWhile Char.isDigit
  let rest := cs.dropWhile Char.isDigit
  let afterPoint := if rest.head? = some '.' then rest.drop 1 else rest
  let fraction := if rest.head? = some '.' then afterPoint.takeWhile Char.isDigit else []
  let tail := if rest.head? = some '.' then afterPoint.dropWhile Char.isDigit else rest
  match natIn? 10 (whole ++ fraction), exponent? tail with
  | some n, some e => some ⟨n, e - fraction.length⟩
  | _, _ => none

/-- Whether a decimal rounds to a finite number.  The position of its point tells, unless
it is near the greatest number. -/
def isFiniteDecimal (d : Decimal) : Bool :=
  let point := Binary64.digitCount d.digits + d.exponent
  d.digits = 0 || point < 300 || (point < 320 && d.magnitude < Binary64.infinityBits)

/-- Whether a text is a decimal number that is finite. -/
def isDecimalNumber (cs : List Char) : Bool := (decimal? (dropSign cs)).any isFiniteDecimal

/-- Whether a string would be read as null, a truth value or a number, or looks like a number
with a zero in front. -/
def readsAsOther (s : String) : Bool :=
  reservedWords.contains s || infiniteWords.contains s || isMarkedInteger s.toList ||
    hasLeadingZero s.toList || isDecimalNumber s.toList

/-! ### What the forms can hold -/

/-- Whether a character ends a line. -/
def isBreak (c : Char) : Bool :=
  c == '\n' || c == '\r' || c == '\u0085' || c == '\u2028' || c == '\u2029'

/-- Whether a character is a blank. -/
def isSpace (c : Char) : Bool := c == ' '

/-- Whether a character separates words, or stands for the end of a text. -/
def isSeparator (c : Char) : Bool := c == ' ' || c == '\t' || c == '\x00' || isBreak c

/-- Whether what follows separates words; the end of the text does. -/
def separates (cs : List Char) : Bool := cs.head?.all isSeparator

/-- Whether a character can stand in a text as it is. -/
def isPrintable (c : Char) : Bool :=
  let n := c.toNat
  n == 0x0A || (0x20 ≤ n && n ≤ 0x7E) || (0xA0 ≤ n && n ≤ 0xFFFD && n != 0xFEFF) || 0x10000 ≤ n

/-- The characters that no plain string starts with. -/
def indicators : List Char := "#,[]\x7b\x7d&*!|>'\"%@`".toList

/-- Whether the start of a text has a meaning of its own. -/
def startsWithIndicator : List Char → Bool
  | [] => false
  | c :: cs =>
    indicators.contains c || ((c == '?' || c == ':' || c == '-') && separates cs) ||
      ['-', '-', '-'].isPrefixOf (c :: cs) || ['.', '.', '.'].isPrefixOf (c :: cs)

/-- Whether a text that follows `before` holds the end of a key or the start of a comment. -/
def holdsIndicator (before : Char) : List Char → Bool
  | [] => false
  | c :: cs =>
    (c == ':' && separates cs) || (c == '#' && isSeparator before) || holdsIndicator c cs

/-- Whether two characters of the given classes stand next to each other. -/
def hasPair (p q : Char → Bool) : List Char → Bool
  | a :: b :: cs => (p a && q b) || hasPair p q (b :: cs)
  | _ => false

/-- Whether a text can stand as it is. -/
def plainHolds : List Char → Bool
  | [] => false
  | c :: cs =>
    (c :: cs).all (fun d => isPrintable d && !isBreak d) && !isSpace c &&
      !(c :: cs).getLast?.any isSpace && !startsWithIndicator (c :: cs) && !holdsIndicator c cs

/-- Whether a text can stand in single quotes. -/
def singleHolds (cs : List Char) : Bool :=
  cs.all isPrintable && !hasPair isBreak isSpace cs && !hasPair isSpace isBreak cs

/-- Whether a text can stand as a block of lines. -/
def literalHolds (cs : List Char) : Bool :=
  cs.all isPrintable && !cs.getLast?.any isSpace && !hasPair isSpace isBreak cs

/-- The form of a string. -/
inductive Style where
  /-- As it is. -/
  | plain : Style
  /-- In single quotes. -/
  | single : Style
  /-- In double quotes. -/
  | double : Style
  /-- As a block of lines. -/
  | literal : Style
  deriving DecidableEq, Repr, Inhabited

/-- The form that a string takes: lines make a block, a string that would be read as
something else is quoted, and double quotes hold everything. -/
def styleOf (s : String) : Style :=
  let cs := s.toList
  if cs.contains '\n' then (if literalHolds cs then .literal else .double)
  else if !readsAsOther s && plainHolds cs then .plain
  else if singleHolds cs then .single
  else .double

/-- Each form is needed. -/
example : ["yes", "true", "012", "a: b", "a\nb", "a\tb"].map styleOf =
    [.plain, .single, .single, .single, .literal, .double] := by
  decide +kernel

/-! ### Texts -/

/-- Blanks. -/
def spaces (n : Nat) : List Char := List.replicate n ' '

/-- A text whose lines after the first are indented; a line without characters is not.
`fresh` says whether the text is at the start of such a line. -/
def indented (indent : Nat) (fresh : Bool) (written : Char → List Char) : List Char → List Char
  | [] => []
  | c :: cs =>
    if isBreak c then c :: indented indent true written cs
    else (if fresh then spaces indent else []) ++ written c ++ indented indent false written cs

/-- A string in single quotes, in which a quote stands twice. -/
def singleQuoted (indent : Nat) (cs : List Char) : List Char :=
  let body := indented indent false (fun c => if c = '\'' then ['\'', '\''] else [c]) cs
  let closing := if cs.getLast?.any isBreak then spaces indent else []
  '\'' :: body ++ closing ++ ['\'']

/-- A number in hexadecimal digits, capital ones, filled up to a width. -/
def hexText (width n : Nat) : List Char :=
  (List.range width).reverse.map fun k => (Nat.digitChar (n / Nat.pow 16 k % 16)).toUpper

/-- The escape of a character in double quotes. -/
def escapeOf (c : Char) : List Char :=
  match c.toNat with
  | 0x00 => ['\\', '0']
  | 0x07 => ['\\', 'a']
  | 0x08 => ['\\', 'b']
  | 0x09 => ['\\', 't']
  | 0x0A => ['\\', 'n']
  | 0x0B => ['\\', 'v']
  | 0x0C => ['\\', 'f']
  | 0x0D => ['\\', 'r']
  | 0x1B => ['\\', 'e']
  | 0x22 => ['\\', '"']
  | 0x5C => ['\\', '\\']
  | 0x85 => ['\\', 'N']
  | 0x2028 => ['\\', 'L']
  | 0x2029 => ['\\', 'P']
  | n =>
    if n ≤ 0xFF then '\\' :: 'x' :: hexText 2 n
    else if n ≤ 0xFFFF then '\\' :: 'u' :: hexText 4 n
    else '\\' :: 'U' :: hexText 8 n

/-- A character in double quotes. -/
def doubleQuotedChar (c : Char) : List Char :=
  if !isPrintable c || isBreak c || c == '"' || c == '\\' then escapeOf c else [c]

/-- A string in double quotes. -/
def doubleQuoted (cs : List Char) : List Char := '"' :: cs.flatMap doubleQuotedChar ++ ['"']

/-- Whether a block keeps all line breaks at its end: it has two of them there, or
nothing else. -/
def keepsBreaks (cs : List Char) : Bool :=
  match cs.reverse with
  | [a] => isBreak a
  | a :: b :: _ => isBreak a && isBreak b
  | [] => false

/-- The head of a block: how far it is indented, if its first line does not show it, and
what becomes of the line breaks at its end. -/
def blockHead (cs : List Char) : List Char :=
  let indentMark := if cs.head?.any (fun c => isSpace c || isBreak c) then ['2'] else []
  let endMark :=
    if !cs.getLast?.any isBreak then ['-'] else if keepsBreaks cs then ['+'] else []
  '|' :: indentMark ++ endMark

/-- A string as a block of lines. -/
def literalBlock (indent : Nat) (cs : List Char) : List Char :=
  blockHead cs ++ '\n' :: indented indent true (fun c => [c]) cs

/-- The text of a string whose further lines are indented. -/
def scalar (indent : Nat) (s : String) : List Char :=
  match styleOf s with
  | .plain => s.toList
  | .single => singleQuoted indent s.toList
  | .double => doubleQuoted s.toList
  | .literal => literalBlock indent s.toList

/-- The text of a string with the end of its line, which a block of lines may have. -/
def scalarLine (indent : Nat) (s : String) : List Char :=
  let ended := styleOf s = .literal ∧ s.toList.getLast?.any isBreak
  scalar indent s ++ (if ended then [] else ['\n'])

end Yaml

end SchemaLang
