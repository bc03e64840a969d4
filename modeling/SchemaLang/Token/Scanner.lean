import SchemaLang.Text.Blank
import SchemaLang.Token
import SchemaLang.Token.Quoted

/-!
# Cutting a text into tokens

The first character of a text decides what its first token is.  The scanner
returns the token's lexeme together with what follows, and the two always make up
the text that was read, so that the tokens of a text tile it.

## Main definitions

* `Piece`, `Piece.first` — the first token of a non-empty text, and the rest.
* `Token.stream` — the tokens of a text up to its end.
* `lex`, `lexAt`, `scanAt` — all tokens of a source, all from a byte position on,
  and the one at a byte position.

## Main results

* `Piece.lexeme_append_rest` — nothing is lost.
* `Piece.rest_length_lt` — every piece takes at least one character.

## References

`SPEC_FULL.md`, section 4.1: `scan`, `lex` and `next_token` with `read_whitespace`,
`read_comment`, `read_block_comment`, `read_identifier`, `read_number` and `read_digits`.
-/

namespace SchemaLang

/-- The first token of a text, and what follows it. -/
structure Piece where
  /-- What was read. -/
  content : Content
  /-- The characters it was read from. -/
  lexeme : List Char
  /-- What follows. -/
  rest : List Char
  deriving DecidableEq, Repr, Inhabited

/-! ### Comments -/

/-- Splits a text at the first `*/`; `none` when there is none. -/
def splitComment? : List Char → Option (List Char × List Char)
  | [] => none
  | '*' :: '/' :: cs => some ([], cs)
  | c :: cs => (splitComment? cs).map fun p => (c :: p.1, p.2)

theorem splitComment?_append {cs : List Char} {p : List Char × List Char}
    (h : splitComment? cs = some p) : p.1 ++ '*' :: '/' :: p.2 = cs := by
  fun_induction splitComment? cs generalizing p with
  | case1 => simp at h
  | case2 cs => cases h; rfl
  | case3 c cs _ ih =>
    obtain ⟨q, hq, rfl⟩ := Option.map_eq_some_iff.1 h
    simp [ih hq]

/-! ### Words and numbers -/

/-- Whether a name may start with the character. -/
def isNameStart (c : Char) : Bool := c.isAlpha || c == '_'

/-- Whether a name may go on with the character. -/
def isNamePart (c : Char) : Bool := c.isAlphanum || c == '_'

/-- What a word starting with `first` is: a reserved word, or a name by the case of
its first letter. -/
def wordContent (first : Char) (word : List Char) : Content :=
  let name := String.ofList word
  match Keyword.ofText? name with
  | some k => .keyword k
  | none => if first.isUpper then .capital name else .identifier name

/-- The value of a row of decimal digits. -/
def digitsValue (ds : List Char) : Nat :=
  ds.foldl (fun n d => 10 * n + (d.toNat - '0'.toNat)) 0

/-- Whether a number is a signed 64-bit integer. -/
def isInt64 (n : Int) : Bool := -9223372036854775808 ≤ n && n ≤ 9223372036854775807

/-- A number without a fraction: an integer where 64 bits suffice. -/
def wholeContent (negative : Bool) (digits : List Char) : Content :=
  let n : Int := if negative then -digitsValue digits else digitsValue digits
  if isInt64 n then .integer n else .float (.ofDecimal negative (digitsValue digits) 0)

/-- A number with a fraction. -/
def fractionContent (negative : Bool) (digits fraction : List Char) : Content :=
  .float (.ofDecimal negative (digitsValue (digits ++ fraction)) fraction.length)

/-- Reads a number: `digits` are its whole digits, `front` is all that was read of it
so far.  A fraction needs at least one digit after the dot. -/
def numberPiece (negative : Bool) (front digits : List Char) : List Char → Piece
  | '.' :: d :: cs =>
    if d.isDigit then
      let fraction := d :: cs.takeWhile Char.isDigit
      ⟨fractionContent negative digits fraction, front ++ '.' :: fraction, cs.dropWhile Char.isDigit⟩
    else ⟨wholeContent negative digits, front, '.' :: d :: cs⟩
  | cs => ⟨wholeContent negative digits, front, cs⟩

/-! ### The first token -/

namespace Piece

/-- A piece of one character that no rule knows. -/
def single (content : Content) (c : Char) (cs : List Char) : Piece := ⟨content, [c], cs⟩

/-- What a slash starts: a comment, or nothing known.  A comment that is never
closed takes the whole text. -/
def slash : List Char → Piece
  | '/' :: cs =>
    let body := cs.takeWhile (· ≠ '\n')
    ⟨.lineComment (String.ofList (trim body)), '/' :: '/' :: body, cs.dropWhile (· ≠ '\n')⟩
  | '*' :: cs =>
    match splitComment? cs with
    | some (body, rest) =>
      ⟨.blockComment (String.ofList (trim body)), '/' :: '*' :: body ++ ['*', '/'], rest⟩
    | none => ⟨.unknown, '/' :: '*' :: cs, []⟩
  | cs => single .unknown '/' cs

/-- What a double quote starts: a string, or the rest of the text when the string is
never closed. -/
def quote (cs : List Char) : Piece :=
  match Quoted.read? cs with
  | some q => ⟨.string (String.ofList q.value), '"' :: q.raw, q.rest⟩
  | none => ⟨.unknown, '"' :: cs, []⟩

/-- A run of blanks. -/
def blank (c : Char) (cs : List Char) : Piece :=
  ⟨.blank, c :: cs.takeWhile isBlank, cs.dropWhile isBlank⟩

/-- A name or a reserved word. -/
def word (c : Char) (cs : List Char) : Piece :=
  let name := c :: cs.takeWhile isNamePart
  ⟨wordContent c name, name, cs.dropWhile isNamePart⟩

/-- A number whose first digit is `c`. -/
def number (c : Char) (cs : List Char) : Piece :=
  let digits := c :: cs.takeWhile Char.isDigit
  numberPiece false digits digits (cs.dropWhile Char.isDigit)

/-- What a minus sign starts: a number if a digit follows it, else nothing known. -/
def minus (cs : List Char) : Piece :=
  if cs.head?.any Char.isDigit then
    let digits := cs.takeWhile Char.isDigit
    numberPiece true ('-' :: digits) digits (cs.dropWhile Char.isDigit)
  else single .unknown '-' cs

/-- The first token of a text that starts with `c` and goes on with `cs`. -/
def first (c : Char) (cs : List Char) : Piece :=
  match Punct.ofChar? c with
  | some p => single (.punct p) c cs
  | none =>
    if c = '/' then slash cs
    else if c = '"' then quote cs
    else if isBlank c then blank c cs
    else if isNameStart c then word c cs
    else if c.isDigit then number c cs
    else if c = '-' then minus cs
    else single .unknown c cs

/-! ### Nothing is lost -/

/-- The text that a piece was cut from. -/
def source (p : Piece) : List Char := p.lexeme ++ p.rest

theorem source_numberPiece (negative : Bool) (front digits cs : List Char) :
    (numberPiece negative front digits cs).source = front ++ cs := by
  unfold numberPiece
  split
  · split <;> simp [source, List.takeWhile_append_dropWhile]
  · rfl

theorem source_slash (cs : List Char) : (slash cs).source = '/' :: cs := by
  unfold slash
  split
  · simp [source, List.takeWhile_append_dropWhile]
  · split
    · next h => simpa [source] using splitComment?_append h
    · simp [source]
  · rfl

theorem source_quote (cs : List Char) : (quote cs).source = '"' :: cs := by
  unfold quote
  split
  · next h => simpa [source] using Quoted.raw_append_rest h
  · simp [source]

theorem source_minus (cs : List Char) : (minus cs).source = '-' :: cs := by
  unfold minus
  split
  · simp [source_numberPiece, List.takeWhile_append_dropWhile]
  · rfl

/-- The lexeme of the first token and what follows it make up the text. -/
theorem lexeme_append_rest (c : Char) (cs : List Char) :
    (first c cs).lexeme ++ (first c cs).rest = c :: cs := by
  change (first c cs).source = c :: cs
  unfold first
  split
  · rfl
  · split
    · next h => subst h; exact source_slash cs
    split
    · next h => subst h; exact source_quote cs
    split
    · simp [source, blank, List.takeWhile_append_dropWhile]
    split
    · simp [source, word, List.takeWhile_append_dropWhile]
    split
    · simp [number, source_numberPiece, List.takeWhile_append_dropWhile]
    split
    · next h => subst h; exact source_minus cs
    · rfl

theorem numberPiece_lexeme_ne_nil {negative : Bool} {front digits cs : List Char}
    (h : front ≠ []) : (numberPiece negative front digits cs).lexeme ≠ [] := by
  unfold numberPiece
  split
  · split <;> simp [h]
  · exact h

/-- Every token before the end has at least one character. -/
theorem lexeme_ne_nil (c : Char) (cs : List Char) : (first c cs).lexeme ≠ [] := by
  unfold first
  split
  · simp [single]
  · split
    · unfold slash
      split
      · simp
      · split <;> simp
      · simp [single]
    split
    · unfold quote
      split <;> simp
    split
    · simp [blank]
    split
    · simp [word]
    split
    · exact numberPiece_lexeme_ne_nil (by simp)
    split
    · unfold minus
      split
      · exact numberPiece_lexeme_ne_nil (by simp)
      · simp [single]
    · simp [single]

/-- What follows the first token is shorter than the text. -/
theorem rest_length_lt (c : Char) (cs : List Char) :
    (first c cs).rest.length < (c :: cs).length := by
  have h := congrArg List.length (lexeme_append_rest c cs)
  have hpos := List.length_pos_iff.2 (lexeme_ne_nil c cs)
  simp only [List.length_append] at h
  omega

end Piece

/-! ### All tokens -/

/-- The tokens of a text whose first byte is at position `start`, without the one
that marks its end. -/
def Token.stream (start : Nat) : List Char → List Token
  | [] => []
  | c :: cs =>
    let p := Piece.first c cs
    ⟨p.content, p.lexeme, start⟩ :: Token.stream (start + byteLength p.lexeme) p.rest
termination_by cs => cs.length
decreasing_by exact Piece.rest_length_lt c cs

/-- All tokens of a text whose first byte is at position `start`, with the one that
marks its end. -/
def lexFrom (start : Nat) (cs : List Char) : List Token :=
  Token.stream start cs ++ [.endOfInput (start + byteLength cs)]

/-- All tokens of a source. -/
def lex (source : List Char) : List Token := lexFrom 0 source

/-- Where reading from a byte position starts, and what is there to read: nothing
past the end, which is at the end, and nothing inside a character. -/
def openAt (source : List Char) (position : Nat) : Nat × List Char :=
  if byteLength source < position then (byteLength source, [])
  else (position, (dropBytes? position source).getD [])

/-- All tokens of a source from a byte position on. -/
def lexAt (source : List Char) (position : Nat) : List Token :=
  lexFrom (openAt source position).1 (openAt source position).2

/-- The token of a source at a byte position. -/
def scanAt (source : List Char) (position : Nat) : Token :=
  match openAt source position with
  | (start, []) => .endOfInput start
  | (start, c :: cs) =>
    let p := Piece.first c cs
    ⟨p.content, p.lexeme, start⟩

end SchemaLang
