import SchemaLang.Kind
import SchemaLang.Number.Binary64
import SchemaLang.Text.Span

/-!
# Tokens

A source text is cut into tokens.  A token has a content, which says what was
read and carries its value, and a lexeme, the very characters it was read from.
The category of a content forgets the value; it is what the grammar asks for.

## Main definitions

* `Keyword`, `Punct` — reserved words and punctuation.
* `Content`, `Category` — what a token is, with and without what it carries.
* `Token` — a content with its lexeme and its place.

## References

`SPEC_FULL.md`, section 4.1, the named patterns: `TokenType` with `is_noncode`, `is_word` and
`same_kind`, and `Token`.
-/

namespace SchemaLang

/-! ### Reserved words and punctuation -/

/-- A reserved word. -/
inductive Keyword where
  /-- The word `true` or `false`. -/
  | boolean (value : Bool) : Keyword
  /-- The word `null`. -/
  | null : Keyword
  /-- The word that starts declarations of a kind. -/
  | declare (kind : Kind) : Keyword
  /-- The word `use`. -/
  | use : Keyword
  deriving DecidableEq, Repr, Inhabited

namespace Keyword

/-- The spelling of a reserved word. -/
def text : Keyword → String
  | .boolean true => "true"
  | .boolean false => "false"
  | .null => "null"
  | .declare k => k.sectionName
  | .use => "use"

/-- All reserved words. -/
def all : List Keyword :=
  [.boolean true, .boolean false, .null] ++ Kind.all.map .declare ++ [.use]

/-- The reserved word with the given spelling. -/
def ofText? (s : String) : Option Keyword := all.find? (·.text == s)

/-- The word as a message names what it expects; the two truth values share a name. -/
def name : Keyword → String
  | .boolean _ => "Boolean"
  | k => k.text

end Keyword

/-- A punctuation mark. -/
inductive Punct where
  /-- The mark that opens a block. -/
  | openBrace : Punct
  /-- The mark that closes a block. -/
  | closeBrace : Punct
  /-- The mark that opens an array. -/
  | openBracket : Punct
  /-- The mark that closes an array. -/
  | closeBracket : Punct
  /-- The mark that opens arguments. -/
  | openParen : Punct
  /-- The mark that closes arguments. -/
  | closeParen : Punct
  /-- The mark of a declaration that does not merge. -/
  | bang : Punct
  /-- The mark that starts an attribute. -/
  | at : Punct
  /-- The mark between the words of an attribute name. -/
  | dot : Punct
  /-- The mark of an optional column. -/
  | question : Punct
  deriving DecidableEq, Repr, Inhabited

namespace Punct

/-- The character of a mark. -/
def char : Punct → Char
  | .openBrace => '{'
  | .closeBrace => '}'
  | .openBracket => '['
  | .closeBracket => ']'
  | .openParen => '('
  | .closeParen => ')'
  | .bang => '!'
  | .at => '@'
  | .dot => '.'
  | .question => '?'

/-- All marks. -/
def all : List Punct :=
  [.openBrace, .closeBrace, .openBracket, .closeBracket, .openParen, .closeParen, .bang, .at, .dot,
   .question]

/-- The mark with the given character. -/
def ofChar? (c : Char) : Option Punct := all.find? (·.char == c)

@[simp] theorem ofChar?_char (p : Punct) : ofChar? p.char = some p := by
  cases p <;> rfl

end Punct

/-! ### Contents and categories -/

/-- What a token is. -/
inductive Category where
  /-- The end of the text. -/
  | endOfInput : Category
  /-- A run of blanks. -/
  | blank : Category
  /-- A comment up to the end of its line. -/
  | lineComment : Category
  /-- A comment between `/*` and `*/`. -/
  | blockComment : Category
  /-- What is no token of the language, such as a string that is never closed. -/
  | unknown : Category
  /-- A name that does not start with a capital letter. -/
  | identifier : Category
  /-- A name that starts with a capital letter. -/
  | capital : Category
  /-- A quoted string. -/
  | string : Category
  /-- A number without a fraction, of at most 64 bits. -/
  | integer : Category
  /-- Any other number. -/
  | float : Category
  /-- A reserved word. -/
  | keyword (word : Keyword) : Category
  /-- A punctuation mark. -/
  | punct (mark : Punct) : Category
  deriving DecidableEq, Repr, Inhabited

namespace Category

/-- The category as a message names what it expects. -/
def name : Category → String
  | .endOfInput => "end of input"
  | .blank => "whitespace"
  | .lineComment | .blockComment => "comment"
  | .unknown => "unknown token"
  | .identifier => "Identifier"
  | .capital => "CapitalIdentifier"
  | .string => "String"
  | .integer | .float => "Number"
  | .keyword k => k.name
  | .punct p => String.singleton p.char

/-- Whether the grammar sees such tokens: blanks and comments stand anywhere. -/
def isCode : Category → Bool
  | .blank | .lineComment | .blockComment => false
  | _ => true

/-- Whether such a token may be a key.  Reserved words may, so that a column can be
called `type`. -/
def isWord : Category → Bool
  | .identifier | .capital | .keyword _ => true
  | _ => false

end Category

/-- What a token is, with the value it carries. -/
inductive Content where
  /-- The end of the text. -/
  | endOfInput : Content
  /-- A run of blanks. -/
  | blank : Content
  /-- A comment up to the end of its line, trimmed. -/
  | lineComment (text : String) : Content
  /-- A comment between `/*` and `*/`, trimmed. -/
  | blockComment (text : String) : Content
  /-- What is no token of the language. -/
  | unknown : Content
  /-- A name that does not start with a capital letter. -/
  | identifier (name : String) : Content
  /-- A name that starts with a capital letter. -/
  | capital (name : String) : Content
  /-- A quoted string, escapes decoded. -/
  | string (value : String) : Content
  /-- A number without a fraction, of at most 64 bits. -/
  | integer (value : Int) : Content
  /-- Any other number. -/
  | float (value : Binary64) : Content
  /-- A reserved word. -/
  | keyword (word : Keyword) : Content
  /-- A punctuation mark. -/
  | punct (mark : Punct) : Content
  deriving DecidableEq, Repr, Inhabited

/-- The category of a content. -/
def Content.category : Content → Category
  | .endOfInput => .endOfInput
  | .blank => .blank
  | .lineComment _ => .lineComment
  | .blockComment _ => .blockComment
  | .unknown => .unknown
  | .identifier _ => .identifier
  | .capital _ => .capital
  | .string _ => .string
  | .integer _ => .integer
  | .float _ => .float
  | .keyword k => .keyword k
  | .punct p => .punct p

/-! ### Tokens -/

/-- A token: what was read, from which characters, and from which byte on. -/
structure Token where
  /-- What was read. -/
  content : Content
  /-- The characters it was read from. -/
  lexeme : List Char
  /-- The byte position of the first character. -/
  start : Nat
  deriving DecidableEq, Repr, Inhabited

namespace Token

/-- The token that ends a text of `size` bytes. -/
def endOfInput (size : Nat) : Token := ⟨.endOfInput, [], size⟩

/-- The byte position after the last character. -/
def stop (t : Token) : Nat := t.start + byteLength t.lexeme

/-- The bytes of the token. -/
def span (t : Token) : Span := ⟨t.start, t.stop⟩

/-- The category of the content. -/
def category (t : Token) : Category := t.content.category

/-- The lexeme as a string. -/
def text (t : Token) : String := String.ofList t.lexeme

/-- The token as a message names what it found. -/
def describe (t : Token) : String :=
  match t.content with
  | .endOfInput => "end of input"
  | _ => t.text

/-- The same token `n` bytes further on. -/
def shift (n : Nat) (t : Token) : Token := { t with start := t.start + n }

@[simp] theorem endOfInput_start (n : Nat) : (endOfInput n).start = n := rfl

@[simp] theorem endOfInput_stop (n : Nat) : (endOfInput n).stop = n := rfl

@[simp] theorem endOfInput_category (n : Nat) : (endOfInput n).category = .endOfInput := rfl

end Token

end SchemaLang
