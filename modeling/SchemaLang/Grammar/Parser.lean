import SchemaLang.Token.Scanner
import SchemaLang.Tree

/-!
# Reading tokens

The grammar reads the tokens of a source that are code; blanks and comments may
stand anywhere and count only for positions.  An input is what is left to read
together with the byte position that was reached.  A parser returns its result or
the reason why there is none, and in both cases the input it has come to, so that a
failure too leaves a position behind.

The tokens are scanned beforehand.  A reader that keeps only the position, and scans a
token each time it asks for one, reads the same: this is `Input.Stands.on_demand`.

## Main definitions

* `Input` — the tokens left to read, and the position reached.
* `SyntaxError` — why a source cannot be read.
* `Parser` — readers of inputs, a monad.
* `Parser.expect`, `Parser.optional`, `Parser.word`, … — reading one token.
* `Parser.many` — a reader as often as it succeeds.
* `Parser.whileNext` — a reader as long as the next token calls for it.

## References

`SPEC_FULL.md`, section 4.2: `skip_noncode`, `check`, `expect`, `optional`, `repeat`,
`expect_word`, `expect_capital`, `expect_string`.
-/

namespace SchemaLang

/-! ### Inputs -/

/-- What is left to read of a source. -/
structure Input where
  /-- The byte position reached: the end of the last token read, or the start of the
  next one if blanks have been skipped. -/
  offset : Nat
  /-- The tokens that are code and not yet read, without the one that marks the end. -/
  tokens : List Token
  /-- The number of bytes of the source. -/
  size : Nat
  deriving DecidableEq, Repr, Inhabited

namespace Input

/-- A source of which nothing has been read. -/
def ofSource (source : List Char) : Input :=
  ⟨0, (Token.stream 0 source).filter (·.category.isCode), byteLength source⟩

/-- The next token, which marks the end when nothing is left. -/
def next (i : Input) : Token := i.tokens.head?.getD (.endOfInput i.size)

/-- The input after the blanks and comments before the next token. -/
def skip (i : Input) : Input := { i with offset := i.next.start }

/-- The input after the next token; the end is never passed. -/
def advance (i : Input) : Input := { i with offset := i.next.stop, tokens := i.tokens.tail }

/-- The number of bytes left to read. -/
def left (i : Input) : Nat := i.size - i.offset

@[simp] theorem next_skip (i : Input) : i.skip.next = i.next := rfl

@[simp] theorem skip_skip (i : Input) : i.skip.skip = i.skip := rfl

@[simp] theorem advance_skip (i : Input) : i.skip.advance = i.advance := rfl

end Input

/-! ### Parsers -/

/-- Why a source cannot be read. -/
inductive SyntaxError where
  /-- A token of another kind stands where one was expected. -/
  | expecting (expected : String) (found : Token) : SyntaxError
  /-- A token that starts no statement. -/
  | unexpected (found : Token) : SyntaxError
  deriving DecidableEq, Repr, Inhabited

/-- The token an error is about. -/
def SyntaxError.found : SyntaxError → Token
  | .expecting _ t => t
  | .unexpected t => t

/-- A reader of inputs.  It says how far it has come whether or not it succeeds. -/
def Parser (α : Type) : Type := Input → Except SyntaxError α × Input

namespace Parser

variable {α β : Type}

/-- Succeeds without reading. -/
protected def pure (a : α) : Parser α := fun i => (.ok a, i)

/-- Reads one thing after the other; the first failure is final. -/
protected def bind (p : Parser α) (f : α → Parser β) : Parser β := fun i =>
  match p i with
  | (.ok a, j) => f a j
  | (.error e, j) => (.error e, j)

instance : Monad Parser where
  pure := Parser.pure
  bind := Parser.bind

theorem pure_apply (a : α) (i : Input) : (pure a : Parser α) i = (.ok a, i) := rfl

theorem bind_apply (p : Parser α) (f : α → Parser β) (i : Input) :
    (p >>= f) i = match p i with
      | (.ok a, j) => f a j
      | (.error e, j) => (.error e, j) := rfl

/-! ### Single tokens -/

/-- Skips blanks and comments. -/
def skip : Parser Unit := fun i => (.ok (), i.skip)

/-- The byte position reached; reads nothing. -/
def position : Parser Nat := fun i => (.ok i.offset, i)

/-- Whether the next token has the given category; reads nothing. -/
def check (category : Category) : Parser Bool := fun i => (.ok (i.next.category = category), i)

/-- Reads the next token if it satisfies `accept`, else fails right before it. -/
def satisfy (accept : Token → Bool) (expected : String) : Parser Token := fun i =>
  if accept i.next then (.ok i.next, i.advance)
  else (.error (.expecting expected i.next), i.skip)

/-- Reads a token of the given category. -/
def expect (category : Category) : Parser Token :=
  satisfy (fun t => t.category = category) category.name

/-- Reads a token of the given category if there is one, else nothing at all. -/
def optional (category : Category) : Parser (Option Token) := fun i =>
  match expect category i with
  | (.ok t, j) => (.ok (some t), j)
  | (.error _, _) => (.ok none, i)

/-- Reads a word that serves as a key; messages call it `expected`. -/
def word (expected : String) : Parser Ident := do
  let t ← satisfy (·.category.isWord) expected
  return ⟨t.text, t.span⟩

/-- Reads a name with a capital letter. -/
def capital : Parser Ident := do
  let t ← expect .capital
  return ⟨t.text, t.span⟩

/-- The string that a token carries. -/
def stringValue (t : Token) : String :=
  match t.content with
  | .string s => s
  | _ => ""

/-- Reads a quoted string: its value and its span. -/
def string : Parser (String × Span) := do
  let t ← expect .string
  return (stringValue t, t.span)

/-! ### Repetition -/

/-- What `p` reads one time after the other, and the input after the last success.
It ends before the first failure, or after a success that read nothing. -/
def collect (p : Parser α) (i : Input) : List α × Input :=
  match p i with
  | (.error _, _) => ([], i)
  | (.ok a, j) =>
    if j.left < i.left then
      let r := collect p j
      (a :: r.1, r.2)
    else ([a], j)
termination_by i.left

/-- Reads with `p` as often as it succeeds; what a failed attempt read is given back. -/
def many (p : Parser α) : Parser (List α) := fun i =>
  let r := collect p i
  (.ok r.1, r.2)

/-- Reads with `p` as long as the next token has an accepted category; a failure of `p`
is final. -/
def whileNext (accept : Category → Bool) (p : Parser α) : Parser (List α) := fun i =>
  if accept i.next.category then
    match p i with
    | (.error e, j) => (.error e, j)
    | (.ok a, j) =>
      if j.left < i.left then
        match whileNext accept p j with
        | (.error e, k) => (.error e, k)
        | (.ok as, k) => (.ok (a :: as), k)
      else (.ok [a], j)
  else (.ok [], i)
termination_by i => i.left

end Parser

end SchemaLang
