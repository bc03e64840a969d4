import SchemaLang.Json.Reader
import SchemaLang.Json.Writer

/-!
# Writing and reading JSON

What is written as JSON is read again by a library.  All that is asked of it is here: it writes a
value in two forms, it reads a text, and it tells what a part of a text stands for.  A text is
taken apart as far as a record asks for, members or elements first and values last, so that a part
no record asks for need not stand for anything.

`Json.standard` is the library that comes with this one.

## Main definitions

* `Json.Form` — members by name, or elements by place.
* `Json.Codec` — a library that writes and reads JSON.
* `Json.standard` — the writer and the reader of this library.

## References

`SPEC_FULL.md`, section 10.4: what `to_json` and the round trip of configurations ask for.
-/

namespace SchemaLang

namespace Json

/-! ### Parts -/

/-- The parts of an object or an array. -/
inductive Form (α : Type) where
  /-- Members by name; a name may repeat. -/
  | named (members : List (String × α)) : Form α
  /-- Elements by place. -/
  | placed (elements : List α) : Form α
  deriving Repr, Inhabited

namespace Form

variable {α β : Type}

/-- The part with a name, or at a place, read by `f`; `missing` when it does not stand
there, and nothing when a name stands twice. -/
def part? (form : Form α) (name : String) (place : Nat) (missing : β) (f : α → Option β) :
    Option β :=
  match form with
  | .named ms =>
    match ms.filter (·.1 == name) with
    | [] => some missing
    | [m] => f m.2
    | _ => none
  | .placed xs =>
    match xs[place]? with
    | some x => f x
    | none => some missing

/-- Whether all places are known. -/
def fits (form : Form α) (places : Nat) : Bool :=
  match form with
  | .named _ => true
  | .placed xs => xs.length ≤ places

end Form

/-! ### Codecs -/

/-- A library that writes values as JSON, and reads texts. -/
structure Codec where
  /-- What is read of a text, before it is asked what it stands for. -/
  Tree : Type
  /-- The text of a value, without blanks. -/
  compact : Value → List Char
  /-- The text of a value on lines of their own. -/
  pretty : Value → List Char
  /-- Reads a whole text. -/
  read? : List Char → Option Tree
  /-- The members of an object, or the elements of an array. -/
  form? : Tree → Option (Form Tree)
  /-- The string that a part stands for, if it is one. -/
  string? : Tree → Option String
  /-- The value that a part stands for, when so many arrays and objects are around it. -/
  value? : Nat → Tree → Option Value

/-! ### The codec of this library -/

/-- The parts of a text. -/
def formOf? : Raw → Option (Form Raw)
  | .object ms => (ms.mapM fun m => (string? m.1).map (·, m.2)).map .named
  | .array xs => some (.placed xs)
  | _ => none

/-- The string of a text, if it is one. -/
def stringOf? : Raw → Option String
  | .string ps => string? ps
  | _ => none

/-- The writer and the reader of this library, with its limit of nesting. -/
def standard : Codec where
  Tree := Raw
  compact := compact
  pretty := pretty
  read? := read?
  form? := formOf?
  string? := stringOf?
  value? inside := Raw.valueWithin? (mostNesting - inside)

end Json

end SchemaLang
