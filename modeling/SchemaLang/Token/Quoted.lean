/-!
# Quoted strings

The text between two double quotes.  A backslash before a double quote, a
backslash, or one of the letters `n`, `r`, `t` stands for one character; before any
other character it stands for itself, and that character is kept too.

## Main definitions

* `Quoted.unescape` — what a backslash and the character after it stand for.
* `Quoted.read?` — value, raw text and rest of a string after its opening quote.

## References

`SPEC_FULL.md`, section 4.1, and section 11, string escapes: `read_string`.
-/

namespace SchemaLang

/-- A string read up to and with its closing quote. -/
structure Quoted where
  /-- The characters the string stands for. -/
  value : List Char
  /-- The characters as written, with the closing quote. -/
  raw : List Char
  /-- What follows the closing quote. -/
  rest : List Char
  deriving DecidableEq, Repr, Inhabited

namespace Quoted

/-- What a backslash followed by `c` stands for. -/
def unescape (c : Char) : List Char :=
  match c with
  | '"' => ['"']
  | '\\' => ['\\']
  | 'n' => ['\n']
  | 'r' => ['\r']
  | 't' => ['\t']
  | c => ['\\', c]

/-- The string with one more unit in front: `raw` as written, `value` as meant. -/
def push (value raw : List Char) (q : Quoted) : Quoted :=
  ⟨value ++ q.value, raw ++ q.raw, q.rest⟩

/-- Reads a string after its opening quote; `none` when it is never closed. -/
def read? : List Char → Option Quoted
  | [] => none
  | '"' :: cs => some ⟨[], ['"'], cs⟩
  | ['\\'] => none
  | '\\' :: c :: cs => (read? cs).map (push (unescape c) ['\\', c])
  | c :: cs => (read? cs).map (push [c] [c])

/-- Nothing is lost: the raw text and the rest make up what was read. -/
theorem raw_append_rest {cs : List Char} {q : Quoted} (h : read? cs = some q) :
    q.raw ++ q.rest = cs := by
  fun_induction read? cs generalizing q with
  | case1 => simp at h
  | case2 cs => cases h; rfl
  | case3 => simp at h
  | case4 c cs ih =>
    obtain ⟨p, hp, rfl⟩ := Option.map_eq_some_iff.1 h
    simp [push, ih hp]
  | case5 c cs _ _ _ ih =>
    obtain ⟨p, hp, rfl⟩ := Option.map_eq_some_iff.1 h
    simp [push, ih hp]

end Quoted

end SchemaLang
