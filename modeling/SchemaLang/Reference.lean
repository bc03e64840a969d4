/-!
# References in strings

Before references are resolved, a reference to `Name` is the string `${Name}`.  A
string that was written out and would look like one has a dollar sign put in front,
so that the two never meet, and loses it again when references are resolved.

## Main definitions

* `placeholder`, `referenceName?` — references as strings, and back.
* `escape`, `unescape` — strings that were written out, and back.

## References

`SPEC_FULL.md`, section 12, item 5: `placeholder`, `reference_name`, `escape_literal`,
`unescape_literal`.
-/

namespace SchemaLang

/-- A reference as a string. -/
def placeholder (name : String) : String := "$\x7b" ++ name ++ "\x7d"

/-- The name between the marks of a reference, which is not empty. -/
def referenceChars? : List Char → Option (List Char)
  | '$' :: '{' :: cs =>
    if cs.getLast? = some '}' ∧ cs.dropLast ≠ [] then some cs.dropLast else none
  | _ => none

/-- The name of the reference that a string is, if it is one. -/
def referenceName? (s : String) : Option String := (referenceChars? s.toList).map String.ofList

/-- Whether a text starts with dollar signs and a brace after them. -/
def isDollarBrace (cs : List Char) : Bool :=
  cs.head? == some '$' && (cs.dropWhile (· == '$')).head? == some '{'

/-- Puts a dollar sign in front of what could look like a reference. -/
def escapeChars (cs : List Char) : List Char := if isDollarBrace cs then '$' :: cs else cs

/-- Takes that dollar sign away. -/
def unescapeChars : List Char → List Char
  | '$' :: cs => if isDollarBrace cs then cs else '$' :: cs
  | cs => cs

/-- A string that was written out, as it stands among references. -/
def escape (s : String) : String := String.ofList (escapeChars s.toList)

/-- A string among references, as it was written out. -/
def unescape (s : String) : String := String.ofList (unescapeChars s.toList)

end SchemaLang
