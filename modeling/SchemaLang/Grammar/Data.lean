import SchemaLang.Grammar.Parser

/-!
# The grammar of data

    Data        ::= Object | Array | Environment | Scalar | Reference
    Scalar      ::= String | Number | Boolean | "null"
    Object      ::= "{" { Word Data } "}"
    Array       ::= "[" { Data } "]"
    Environment ::= "env" "(" String ")"
    Reference   ::= Capital

Objects and arrays hold data again.  Each level of nesting reads a token, so the
number of tokens left bounds the nesting, and `data` reads with that bound.

## Main definitions

* `Grammar.scalar`, `Grammar.environment`, `Grammar.reference` — data without parts.
* `Grammar.objectOf`, `Grammar.arrayOf` — data made of parts.
* `Grammar.data`, `Grammar.object`, `Grammar.array` — the grammar.

## References

`SPEC_FULL.md`, section 4.2, the generic literal grammar, and section 11, null and environment
literals: `parse_data`, `parse_scalar`, `parse_object`, `parse_array`, `parse_environment`.
-/

namespace SchemaLang

namespace Grammar

open SchemaLang.Parser

/-- The literal that a token carries. -/
def literal? : Content → Option Literal
  | .string s => some (.string s)
  | .integer n => some (.integer n)
  | .float x => some (.float x)
  | .keyword (.boolean b) => some (.boolean b)
  | .keyword .null => some .null
  | _ => none

/-- Reads a value of one token. -/
def scalar : Parser Data := fun i =>
  match literal? i.next.content with
  | some v => (.ok (.literal v i.next.span), i.advance)
  | none => (.error (.expecting "a value" i.next), i.skip)

/-- Reads the name of another declaration. -/
def reference : Parser Data := do
  let id ← capital
  return .reference id

/-- Reads the name of an environment variable. -/
def environment : Parser Data := do
  let keyword ← expect .identifier
  let _ ← expect (.punct .openParen)
  let name ← string
  let close ← expect (.punct .closeParen)
  return .environment name.1 ⟨keyword.start, close.stop⟩

/-- Reads a key, which messages call `expected`, and its value. -/
def property (expected : String) (value : Parser Data) : Parser Property := do
  let key ← word expected
  let value ← value
  return (key, value)

/-- Reads properties in braces. -/
def blockOf (entry : Parser Property) : Parser Block := do
  let opening ← expect (.punct .openBrace)
  let properties ← many entry
  let closing ← expect (.punct .closeBrace)
  return ⟨properties, ⟨opening.start, closing.stop⟩⟩

/-- Reads an object whose values are read by `item`. -/
def objectOf (item : Parser Data) : Parser Block := blockOf (property "a property key" item)

/-- Reads an array whose elements are read by `item`. -/
def arrayOf (item : Parser Data) : Parser Data := do
  let opening ← expect (.punct .openBracket)
  let elements ← many item
  let closing ← expect (.punct .closeBracket)
  return .array elements ⟨opening.start, closing.stop⟩

/-- Reads data whose parts are read by `item`; the next token tells which form it has. -/
def dataOf (item : Parser Data) : Parser Data := fun i =>
  match i.next.content with
  | .punct .openBrace => (do return (← objectOf item).toData : Parser Data) i
  | .punct .openBracket => arrayOf item i
  | .identifier name => if name = "env" then environment i else scalar i
  | .capital _ => reference i
  | _ => scalar i

/-- Reads data that is nested at most `depth` deep. -/
def dataWithin : Nat → Parser Data
  | 0 => scalar
  | depth + 1 => dataOf (dataWithin depth)

/-- Reads data. -/
def data : Parser Data := fun i => dataWithin (i.tokens.length + 1) i

/-- Reads an object. -/
def object : Parser Block := objectOf data

/-- Reads an array. -/
def array : Parser Data := arrayOf data

end Grammar

end SchemaLang
