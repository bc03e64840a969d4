import SchemaLang.Grammar.Data

/-!
# The grammar of schemas

    Schema    ::= { Use | Declaration }
    Use       ::= "use" String
    Enum      ::= "enum" Capital [ "!" ] "{" { Word Scalar } "}"
    Prop      ::= "prop" Capital [ "!" ] Object
    Type      ::= "type" Capital [ "!" ] { Attribute } "{" { Column } "}"
    Model     ::= "model" Capital [ "!" ] { Attribute } "{" { Column } "}"
    Plugin    ::= "plugin" String Object
    Attribute ::= "@" Word { "." Word } [ "(" { Data } ")" ]
    Column    ::= Word Capital [ "[" "]" ] [ "?" ] { Attribute }

Attributes and columns are kept as properties.  An attribute without arguments has
the value `true`, one with arguments has their array.  A column is an object of two
properties: `type`, the name of its type followed by the marks it carries, and
`attributes`.

## Main definitions

* `Grammar.attributeEntry`, `Grammar.column` — the parts of types and models.
* `Grammar.declaration` — a declaration of a given kind.
* `Grammar.schema` — a whole source.

## References

`SPEC_FULL.md`, section 4.3, and section 11, column modifiers: `parse_schema`, `parse_use`,
`parse_enum`, `parse_prop`, `parse_type`, `parse_model`, `parse_plugin`, `parse_attribute`,
`parse_column`.
-/

namespace SchemaLang

namespace Grammar

open SchemaLang.Parser

/-! ### Attributes -/

/-- Reads the further words of an attribute name, each after a dot. -/
def furtherWords : Parser (List Ident) :=
  whileNext (· = .punct .dot) do
    let _ ← expect (.punct .dot)
    word "an attribute name"

/-- A name made of words with dots between them. -/
def dottedName (first : Ident) (further : List Ident) : String :=
  further.foldl (fun name segment => name ++ "." ++ segment.name) first.name

/-- Reads the arguments of an attribute up to the closing mark; `opening` is the one
before them. -/
def arguments (opening : Token) : Parser Data := do
  let elements ← many data
  let closing ← expect (.punct .closeParen)
  return .array elements ⟨opening.start, closing.stop⟩

/-- Reads an attribute. -/
def attributeEntry : Parser Property := do
  let mark ← expect (.punct .at)
  let first ← word "an attribute name"
  let further ← furtherWords
  let span : Span := ⟨mark.start, (further.getLastD first).span.stop⟩
  let value ← do
    match ← optional (.punct .openParen) with
    | some opening => arguments opening
    | none => pure (Data.literal (.boolean true) span)
  return (⟨dottedName first further, span⟩, value)

/-- The span of attributes that were read from byte position `start` on: from the first
to the last, and empty when there are none. -/
def attributesSpan (start : Nat) (attributes : List Property) : Span :=
  match attributes.head?, attributes.getLast? with
  | some first, some last => ⟨first.1.span.start, last.2.span.stop⟩
  | _, _ => ⟨start, start⟩

/-- Reads all attributes that follow. -/
def attributeList : Parser Block := fun i =>
  (do
    let properties ← many attributeEntry
    return ⟨properties, attributesSpan i.offset properties⟩ : Parser Block) i

/-! ### Columns -/

/-- Reads the brackets of a column of many values: the text they add to the type, and
where the type ends then. -/
def brackets (stop : Nat) : Parser (String × Nat) := do
  match ← optional (.punct .openBracket) with
  | some _ =>
    let closing ← expect (.punct .closeBracket)
    return ("[]", closing.stop)
  | none => return ("", stop)

/-- Reads the mark of an optional column, likewise. -/
def questionMark (stop : Nat) : Parser (String × Nat) := do
  match ← optional (.punct .question) with
  | some mark => return ("?", mark.stop)
  | none => return ("", stop)

/-- The property that a column is kept as. -/
def columnProperty (key : Ident) (typeName : String) (typeSpan : Span) (attributes : Block) :
    Property :=
  (key, .object
    [(⟨"type", typeSpan⟩, .literal (.string typeName) typeSpan),
     (⟨"attributes", attributes.span⟩, attributes.toData)]
    ⟨key.span.start, max attributes.span.stop typeSpan.stop⟩)

/-- Reads a column. -/
def column : Parser Property := do
  let key ← word "a column name"
  let type ← capital
  let multiple ← brackets type.span.stop
  let optional ← questionMark multiple.2
  let attributes ← attributeList
  return columnProperty key (type.name ++ multiple.1 ++ optional.1)
    ⟨type.span.start, optional.2⟩ attributes

/-! ### Declarations -/

/-- Reads the exclamation mark of a declaration that does not merge; whether it merges. -/
def mergeMark : Parser Bool := do
  let mark ← optional (.punct .bang)
  return mark.isNone

/-- Reads the word that starts declarations of a kind. -/
def keyword (kind : Kind) : Parser Token := expect (.keyword (.declare kind))

/-- Reads a declaration of named constants. -/
def enumeration : Parser Declaration := do
  let start ← keyword .enum
  let id ← capital
  let mergeable ← mergeMark
  let init ← blockOf (property "an enum key" scalar)
  return ⟨.enum, mergeable, id, init, ⟨start.start, init.span.stop⟩⟩

/-- Reads a declaration of a reusable object. -/
def prop : Parser Declaration := do
  let start ← keyword .prop
  let id ← capital
  let mergeable ← mergeMark
  let init ← object
  return ⟨.prop, mergeable, id, init, ⟨start.start, init.span.stop⟩⟩

/-- Reads a declaration of settings for an extension, which always merges. -/
def plugin : Parser Declaration := do
  let start ← keyword .plugin
  let path ← string
  let init ← object
  return ⟨.plugin, true, ⟨path.1, path.2⟩, init, ⟨start.start, init.span.stop⟩⟩

/-- The block that a type or a model is kept as. -/
def columnedBlock (id : Ident) (attributes columns : Block) : Block :=
  ⟨[(⟨"attributes", attributes.span⟩, attributes.toData),
    (⟨"columns", columns.span⟩, columns.toData)],
   ⟨id.span.start, columns.span.stop⟩⟩

/-- Reads a declaration of columns. -/
def columned (kind : Kind) : Parser Declaration := do
  let start ← keyword kind
  let id ← capital
  let mergeable ← mergeMark
  let attributes ← attributeList
  let columns ← blockOf column
  return ⟨kind, mergeable, id, columnedBlock id attributes columns,
    ⟨start.start, columns.span.stop⟩⟩

/-- Reads a declaration of the given kind. -/
def declaration : Kind → Parser Declaration
  | .enum => enumeration
  | .prop => prop
  | .type => columned .type
  | .model => columned .model
  | .plugin => plugin

/-! ### Sources -/

/-- Reads a request for another source. -/
def use : Parser Use := do
  let start ← expect (.keyword .use)
  let path ← string
  return ⟨.string path.1, path.2, ⟨start.start, path.2.stop⟩⟩

/-- Reads a statement; the next token tells which. -/
def node : Parser Node := fun i =>
  match i.next.content with
  | .keyword .use => (do return .use (← use) : Parser Node) i
  | .keyword (.declare kind) => (do return .declaration (← declaration kind) : Parser Node) i
  | _ => (.error (.unexpected i.next), i.skip)

/-- Reads statements up to the end. -/
def schema : Parser Schema := do
  let start ← position
  let body ← whileNext (· ≠ .endOfInput) node
  skip
  let stop ← position
  return ⟨body, ⟨start, stop⟩⟩

end Grammar

/-- Reads a source. -/
def parseSchema (source : List Char) : Except SyntaxError Schema :=
  (Grammar.schema (Input.ofSource source)).1

end SchemaLang
