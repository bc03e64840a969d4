import SchemaLang.Kind
import SchemaLang.Number.Binary64
import SchemaLang.Text.Span

/-!
# Syntax trees

What the grammar reads, with the span of every part.

## Main definitions

* `Literal`, `Data`, `Block` — values as written.
* `Declaration`, `Use`, `Node`, `Schema` — statements and the sources they make up.
* `Block.get?` — the first property with a name.

## References

`SPEC_FULL.md`, section 3: `LiteralToken`, `ArrayToken`, `ObjectToken`, `DeclarationToken`,
`ImportToken`, `SchemaToken`, with `get`, `span`, `declarations` and `imports`.
-/

namespace SchemaLang

/-- A name and where it stands. -/
structure Ident where
  /-- The name. -/
  name : String
  /-- Where it stands. -/
  span : Span
  deriving DecidableEq, Repr, Inhabited

/-- A value written out in one token. -/
inductive Literal where
  /-- A string, escapes decoded. -/
  | string (value : String) : Literal
  /-- An integer of 64 bits. -/
  | integer (value : Int) : Literal
  /-- Any other number. -/
  | float (value : Binary64) : Literal
  /-- A truth value. -/
  | boolean (value : Bool) : Literal
  /-- The absent value. -/
  | null : Literal
  deriving DecidableEq, Repr, Inhabited

/-- Any value the grammar of data reads. -/
inductive Data where
  /-- A value written out. -/
  | literal (value : Literal) (span : Span) : Data
  /-- The content of an environment variable. -/
  | environment (name : String) (span : Span) : Data
  /-- Properties in braces; a name may repeat. -/
  | object (properties : List (Ident × Data)) (span : Span) : Data
  /-- Values in brackets. -/
  | array (elements : List Data) (span : Span) : Data
  /-- The value of another declaration. -/
  | reference (id : Ident) : Data
  deriving Repr, Inhabited

/-- A name with its value. -/
abbrev Property := Ident × Data

/-- The span of a value. -/
def Data.span : Data → Span
  | .literal _ s => s
  | .environment _ s => s
  | .object _ s => s
  | .array _ s => s
  | .reference id => id.span

/-- Properties in braces. -/
structure Block where
  /-- The properties as written. -/
  properties : List Property
  /-- The braces and all between them. -/
  span : Span
  deriving Repr, Inhabited

namespace Block

/-- The block as a value. -/
def toData (b : Block) : Data := .object b.properties b.span

/-- The value of the first property with a name. -/
def get? (b : Block) (name : String) : Option Data :=
  (b.properties.find? (·.1.name == name)).map (·.2)

@[simp] theorem toData_span (b : Block) : b.toData.span = b.span := rfl

end Block

/-- A declaration of any kind.  The properties of its block depend on the kind: a
type or a model has the two properties `attributes` and `columns`, both objects,
every other kind has what was written. -/
structure Declaration where
  /-- What is declared. -/
  kind : Kind
  /-- Whether it merges with others of its name; an exclamation mark forbids it. -/
  mergeable : Bool
  /-- The declared name, for a plugin its path. -/
  id : Ident
  /-- What is declared about it. -/
  init : Block
  /-- The whole declaration. -/
  span : Span
  deriving Repr, Inhabited

/-- A statement that asks for the declarations of another source. -/
structure Use where
  /-- The path; a string in all that is read from a text. -/
  path : Literal
  /-- Where the path stands. -/
  pathSpan : Span
  /-- The whole statement. -/
  span : Span
  deriving DecidableEq, Repr, Inhabited

/-- A statement. -/
inductive Node where
  /-- A request for another source. -/
  | use (statement : Use) : Node
  /-- A declaration. -/
  | declaration (statement : Declaration) : Node
  /-- A whole source in the place of a statement; never read from a text. -/
  | schema (body : List Node) (span : Span) : Node
  deriving Repr, Inhabited

/-- The span of a statement. -/
def Node.span : Node → Span
  | .use u => u.span
  | .declaration d => d.span
  | .schema _ s => s

/-- A source: its statements in order. -/
structure Schema where
  /-- The statements. -/
  body : List Node
  /-- The whole source. -/
  span : Span
  deriving Repr, Inhabited

namespace Schema

/-- The source as a statement. -/
def toNode (s : Schema) : Node := .schema s.body s.span

/-- The declarations in order. -/
def declarations (s : Schema) : List Declaration :=
  s.body.filterMap fun
    | .declaration d => some d
    | _ => none

theorem mem_declarations_iff {s : Schema} {d : Declaration} :
    d ∈ s.declarations ↔ .declaration d ∈ s.body := by
  rw [declarations, List.mem_filterMap]
  constructor
  · rintro ⟨n, hn, hd⟩
    cases n with
    | declaration e =>
      cases hd
      exact hn
    | use u => cases hd
    | schema body span => cases hd
  · intro hd
    exact ⟨_, hd, rfl⟩

/-- The statements that ask for other sources, in order. -/
def uses (s : Schema) : List Use :=
  s.body.filterMap fun
    | .use u => some u
    | _ => none

end Schema

end SchemaLang
