import SchemaLang.Grammar.Parser

/-!
# Errors

Every failure is a cause: a value that says what is wrong and where.  What a person
is told about it is computed from the cause.

## Main definitions

* `CompileError`, `ImportError`, `Error` — the causes.
* `Error.message`, `Error.code`, `Error.help?`, `Error.label` — the wording.
* `Error.span?`, `Error.location?` — the place.

## References

`SPEC_FULL.md`, sections 7 and 10.1: `ParserError`, `CompilerError`, `ImportError` and `IdeaError`
with `span` and `location`.
-/

namespace SchemaLang

/-! ### Causes -/

/-- Why a tree has no configuration, or a configuration no final form. -/
inductive CompileError where
  /-- A statement stands for a source, or a source for a statement. -/
  | invalidSchema (span : Span) : CompileError
  /-- A declaration of another kind than the one asked for. -/
  | invalidDeclaration (kind : Kind) (span : Span) : CompileError
  /-- A statement that asks for no source, or not by a string. -/
  | invalidImport (span : Span) : CompileError
  /-- A column, or attributes, of the wrong form. -/
  | invalidColumn (name : String) (span : Span) : CompileError
  /-- A type or model without columns. -/
  | missingColumns (span : Span) : CompileError
  /-- A reference to nothing. -/
  | unknownReference (name : String) (span : Option Span) : CompileError
  /-- Two things of one name that do not go together. -/
  | duplicate (name : String) (span : Option Span) : CompileError
  /-- References that lead back to where they started. -/
  | circularReference (chain : List String) : CompileError
  deriving DecidableEq, Repr, Inhabited

/-- Why the sources that are asked for cannot be put in. -/
inductive ImportError where
  /-- There is no source for the path. -/
  | notFound (path : String) (span : Span) : ImportError
  /-- Sources that ask for each other. -/
  | circular (chain : List String) (span : Span) : ImportError
  deriving DecidableEq, Repr, Inhabited

/-- Why a source has no result. -/
inductive Error where
  /-- The source, or one it asks for, cannot be read; `unit` is its name. -/
  | parse (unit : String) (cause : SyntaxError) : Error
  /-- The tree has no configuration. -/
  | compile (cause : CompileError) : Error
  /-- Another source cannot be put in. -/
  | expand (cause : ImportError) : Error
  deriving DecidableEq, Repr, Inhabited

/-- A chain of names as messages write it. -/
def chainText (chain : List String) : String := String.intercalate " -> " chain

/-! ### Syntax errors -/

namespace SyntaxError

/-- What is wrong. -/
def message : SyntaxError → String
  | .expecting expected t => "Expecting " ++ expected ++ ", got " ++ t.describe
  | .unexpected t => "Unexpected token " ++ t.describe

/-- The name of the cause. -/
def code : SyntaxError → String
  | .expecting .. => "idea::parser::expecting"
  | .unexpected _ => "idea::parser::unexpected_token"

/-- What to do about it. -/
def help : SyntaxError → String
  | .expecting .. =>
    "The schema ended or continued with something the grammar does not allow here."
  | .unexpected _ =>
    "A schema is a sequence of `use` statements and enum, prop, type, model or plugin declarations."

/-- What to write at the place. -/
def label : SyntaxError → String
  | .expecting expected _ => "Expected " ++ expected ++ " here"
  | .unexpected _ => "This does not start a declaration"

end SyntaxError

/-! ### Compile errors -/

namespace CompileError

/-- What is wrong. -/
def message : CompileError → String
  | .invalidSchema _ => "Invalid Schema"
  | .invalidDeclaration kind _ => "Invalid " ++ kind.title
  | .invalidImport _ => "Invalid Import"
  | .invalidColumn name _ => "Invalid Column " ++ name
  | .missingColumns _ => "Expecting a columns property"
  | .unknownReference name _ => "Unknown reference " ++ name
  | .duplicate name _ => "Duplicate " ++ name
  | .circularReference chain => "Circular reference " ++ chainText chain

/-- The name of the cause. -/
def code : CompileError → String
  | .invalidSchema _ => "idea::compiler::invalid_schema"
  | .invalidDeclaration .. => "idea::compiler::invalid_declaration"
  | .invalidImport _ => "idea::compiler::invalid_import"
  | .invalidColumn .. => "idea::compiler::invalid_column"
  | .missingColumns _ => "idea::compiler::missing_columns"
  | .unknownReference .. => "idea::compiler::unknown_reference"
  | .duplicate .. => "idea::compiler::duplicate"
  | .circularReference _ => "idea::compiler::circular_reference"

/-- What to do about it. -/
def help? : CompileError → Option String
  | .invalidSchema _ => none
  | .invalidDeclaration .. => some "The declaration was handed to the compiler for a different kind."
  | .invalidImport _ => none
  | .invalidColumn .. =>
    some "A column needs a string `type` and an optional `attributes` object."
  | .missingColumns _ => some "Types and models must declare their columns between braces."
  | .unknownReference .. =>
    some "References must name a prop, enum or type declared in the schema or its imports."
  | .duplicate .. =>
    some ("Mark one declaration with `!` to replace the other, " ++
      "or remove the conflicting definition.")
  | .circularReference _ => none

/-- What to write at the place. -/
def label : CompileError → String
  | .invalidSchema _ => "Expected a schema here"
  | .invalidDeclaration kind _ => "Not a " ++ kind.title ++ " declaration"
  | .invalidImport _ => "Expected a `use` statement with a string path"
  | .invalidColumn .. => "Malformed column"
  | .missingColumns _ => "This declaration has no columns"
  | .unknownReference .. => "Referenced here"
  | .duplicate .. => "Conflicting declaration"
  | .circularReference _ => "Reference cycle starts here"

/-- The place, where it is known. -/
def span? : CompileError → Option Span
  | .invalidSchema s => some s
  | .invalidDeclaration _ s => some s
  | .invalidImport s => some s
  | .invalidColumn _ s => some s
  | .missingColumns s => some s
  | .unknownReference _ s => s
  | .duplicate _ s => s
  | .circularReference _ => none

end CompileError

/-! ### Import errors -/

namespace ImportError

/-- What is wrong. -/
def message : ImportError → String
  | .notFound path _ => "Unknown import " ++ path
  | .circular chain _ => "Circular import " ++ chainText chain

/-- The name of the cause. -/
def code : ImportError → String
  | .notFound .. => "idea::import::not_found"
  | .circular .. => "idea::import::circular"

/-- What to do about it. -/
def help? : ImportError → Option String
  | .notFound .. => some "The loader did not supply source text for this path."
  | .circular .. => none

/-- What to write at the place. -/
def label : ImportError → String
  | .notFound .. => "Imported here"
  | .circular .. => "Imported here"

/-- The place. -/
def span : ImportError → Span
  | .notFound _ s => s
  | .circular _ s => s

end ImportError

/-! ### All errors -/

namespace Error

/-- What is wrong. -/
def message : Error → String
  | .parse _ e => e.message
  | .compile e => e.message
  | .expand e => e.message

/-- The name of the cause. -/
def code : Error → String
  | .parse _ e => e.code
  | .compile e => e.code
  | .expand e => e.code

/-- What to do about it. -/
def help? : Error → Option String
  | .parse _ e => some e.help
  | .compile e => e.help?
  | .expand e => e.help?

/-- What to write at the place. -/
def label : Error → String
  | .parse _ e => e.label
  | .compile e => e.label
  | .expand e => e.label

/-- The name of the source that cannot be read. -/
def unit? : Error → Option String
  | .parse unit _ => some unit
  | .compile _ => none
  | .expand _ => none

/-- The place, where it is known. -/
def span? : Error → Option Span
  | .parse _ e => some e.found.span
  | .compile e => e.span?
  | .expand e => some e.span

/-- Line and column of the place, counted in `source`. -/
def location? (e : Error) (source : List Char) : Option Location :=
  e.span?.map fun s => Location.ofPosition source s.start

end Error

end SchemaLang
