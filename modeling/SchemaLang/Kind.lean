/-!
# Kinds of declarations

## Main definitions

* `Kind` — the five kinds of declarations.
* `Kind.sectionName` — the configuration section, which is also the keyword.
* `Kind.title` — the kind as messages write it.

## References

`SPEC_FULL.md`, section 3, the kinds of a `DeclarationToken`: `section`.
-/

namespace SchemaLang

/-- What a declaration declares. -/
inductive Kind where
  /-- Named constants. -/
  | enum : Kind
  /-- A reusable object of settings. -/
  | prop : Kind
  /-- Columns to be embedded. -/
  | type : Kind
  /-- Columns that stand for themselves. -/
  | model : Kind
  /-- Settings for an extension. -/
  | plugin : Kind
  deriving DecidableEq, Repr, Inhabited

namespace Kind

/-- All kinds. -/
def all : List Kind := [.enum, .prop, .type, .model, .plugin]

/-- The section of a configuration that holds declarations of this kind, which is
also the keyword that starts them. -/
def sectionName : Kind → String
  | .enum => "enum"
  | .prop => "prop"
  | .type => "type"
  | .model => "model"
  | .plugin => "plugin"

/-- The kind as messages write it. -/
def title : Kind → String
  | .enum => "Enum"
  | .prop => "Prop"
  | .type => "Type"
  | .model => "Model"
  | .plugin => "Plugin"

/-- Whether declarations of this kind hold columns. -/
def isColumned : Kind → Bool
  | .type | .model => true
  | .enum | .prop | .plugin => false

end Kind

end SchemaLang
