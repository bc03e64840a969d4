import SchemaLang.Kind
import SchemaLang.Value

/-!
# Configurations

A configuration holds what the declarations of a schema come to, a section for each
kind, and the paths of the sources the schema asks for.  Its final form holds no
references, and so neither props nor paths.

## Main definitions

* `Config`, `FinalConfig` — configurations and their final form.
* `Config.sectionOf`, `Config.withSection` — one section.
* `Config.toValue` — the configuration as one object.

## References

`SPEC_FULL.md`, sections 6 and 10.4: `SchemaConfig` and `FinalSchemaConfig` with `section`,
`section_mut`, `to_value` and `insert_section`.
-/

namespace SchemaLang

/-- A configuration. -/
structure Config where
  /-- What plugins are set to, by path. -/
  plugins : Entries Value
  /-- The paths of the sources asked for, in order and without repetition. -/
  uses : List String
  /-- Reusable objects. -/
  props : Entries Value
  /-- Named constants. -/
  enums : Entries Value
  /-- Columns to be embedded. -/
  types : Entries Value
  /-- Columns that stand for themselves. -/
  models : Entries Value
  deriving Repr, Inhabited

/-- The final form of a configuration. -/
structure FinalConfig where
  /-- What plugins are set to, by path. -/
  plugins : Entries Value
  /-- Named constants. -/
  enums : Entries Value
  /-- Columns to be embedded. -/
  types : Entries Value
  /-- Columns that stand for themselves. -/
  models : Entries Value
  deriving Repr, Inhabited

namespace Config

/-- The configuration of nothing. -/
def empty : Config := ⟨[], [], [], [], [], []⟩

/-- The section of a kind. -/
def sectionOf (c : Config) : Kind → Entries Value
  | .enum => c.enums
  | .prop => c.props
  | .type => c.types
  | .model => c.models
  | .plugin => c.plugins

/-- The configuration with another section of a kind. -/
def withSection (c : Config) (kind : Kind) (s : Entries Value) : Config :=
  match kind with
  | .enum => { c with enums := s }
  | .prop => { c with props := s }
  | .type => { c with types := s }
  | .model => { c with models := s }
  | .plugin => { c with plugins := s }

theorem sectionOf_withSection (c : Config) (kind other : Kind) (s : Entries Value) :
    (c.withSection kind s).sectionOf other = if kind = other then s else c.sectionOf other := by
  cases kind <;> cases other <;> rfl

@[simp] theorem uses_withSection (c : Config) (kind : Kind) (s : Entries Value) :
    (c.withSection kind s).uses = c.uses := by
  cases kind <;> rfl

/-- A section as a member; none when it is empty. -/
def sectionMember (kind : Kind) (s : Entries Value) : List (String × Value) :=
  if s.isEmpty then [] else [(kind.sectionName, .obj s)]

/-- The key of the paths asked for. -/
def usesKey : String := "use"

/-- The paths asked for as a member; none when there are none. -/
def usesMember (paths : List String) : List (String × Value) :=
  if paths.isEmpty then [] else [(usesKey, .arr (paths.map .str))]

/-- The sections with their names, without the empty ones. -/
def members (c : Config) : Entries Value :=
  sectionMember .plugin c.plugins ++ usesMember c.uses ++ sectionMember .prop c.props ++
    sectionMember .enum c.enums ++ sectionMember .type c.types ++ sectionMember .model c.models

/-- The configuration as one object, without its empty sections. -/
def toValue (c : Config) : Value := .obj c.members

end Config

namespace FinalConfig

/-- The final form as a configuration that asks for nothing and has no props. -/
def toConfig (f : FinalConfig) : Config := ⟨f.plugins, [], [], f.enums, f.types, f.models⟩

/-- The final form as one object, without its empty sections. -/
def toValue (f : FinalConfig) : Value := f.toConfig.toValue

/-- Equality of final forms, which does not look at the order of entries and members. -/
def same (f g : FinalConfig) : Bool :=
  Entries.same f.plugins g.plugins && Entries.same f.enums g.enums &&
    Entries.same f.types g.types && Entries.same f.models g.models

end FinalConfig

end SchemaLang
