import SchemaLang.Config

/-!
# Configurations as records

A configuration is written as a record: its fields one after the other, each under its name, and
without those that are empty.

## Main definitions

* `Field` — a field of a record as it is written.
* `Config.serialized`, `FinalConfig.serialized` — configurations as records.

## References

`SPEC_FULL.md`, section 10.4: what is derived to write a `SchemaConfig` and a
`FinalSchemaConfig`.
-/

namespace SchemaLang

/-- A field of a record as it is written. -/
structure Field where
  /-- The name under which it is written. -/
  name : String
  /-- Whether it is left out. -/
  omitted : Bool
  /-- What is written for it. -/
  value : Value
  deriving Repr, Inhabited

namespace Field

/-- A field of entries, which is left out when there are none. -/
def ofEntries (name : String) (es : Entries Value) : Field := ⟨name, es.isEmpty, .obj es⟩

/-- A field of strings, which is left out when there are none. -/
def ofStrings (name : String) (ss : List String) : Field := ⟨name, ss.isEmpty, .arr (ss.map .str)⟩

/-- A record as a value: its fields in order, without those left out. -/
def serialize (fs : List Field) : Value :=
  .obj ((fs.filter (!·.omitted)).map fun f => (f.name, f.value))

end Field

/-- A configuration as a record. -/
def Config.serialized (c : Config) : Value :=
  Field.serialize [.ofEntries "plugin" c.plugins, .ofStrings "use" c.uses,
    .ofEntries "prop" c.props, .ofEntries "enum" c.enums, .ofEntries "type" c.types,
    .ofEntries "model" c.models]

/-- A final form as a record. -/
def FinalConfig.serialized (f : FinalConfig) : Value :=
  Field.serialize [.ofEntries "plugin" f.plugins, .ofEntries "enum" f.enums,
    .ofEntries "type" f.types, .ofEntries "model" f.models]

end SchemaLang
