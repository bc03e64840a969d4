import SchemaLang.Config
import SchemaLang.Json.Codec

/-!
# Reading configurations

A configuration is an object with a member for each section.  Each section may stand
once and is empty when it is missing; members with other names are not looked at
beyond their form.  The sections may also stand in an array, in their order, the last
of them missing.  Any codec can be asked for them.

## Main definitions

* `Json.Codec.config?`, `Json.Codec.finalConfig?` — the configuration that a codec reads.
* `Config.read?`, `FinalConfig.read?` — the configuration of a text.

## References

`SPEC_FULL.md`, section 10.4: what is derived to read a `SchemaConfig` and a `FinalSchemaConfig`.
-/

namespace SchemaLang

namespace Json.Codec

variable (codec : Codec)

/-- The entries of a section, the configuration being around it. -/
def section? (x : codec.Tree) : Option (Entries Value) :=
  match codec.value? 1 x with
  | some (.obj es) => some es
  | _ => none

/-- The strings of an array. -/
def strings? (x : codec.Tree) : Option (List String) :=
  match codec.form? x with
  | some (.placed xs) => xs.mapM codec.string?
  | _ => none

/-- A section by name or place. -/
def sectionAt? (form : Form codec.Tree) (kind : Kind) (place : Nat) : Option (Entries Value) :=
  form.part? kind.sectionName place [] codec.section?

/-- The configuration that a text stands for. -/
def config? (cs : List Char) : Option Config := do
  let form ← (codec.read? cs).bind codec.form?
  let plugins ← codec.sectionAt? form .plugin 0
  let uses ← form.part? Config.usesKey 1 [] codec.strings?
  let props ← codec.sectionAt? form .prop 2
  let enums ← codec.sectionAt? form .enum 3
  let types ← codec.sectionAt? form .type 4
  let models ← codec.sectionAt? form .model 5
  if form.fits 6 then some ⟨plugins, uses, props, enums, types, models⟩ else none

/-- The final form that a text stands for; it has neither paths nor props. -/
def finalConfig? (cs : List Char) : Option FinalConfig := do
  let form ← (codec.read? cs).bind codec.form?
  let plugins ← codec.sectionAt? form .plugin 0
  let enums ← codec.sectionAt? form .enum 1
  let types ← codec.sectionAt? form .type 2
  let models ← codec.sectionAt? form .model 3
  if form.fits 4 then some ⟨plugins, enums, types, models⟩ else none

end Json.Codec

/-- The configuration that a text stands for. -/
def Config.read? : List Char → Option Config := Json.standard.config?

/-- The final form that a text stands for. -/
def FinalConfig.read? : List Char → Option FinalConfig := Json.standard.finalConfig?

end SchemaLang
