import SchemaLang.Compile
import SchemaLang.Config.Record
import SchemaLang.Config.Resolve
import SchemaLang.Import
import SchemaLang.Json.Codec
import SchemaLang.Yaml.Writer

/-!
# Analysing sources

From the text of a schema to its tree, its configuration and its final form.

## Main definitions

* `Analysis` — the tree of a source with its configuration.
* `Analysis.jsonBy`, `Analysis.json`, `Analysis.yaml` — the configuration as text.
* `analyze`, `analyzeWith` — without and with the sources that are asked for.
* `parse`, `parseWith`, `final`, `finalWith` — only the configuration, or its final form.

## References

`SPEC_FULL.md`, section 6, and section 11, the analysis handle: `parse`, `parse_final`,
`parse_with_imports`, `final_with_imports`, `analyze`, `analyze_with_imports`, `to_json`,
`to_yaml`, `finalize`.
-/

namespace SchemaLang

/-- What is known about a source. -/
structure Analysis where
  /-- The tree, with the sources it asks for if they were given. -/
  schema : Schema
  /-- The configuration. -/
  config : Config
  deriving Repr, Inhabited

namespace Analysis

/-- The configuration as JSON on lines of their own, as a codec writes it. -/
def jsonBy (codec : Json.Codec) (a : Analysis) : List Char := codec.pretty a.config.serialized

/-- The configuration as JSON on lines of their own. -/
def json (a : Analysis) : List Char := a.jsonBy Json.standard

/-- The configuration as YAML. -/
def yaml (a : Analysis) : List Char := Yaml.document a.config.members

end Analysis

/-- The name of a source that has none. -/
def defaultUnit : String := "schema.idea"

/-- Reads a source; errors call it `unit`. -/
def readUnit (unit : String) (source : List Char) : Except Error Schema :=
  (parseSchema source).mapError (.parse unit)

variable (environment : Entries String)

/-- Tree and configuration of a tree. -/
def compileSchema (schema : Schema) : Except Error Analysis :=
  match Context.schema ⟨environment, none⟩ schema with
  | .ok config => .ok ⟨schema, config⟩
  | .error e => .error (.compile e)

/-- Analyses a source without the sources it asks for. -/
def analyze (unit : String) (source : List Char) : Except Error Analysis :=
  (readUnit unit source).bind (compileSchema environment)

/-- Analyses a source together with the sources it asks for. -/
def analyzeWith (sources : Sources) (unit : String) (source : List Char) : Except Error Analysis :=
  ((readUnit unit source).bind sources.expand).bind (compileSchema environment)

/-- The final form of a configuration, with errors as those of a source. -/
def finalize (config : Config) : Except Error FinalConfig := config.resolve.mapError .compile

/-- The configuration of a source. -/
def parse (source : List Char) : Except Error Config :=
  (analyze environment defaultUnit source).map (·.config)

/-- The configuration of a source and the sources it asks for. -/
def parseWith (sources : Sources) (source : List Char) : Except Error Config :=
  (analyzeWith environment sources defaultUnit source).map (·.config)

/-- The final form of a source. -/
def final (source : List Char) : Except Error FinalConfig :=
  (parse environment source).bind finalize

/-- The final form of a source and the sources it asks for. -/
def finalWith (sources : Sources) (source : List Char) : Except Error FinalConfig :=
  (parseWith environment sources source).bind finalize

end SchemaLang
