import SchemaLang.Grammar.Schema

/-!
# Reading step by step

Every reader of the grammar can be run on its own, one after the other on one
source, each from where the one before has come to, whether it succeeded or not.

## Main definitions

* `Step` — a reader to run, by name.
* `Reading` — what a step may read.
* `Step.run`, `Step.runAll` — running one step, and a sequence of them.

## References

`SPEC_FULL.md`, sections 4.2 and 4.3: the primitives and the parsers of declarations, each of
which a caller can run.
-/

namespace SchemaLang

/-- A reader of the grammar, by name. -/
inductive Step where
  /-- Skip blanks and comments. -/
  | skip : Step
  /-- Ask whether the next token has a category. -/
  | check (category : Category) : Step
  /-- Read a token of a category. -/
  | expect (category : Category) : Step
  /-- Read a token of a category if there is one. -/
  | optional (category : Category) : Step
  /-- Read a key, called so in messages. -/
  | word (expected : String) : Step
  /-- Read a name with a capital letter. -/
  | capital : Step
  /-- Read a quoted string. -/
  | string : Step
  /-- Read data. -/
  | data : Step
  /-- Read a value of one token. -/
  | scalar : Step
  /-- Read an object. -/
  | object : Step
  /-- Read an array. -/
  | array : Step
  /-- Read an attribute. -/
  | attributeEntry : Step
  /-- Read a column. -/
  | column : Step
  /-- Read a request for another source. -/
  | use : Step
  /-- Read a declaration of a kind. -/
  | declaration (kind : Kind) : Step
  /-- Read statements up to the end. -/
  | schema : Step
  /-- Run a step as often as it succeeds. -/
  | many (step : Step) : Step
  deriving DecidableEq, Repr, Inhabited

/-- What a step may read. -/
inductive Reading where
  /-- Nothing of interest. -/
  | nothing : Reading
  /-- The answer to a question. -/
  | answer (yes : Bool) : Reading
  /-- A token, if there is one. -/
  | token (found : Option Token) : Reading
  /-- A name. -/
  | ident (id : Ident) : Reading
  /-- Data. -/
  | data (value : Data) : Reading
  /-- A name with its value. -/
  | property (entry : Property) : Reading
  /-- A statement. -/
  | node (statement : Node) : Reading
  /-- A source. -/
  | schema (source : Schema) : Reading
  /-- What a repeated step has read. -/
  | many (readings : List Reading) : Reading
  deriving Repr, Inhabited

namespace Step

/-- The reader with the name. -/
def run : Step → Parser Reading
  | .skip => do Parser.skip; return .nothing
  | .check c => do return .answer (← Parser.check c)
  | .expect c => do return .token (some (← Parser.expect c))
  | .optional c => do return .token (← Parser.optional c)
  | .word expected => do return .ident (← Parser.word expected)
  | .capital => do return .ident (← Parser.capital)
  | .string => do
    let s ← Parser.string
    return .data (.literal (.string s.1) s.2)
  | .data => do return .data (← Grammar.data)
  | .scalar => do return .data (← Grammar.scalar)
  | .object => do return .data (← Grammar.object).toData
  | .array => do return .data (← Grammar.array)
  | .attributeEntry => do return .property (← Grammar.attributeEntry)
  | .column => do return .property (← Grammar.column)
  | .use => do return .node (.use (← Grammar.use))
  | .declaration kind => do return .node (.declaration (← Grammar.declaration kind))
  | .schema => do return .schema (← Grammar.schema)
  | .many step => do return .many (← Parser.many step.run)

/-- Runs steps one after the other; each result comes with the input after it. -/
def runAll : List Step → Input → List (Except SyntaxError Reading × Input)
  | [], _ => []
  | step :: steps, i =>
    let r := step.run i
    r :: runAll steps r.2

end Step

end SchemaLang
