import SchemaLang.Config.Ledger
import SchemaLang.Reference
import SchemaLang.Tree

/-!
# From trees to configurations

Data becomes values, declarations become named values, and a schema becomes a
configuration.  References stay references, unless a table of their values is given.

## Main definitions

* `Context` — the environment, and the table of references if there is one.
* `Context.data` — the value of data.
* `Context.declaration` — name and value of a declaration.
* `Context.schema` — the configuration of a schema.

## References

`SPEC_FULL.md`, section 4.4, `compileDeclaration` and `compileSchema`, and section 12, items 1 to 3
and 7: `declaration` with `enumeration`, `prop`, `plugin`, `type_definition` and `model`; `columned`,
`column` and `attributes`; `data` with its cases; `import`, `schema` and `schema_token`.
-/

namespace SchemaLang

/-- What values depend on besides the tree. -/
structure Context where
  /-- The environment variables. -/
  environment : Entries String
  /-- What references stand for; without it they stay references. -/
  references : Option (Entries Value)
  deriving Repr, Inhabited

namespace Context

/-- The content of an environment variable, empty when it is not set. -/
def variableValue (ctx : Context) (name : String) : String :=
  (Entries.get? ctx.environment name).getD ""

/-! ### Data -/

/-- The value of a literal.  A number that is not finite has none. -/
def literal : Literal → Value
  | .string s => .str (escape s)
  | .integer n => .int n
  | .float x => if x.isFinite then .float x else .null
  | .boolean b => .bool b
  | .null => .null

/-- The value of a reference. -/
def reference (ctx : Context) (id : Ident) : Except CompileError Value :=
  match ctx.references with
  | none => .ok (.str (placeholder id.name))
  | some table =>
    match Entries.get? table id.name with
    | some v => .ok v
    | none => .error (.unknownReference id.name (some id.span))

/-- The error of a name that stands twice. -/
def duplicate (id : Ident) : CompileError := .duplicate id.name (some id.span)

mutual

/-- The value of data. -/
def data (ctx : Context) : Data → Except CompileError Value
  | .literal l _ => .ok (literal l)
  | .environment name _ => .ok (.str (escape (ctx.variableValue name)))
  | .object ps _ => (properties ctx [] ps).map .obj
  | .array es _ => (elements ctx es).map .arr
  | .reference id => ctx.reference id

/-- The values of the elements of an array. -/
def elements (ctx : Context) : List Data → Except CompileError (List Value)
  | [] => .ok []
  | e :: es =>
    match data ctx e with
    | .error err => .error err
    | .ok v => (elements ctx es).map (v :: ·)

/-- The members of an object, in which the names in `seen` stand before.  A name is
looked at before its value. -/
def properties (ctx : Context) (seen : List String) :
    List (Ident × Data) → Except CompileError (List (String × Value))
  | [] => .ok []
  | (k, d) :: ps =>
    if k.name ∈ seen then .error (duplicate k)
    else
      match data ctx d with
      | .error err => .error err
      | .ok v => (properties ctx (k.name :: seen) ps).map ((k.name, v) :: ·)

end

/-- The value of a block. -/
def block (ctx : Context) (b : Block) : Except CompileError Value :=
  (ctx.properties [] b.properties).map .obj

/-! ### Types and models -/

/-- The value of attributes: an object, empty when there are none. -/
def attributes (ctx : Context) (owner : Ident) : Option Data → Except CompileError Value
  | none => .ok (.obj [])
  | some (.object ps _) => (ctx.properties [] ps).map .obj
  | some _ => .error (.invalidColumn owner.name owner.span)

/-- A text without an ending, and whether it had it. -/
def stripEnding (ending cs : List Char) : List Char × Bool :=
  if ending.isSuffixOf cs then (cs.take (cs.length - ending.length), true) else (cs, false)

/-- The value of a column whose type was declared as `declared`. -/
def columnValue (name : String) (declared : String) (attributes : Value) : Value :=
  let optional := stripEnding ['?'] declared.toList
  let multiple := stripEnding ['[', ']'] optional.1
  .obj [("type", .str (String.ofList multiple.1)), ("name", .str name),
    ("required", .bool !optional.2), ("multiple", .bool multiple.2), ("attributes", attributes)]

/-- The value of a column. -/
def column (ctx : Context) (p : Property) : Except CompileError Value :=
  match p.2 with
  | .object ps span =>
    let b : Block := ⟨ps, span⟩
    match b.get? "type" with
    | some (.literal (.string declared) _) =>
      (ctx.attributes p.1 (b.get? "attributes")).map (columnValue p.1.name declared)
    | _ => .error (.invalidColumn p.1.name p.2.span)
  | _ => .error (.invalidColumn p.1.name p.2.span)

/-- The values of columns, before which the names in `seen` stand. -/
def columns (ctx : Context) (seen : List String) : List Property → Except CompileError (List Value)
  | [] => .ok []
  | p :: ps =>
    if p.1.name ∈ seen then .error (duplicate p.1)
    else
      match ctx.column p with
      | .error err => .error err
      | .ok v => (columns ctx (p.1.name :: seen) ps).map (v :: ·)

/-- The value of a type or a model. -/
def columned (ctx : Context) (d : Declaration) : Except CompileError Value :=
  match d.init.get? "columns" with
  | some (.object ps _) => do
    let attributes ← ctx.attributes d.id (d.init.get? "attributes")
    let columns ← ctx.columns [] ps
    return .obj [("name", .str d.id.name), ("mutable", .bool d.mergeable),
      ("attributes", attributes), ("columns", .arr columns)]
  | _ => .error (.missingColumns d.span)

/-! ### Statements -/

/-- Name and value of a declaration. -/
def declaration (ctx : Context) (d : Declaration) : Except CompileError (String × Value) := do
  let value ← if d.kind.isColumned then ctx.columned d else ctx.block d.init
  return (d.id.name, value)

/-- Name and value of a declaration that must be of the given kind. -/
def declarationOf (ctx : Context) (kind : Kind) (d : Declaration) :
    Except CompileError (String × Value) :=
  if d.kind = kind then ctx.declaration d else .error (.invalidDeclaration kind d.span)

/-- The path of a request for another source. -/
def usePath : Node → Except CompileError String
  | .use ⟨.string path, _, _⟩ => .ok path
  | n => .error (.invalidImport n.span)

/-- Enters a statement into a ledger. -/
def enter (ctx : Context) (l : Ledger) (n : Node) : Except CompileError Ledger :=
  match n with
  | .declaration d => do
    let (name, value) ← ctx.declaration d
    let r := l.enter ⟨d.kind, name, value, d.mergeable, some d.span⟩
    r.1.map fun _ => r.2
  | .use _ => (usePath n).map l.addUse
  | .schema _ span => .error (.invalidSchema span)

/-- The configuration of a schema: its statements entered in order. -/
def schema (ctx : Context) (s : Schema) : Except CompileError Config := do
  let l ← s.body.foldlM ctx.enter .empty
  return l.config

/-- The configuration of a statement that must be a whole source. -/
def schemaNode (ctx : Context) : Node → Except CompileError Config
  | .schema body span => ctx.schema ⟨body, span⟩
  | n => .error (.invalidSchema n.span)

end Context

end SchemaLang
