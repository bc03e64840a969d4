import SchemaLang.Proofs.Grammar.Derivation
import SchemaLang.Proofs.Token.Stream
import SchemaLang.Proofs.Tree.Spans

/-!
# The tree of a derivation

A derivation is read as a syntax tree without spans, symbol by symbol.  An attribute
becomes a property named by its words with dots between them, whose value is `true`
or the array of its arguments.  A column becomes an object of its type, written with
the marks that follow it, and its attributes.

The functions are total; what they give for trees that no rule has is of no account.

## Main definitions

* `Derivation.data`, `Derivation.attributeEntry`, `Derivation.column` — the parts.
* `Derivation.declaration`, `Derivation.schema` — statements and sources.
-/

namespace SchemaLang

/-- The value of a quoted string. -/
def Content.quoted : Content → String
  | .string s => s
  | _ => ""

namespace Derivation

/-- The parts of a repetition. -/
def items : Derivation → List Derivation
  | .more d e => d :: items e
  | _ => []

@[simp] theorem items_stop : items .stop = [] := rfl

@[simp] theorem items_more (d e : Derivation) : items (.more d e) = d :: items e := rfl

/-- The second of two parts. -/
def second : Derivation → Derivation
  | .seq _ e => e
  | d => d

/-- The alternative that is left after all choices. -/
def chosen : Derivation → Derivation
  | .left d => chosen d
  | .right d => chosen d
  | d => d

/-- The token of a terminal. -/
def content : Derivation → Content
  | .token c => c
  | _ => .unknown

/-- The name that a terminal spells. -/
def name (d : Derivation) : Ident := ⟨d.content.spelling, .nowhere⟩

/-- A text, where an optional part stands. -/
def whenPresent (text : String) : Derivation → String
  | .present _ => text
  | _ => ""

/-- Whether an optional part is missing. -/
def isAbsent : Derivation → Bool
  | .absent => true
  | _ => false

/-! ### Data -/

/-- The literal that a scalar is. -/
def literal : Derivation → Literal
  | .left d => literal d
  | .right d => literal d
  | .token (.string s) => .string s
  | .token (.integer n) => .integer n
  | .token (.float x) => .float x
  | .token (.keyword (.boolean b)) => .boolean b
  | _ => .null

mutual

/-- The data that is derived. -/
def data : Derivation → Data
  | .symbol .data d => data d
  | .left d => data d
  | .right d => data d
  | .symbol .object (.seq _ (.seq ps _)) => .object (properties ps) .nowhere
  | .symbol .array (.seq _ (.seq es _)) => .array (elements es) .nowhere
  | .symbol .environment (.seq _ (.seq _ (.seq d _))) => .environment d.content.quoted .nowhere
  | .symbol .scalar d => .literal d.literal .nowhere
  | .token c => .reference ⟨c.spelling, .nowhere⟩
  | _ => .literal .null .nowhere

/-- The data that is derived again and again. -/
def elements : Derivation → List Data
  | .more d e => data d :: elements e
  | _ => []

/-- A word with the data after it. -/
def property : Derivation → Property
  | .seq k d => (k.name, data d)
  | _ => default

/-- Words that are derived again and again, each with the data after it. -/
def properties : Derivation → List Property
  | .more d e => property d :: properties e
  | _ => []

end

/-- What stands between two braces. -/
def block (entries : Derivation → List Property) : Derivation → Block
  | .seq _ (.seq ps _) => ⟨entries ps, .nowhere⟩
  | _ => ⟨[], .nowhere⟩

/-- The block of an object. -/
def object : Derivation → Block
  | .symbol .object d => block properties d
  | _ => ⟨[], .nowhere⟩

/-! ### Types and models -/

/-- The value of an attribute: the array of its arguments, or `true` without any. -/
def arguments : Derivation → Data
  | .present (.seq _ (.seq es _)) => .array (elements es) .nowhere
  | _ => .literal (.boolean true) .nowhere

/-- An attribute. -/
def attributeEntry : Derivation → Property
  | .symbol .attributeEntry (.seq _ (.seq first (.seq further rest))) =>
    let words := first.content.spelling :: further.items.map (·.second.content.spelling)
    (⟨String.intercalate "." words, .nowhere⟩, rest.arguments)
  | _ => default

/-- Attributes, as the block they are kept in. -/
def attributes (d : Derivation) : Block := ⟨d.items.map attributeEntry, .nowhere⟩

/-- A column. -/
def column : Derivation → Property
  | .symbol .column (.seq key (.seq type (.seq multiple (.seq optional rest)))) =>
    let typeName := type.content.spelling ++ multiple.whenPresent "[]" ++ optional.whenPresent "?"
    (key.name, .object
      [(⟨"type", .nowhere⟩, .literal (.string typeName) .nowhere),
       (⟨"attributes", .nowhere⟩, rest.attributes.toData)] .nowhere)
  | _ => default

/-- Columns, as the block they are kept in. -/
def columns (d : Derivation) : Block := block (·.items.map column) d

/-! ### Statements -/

/-- A declaration of a kind, by the rule of that kind. -/
def declarationOf : Kind → Derivation → Declaration
  | .enum, .seq _ (.seq id (.seq bang body)) =>
    ⟨.enum, bang.isAbsent, id.name, block properties body, .nowhere⟩
  | .prop, .seq _ (.seq id (.seq bang body)) =>
    ⟨.prop, bang.isAbsent, id.name, body.object, .nowhere⟩
  | .plugin, .seq _ (.seq path body) =>
    ⟨.plugin, true, ⟨path.content.quoted, .nowhere⟩, body.object, .nowhere⟩
  | kind, .seq _ (.seq id (.seq bang (.seq attributes columns))) =>
    ⟨kind, bang.isAbsent, id.name,
      ⟨[(⟨"attributes", .nowhere⟩, attributes.attributes.toData),
        (⟨"columns", .nowhere⟩, columns.columns.toData)], .nowhere⟩, .nowhere⟩
  | _, _ => default

/-- A declaration. -/
def declaration : Derivation → Declaration
  | .symbol (.declaration kind) d => declarationOf kind d
  | _ => default

/-- A request for another source. -/
def use : Derivation → Use
  | .symbol .use d => ⟨.string d.second.content.quoted, .nowhere, .nowhere⟩
  | _ => default

/-- A statement: the first alternative is a request, every other one a declaration. -/
def node : Derivation → Node
  | .left d => .use d.use
  | d => .declaration d.chosen.declaration

/-- A source. -/
def schema : Derivation → Schema
  | .symbol .schema d => ⟨d.items.map node, .nowhere⟩
  | _ => default

theorem elements_eq_map (d : Derivation) : d.elements = d.items.map data := by
  induction d with
  | more d e _ ih => rw [elements, items_more, List.map_cons, ih]
  | _ => rfl

theorem properties_eq_map (d : Derivation) : d.properties = d.items.map property := by
  induction d with
  | more d e _ ih => rw [properties, items_more, List.map_cons, ih]
  | _ => rfl

theorem block_properties (d : Derivation) : block properties d = block (·.items.map property) d := by
  congr 1
  funext ps
  exact properties_eq_map ps

end Derivation

end SchemaLang
