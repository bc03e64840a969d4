import SchemaLang.Config
import SchemaLang.Error
import SchemaLang.Value.Merge

/-!
# Collecting declarations

A ledger is a configuration in the making.  Declarations are entered one after the
other.  Two that merge and have the same kind and name become one; one that does not
merge takes the place of those that do, whichever comes first; two that do not merge
exclude each other.

## Main definitions

* `Declared` — a compiled declaration.
* `Ledger`, `Ledger.enter` — entering a declaration.
* `Ledger.addUse` — noting the path of a source.

## References

`SPEC_FULL.md`, section 4.4, the insertion into `output[kind][name]`, and section 12, item 4:
`insert`, `add_import`, `finish`.
-/

namespace SchemaLang

/-- A compiled declaration. -/
structure Declared where
  /-- What is declared. -/
  kind : Kind
  /-- The declared name. -/
  name : String
  /-- What it stands for. -/
  value : Value
  /-- Whether it merges with others of its name. -/
  mergeable : Bool
  /-- Where it stands, if that is known. -/
  span : Option Span
  deriving Repr, Inhabited

/-- A configuration in the making. -/
structure Ledger where
  /-- What has been collected. -/
  config : Config
  /-- The kinds and names held by a declaration that does not merge. -/
  fixed : List (Kind × String)
  deriving Repr, Inhabited

namespace Ledger

/-- The ledger in which nothing has been entered. -/
def empty : Ledger := ⟨.empty, []⟩

/-- The ledger with another value for a kind and name. -/
def put (l : Ledger) (kind : Kind) (name : String) (value : Value) : Ledger :=
  { l with config := l.config.withSection kind (Entries.insert (l.config.sectionOf kind) name value) }

/-- The ledger in which a kind and name is held by a declaration that does not merge. -/
def fix (l : Ledger) (kind : Kind) (name : String) : Ledger :=
  { l with fixed := (kind, name) :: l.fixed }

/-- Whether a kind and name is held by a declaration that does not merge. -/
def isFixed (l : Ledger) (kind : Kind) (name : String) : Bool := (kind, name) ∈ l.fixed

/-- Enters a declaration.  A merge that fails leaves what it has merged before. -/
def enter (l : Ledger) (d : Declared) : Except CompileError Unit × Ledger :=
  match Entries.get? (l.config.sectionOf d.kind) d.name with
  | none =>
    let l' := l.put d.kind d.name d.value
    (.ok (), if d.mergeable then l' else l'.fix d.kind d.name)
  | some existing =>
    match l.isFixed d.kind d.name, d.mergeable with
    | false, true =>
      let m := mergeDeclared d.kind existing d.value
      (if m.agrees then .ok () else .error (.duplicate d.name d.span), l.put d.kind d.name m.value)
    | false, false => (.ok (), (l.put d.kind d.name d.value).fix d.kind d.name)
    | true, true => (.ok (), l)
    | true, false => (.error (.duplicate d.name d.span), l)

/-- Notes the path of a source, once. -/
def addUse (l : Ledger) (path : String) : Ledger :=
  if path ∈ l.config.uses then l
  else { l with config := { l.config with uses := l.config.uses ++ [path] } }

end Ledger

end SchemaLang
