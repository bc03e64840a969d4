import SchemaLang.Config
import SchemaLang.Error
import SchemaLang.Reference

/-!
# Resolving references

The final form of a configuration has every reference replaced by what it stands
for: a prop, else an enum, else a type.  What a name stands for is resolved once and
remembered.  The names whose values are being resolved are kept in order; a name that
comes up while it is among them closes a circle.

A circle is found before more names are open than are defined, so the number of
defined names bounds the depth of resolving.

## Main definitions

* `Target`, `Config.target?` — what a name stands for before it is resolved.
* `Value.substitute`, `Value.substituteColumned` — replacing references in a value.
* `Config.resolveWithin`, `Config.resolveName` — what a name stands for.
* `Config.resolve` — the final form.

## References

`SPEC_FULL.md`, section 4.4, `resolveFinal`, section 11, reference chains, and section 12, items 5
and 6: `resolve_final`, `lookup`, `resolve_columned`, `substitute`, `resolve_reference`.
-/

namespace SchemaLang

/-- What has been resolved so far, by name. -/
abbrev Memo : Type := Entries Value

/-- A computation that may fail, and remembers what it resolves. -/
abbrev Resolving (α : Type) : Type := Memo → Except CompileError (α × Memo)

namespace Resolving

variable {α β : Type}

/-- A result that needs no resolving. -/
def ok (a : α) : Resolving α := fun memo => .ok (a, memo)

/-- One computation after the other. -/
def andThen (p : Resolving α) (f : α → Resolving β) : Resolving β := fun memo =>
  match p memo with
  | .error e => .error e
  | .ok (a, memo') => f a memo'

/-- The result of a computation, changed. -/
def map (f : α → β) (p : Resolving α) : Resolving β := p.andThen fun a => ok (f a)

/-- A computation on every element in order. -/
def each (f : α → Resolving β) : List α → Resolving (List β)
  | [] => ok []
  | a :: as => (f a).andThen fun b => (each f as).map (b :: ·)

/-- A computation on every entry in order; names stay. -/
def eachEntry (f : α → Resolving β) : Entries α → Resolving (Entries β)
  | [] => ok []
  | (k, a) :: es => (f a).andThen fun b => (eachEntry f es).map ((k, b) :: ·)

/-- A computation on the entry with a name, if there is one. -/
def atKey (f : α → Resolving α) (key : String) : Entries α → Resolving (Entries α)
  | [] => ok []
  | (k, a) :: es =>
    if k = key then (f a).map fun b => (k, b) :: es else (atKey f key es).map ((k, a) :: ·)

end Resolving

/-! ### Replacing references in a value -/

namespace Value

variable (resolve : String → Resolving Value)

mutual

/-- Replaces every reference in a value; other strings are read as written out. -/
def substitute : Value → Resolving Value
  | .str s =>
    match referenceName? s with
    | some name => resolve name
    | none => Resolving.ok (.str (unescape s))
  | .arr xs => (substituteElements xs).map .arr
  | .obj ms => (substituteMembers ms).map .obj
  | .null => Resolving.ok .null
  | .bool b => Resolving.ok (.bool b)
  | .int n => Resolving.ok (.int n)
  | .float x => Resolving.ok (.float x)

/-- Replaces every reference in the elements of an array. -/
def substituteElements : List Value → Resolving (List Value)
  | [] => Resolving.ok []
  | x :: xs => (substitute x).andThen fun y => (substituteElements xs).map (y :: ·)

/-- Replaces every reference in the members of an object; names are no references. -/
def substituteMembers : List (String × Value) → Resolving (List (String × Value))
  | [] => Resolving.ok []
  | (k, v) :: ms => (substitute v).andThen fun w => (substituteMembers ms).map ((k, w) :: ·)

end

/-- Replaces every reference in the attributes of an object; nothing else is looked at. -/
def substituteAttributes : Value → Resolving Value
  | .obj ms => (Resolving.atKey (substitute resolve) "attributes" ms).map .obj
  | v => Resolving.ok v

/-- Replaces every reference in the attributes of each column. -/
def substituteColumns : Value → Resolving Value
  | .arr cs => (Resolving.each (substituteAttributes resolve) cs).map .arr
  | v => Resolving.ok v

/-- Replaces every reference in the attributes of a type or a model, then in those of its
columns. -/
def substituteColumned : Value → Resolving Value
  | .obj ms =>
    (Resolving.atKey (substitute resolve) "attributes" ms).andThen fun ms' =>
      (Resolving.atKey (substituteColumns resolve) "columns" ms').map .obj
  | v => Resolving.ok v

end Value

/-! ### Names -/

/-- What a name stands for before it is resolved. -/
inductive Target where
  /-- A prop or an enum, in which every string may be a reference. -/
  | whole (value : Value) : Target
  /-- A type, in which only attributes hold references. -/
  | columned (value : Value) : Target
  deriving Repr, Inhabited

/-- Replaces every reference in what a name stands for. -/
def Target.substitute (resolve : String → Resolving Value) : Target → Resolving Value
  | .whole v => v.substitute resolve
  | .columned v => v.substituteColumned resolve

namespace Config

/-- What a name stands for: a prop, else an enum, else a type. -/
def target? (c : Config) (name : String) : Option Target :=
  match Entries.get? c.props name, Entries.get? c.enums name, Entries.get? c.types name with
  | some v, _, _ => some (.whole v)
  | none, some v, _ => some (.whole v)
  | none, none, some v => some (.columned v)
  | none, none, none => none

/-- What a name stands for, resolved, where `opened` are the names being resolved and
at most `room` more may be opened. -/
def resolveWithin (c : Config) : Nat → List String → String → Resolving Value
  | room, opened, name => fun memo =>
    match Entries.get? memo name with
    | some v => .ok (v, memo)
    | none =>
      if name ∈ opened then .error (.circularReference (opened ++ [name]))
      else
        match c.target? name with
        | none => .error (.unknownReference name none)
        | some target =>
          match room with
          | 0 => .error (.circularReference (opened ++ [name]))
          | room + 1 =>
            match target.substitute (resolveWithin c room (opened ++ [name])) memo with
            | .error e => .error e
            | .ok (v, memo') => .ok (v, Entries.insert memo' name v)

/-- The number of names that may be open at once. -/
def room (c : Config) : Nat := c.props.length + c.enums.length + c.types.length

/-- What a name stands for, resolved. -/
def resolveName (c : Config) (name : String) : Resolving Value := c.resolveWithin c.room [] name

/-- The final form of a configuration, and what was resolved for it. -/
def resolving (c : Config) : Resolving FinalConfig :=
  let whole := Value.substitute c.resolveName
  let columned := Value.substituteColumned c.resolveName
  (Resolving.eachEntry columned c.types).andThen fun types =>
  (Resolving.eachEntry columned c.models).andThen fun models =>
  (Resolving.eachEntry whole c.enums).andThen fun enums =>
  (Resolving.eachEntry whole c.plugins).map fun plugins => ⟨plugins, enums, types, models⟩

/-- The final form of a configuration. -/
def resolve (c : Config) : Except CompileError FinalConfig := (c.resolving []).map (·.1)

end Config

end SchemaLang
