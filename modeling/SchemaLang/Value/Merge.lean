import SchemaLang.Kind
import SchemaLang.Value

/-!
# Merging values

Two values merge when they do not contradict each other.  Objects merge member by
member, and anything else merges only with its equal.  A merge that meets a
contradiction stops there and keeps what it has merged before.

The columns of a type or a model are an array of objects, in which a column is
known by its name.

## Main definitions

* `Merged` — a merge and whether it met a contradiction.
* `Value.merge` — the merge of two values.
* `mergeColumns` — the merge of two arrays of columns.
* `mergeDeclared` — the merge of two declarations of one kind.

## References

`SPEC_FULL.md`, section 4.4, deep merge in `compileSchema`, and section 12, item 4:
`merge_declaration`, `merge_columns`, `deep_merge`, `merge_objects`.
-/

namespace SchemaLang

/-- What a merge has come to. -/
structure Merged (α : Type) where
  /-- The merge, as far as it goes. -/
  value : α
  /-- Whether it goes to the end, without a contradiction. -/
  agrees : Bool
  deriving Repr, Inhabited

/-- The same merge of a larger whole. -/
def Merged.map {α β : Type} (f : α → β) (m : Merged α) : Merged β := ⟨f m.value, m.agrees⟩

namespace Value

mutual

/-- Merges a value into another: objects member by member, anything else only with
its equal. -/
def merge : Value → Value → Merged Value
  | .obj es, .obj is => (mergeMembers es is).map .obj
  | e, i => ⟨e, e.same i⟩

/-- Merges members one after the other into an object, up to a contradiction. -/
def mergeMembers : List (String × Value) → List (String × Value) → Merged (List (String × Value))
  | es, [] => ⟨es, true⟩
  | es, (k, i) :: is =>
    match Entries.get? es k with
    | none => mergeMembers (Entries.insert es k i) is
    | some e =>
      let m := merge e i
      if m.agrees then mergeMembers (Entries.insert es k m.value) is
      else ⟨Entries.insert es k m.value, false⟩

end

end Value

/-- Merges columns one after the other into an array.  A column with a new name is put
at the end, one with a known name must be equal to what is there. -/
def mergeColumns : List Value → List Value → Merged (List Value)
  | es, [] => ⟨es, true⟩
  | es, c :: cs =>
    match es.find? (sameName c) with
    | some e => if e.same c then mergeColumns es cs else ⟨es, false⟩
    | none => mergeColumns (es ++ [c]) cs
where
  /-- Whether two columns have the same name; two without a name have. -/
  sameName (c e : Value) : Bool :=
    match e.get? "name", c.get? "name" with
    | some m, some n => m.same n
    | none, none => true
    | _, _ => false

/-- Merges one member of a type or a model. -/
def mergeColumnedMember (key : String) (existing incoming : Value) : Merged Value :=
  match existing with
  | .arr es =>
    if key = "columns" then
      match incoming with
      | .arr is => (mergeColumns es is).map .arr
      | _ => ⟨existing, false⟩
    else existing.merge incoming
  | _ => existing.merge incoming

/-- Merges the members of a type or a model one after the other, up to a contradiction. -/
def mergeColumned : Entries Value → Entries Value → Merged (Entries Value)
  | es, [] => ⟨es, true⟩
  | es, (k, i) :: is =>
    match Entries.get? es k with
    | none => mergeColumned (Entries.insert es k i) is
    | some e =>
      let m := mergeColumnedMember k e i
      if m.agrees then mergeColumned (Entries.insert es k m.value) is
      else ⟨Entries.insert es k m.value, false⟩

/-- Merges a declaration into another of the same kind and name. -/
def mergeDeclared (kind : Kind) (existing incoming : Value) : Merged Value :=
  match existing, incoming with
  | .obj es, .obj is =>
    if kind.isColumned then (mergeColumned es is).map .obj else existing.merge incoming
  | _, _ => existing.merge incoming

end SchemaLang
