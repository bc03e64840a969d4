import SchemaLang.Entries
import SchemaLang.Error
import SchemaLang.Grammar.Schema

/-!
# Putting other sources in

A schema asks for other sources by path, and their texts are given in a table.  After
each request the statements of the source it asks for are put in, and so on inside
them.  A source that is in already is not put in again, and sources that ask for each
other are an error.

No more sources can be open at once than the table holds, which bounds the depth.

## Main definitions

* `Sources` — texts by path.
* `Sources.expandUse`, `Sources.expandNodes` — what stands for a request, and for
  statements.
* `Sources.expand` — a schema with all it asks for.

## References

`SPEC_FULL.md`, section 5, the order of imports, section 10.3, `ImportSources`, and section 11:
`expand_imports` with `expand` and `expand_import`.
-/

namespace SchemaLang

/-- Texts of sources, by path. -/
abbrev Sources : Type := Entries String

/-- A computation that may fail, and notes the paths it has put in. -/
abbrev Expanding (α : Type) : Type := List String → Except Error (α × List String)

namespace Sources

/-- The statements of a source with those that each request stands for after it. -/
def expandNodes (expandUse : Use → Expanding (List Node)) : List Node → Expanding (List Node)
  | [], done => .ok ([], done)
  | .use u :: ns, done =>
    match expandUse u done with
    | .error e => .error e
    | .ok (imported, done') =>
      match expandNodes expandUse ns done' with
      | .error e => .error e
      | .ok (rest, done'') => .ok (.use u :: imported ++ rest, done'')
  | n :: ns, done =>
    match expandNodes expandUse ns done with
    | .error e => .error e
    | .ok (rest, done') => .ok (n :: rest, done')

/-- The statements that a request stands for, where `opened` are the paths being put in
and at most `room` more may be opened. -/
def expandUse (sources : Sources) : Nat → List String → Use → Expanding (List Node)
  | room, opened, u => fun done =>
    match u.path with
    | .string path =>
      if path ∈ opened then .error (.expand (.circular (opened ++ [path]) u.span))
      else if path ∈ done then .ok ([], done)
      else
        match Entries.get? sources path with
        | none => .error (.expand (.notFound path u.span))
        | some text =>
          match parseSchema text.toList with
          | .error e => .error (.parse path e)
          | .ok schema =>
            match room with
            | 0 => .error (.expand (.circular (opened ++ [path]) u.span))
            | room + 1 =>
              match expandNodes (expandUse sources room (opened ++ [path])) schema.body done with
              | .error e => .error e
              | .ok (body, done') => .ok (body, path :: done')
    | _ => .error (.compile (.invalidImport u.span))

/-- A schema with the statements of all sources it asks for. -/
def expand (sources : Sources) (schema : Schema) : Except Error Schema :=
  (expandNodes (expandUse sources sources.length []) schema.body []).map fun r =>
    ⟨r.1, schema.span⟩

end Sources

end SchemaLang
