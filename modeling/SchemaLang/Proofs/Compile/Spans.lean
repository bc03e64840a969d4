import SchemaLang.Proofs.Compile.Order
import SchemaLang.Proofs.Tree.Spans

/-!
# Compiling does not look at spans

Values have no spans, and compiling never decides anything by one: it only passes them on to
errors.  So a tree whose spans are changed compiles to the same configuration, or fails with
the same error at the changed place.

## Main definitions

* `CompileError.mapSpans` — an error with its place changed.

## Main results

* `Context.data_mapSpans`, `Context.declaration_mapSpans` — data and declarations.
* `Context.schema_mapSpans` — **whole sources.**
-/

namespace Except

variable {ε ε' α β : Type} (f : ε → ε')

@[simp] theorem mapError_ok (a : α) : (ok a : Except ε α).mapError f = ok a := rfl

@[simp] theorem mapError_error (e : ε) : (error e : Except ε α).mapError f = error (f e) := rfl

theorem mapError_map (g : α → β) (x : Except ε α) :
    (x.map g).mapError f = (x.mapError f).map g := by
  cases x with
  | error e => rfl
  | ok a => rfl

end Except

namespace SchemaLang

/-- The error with its place changed. -/
def CompileError.mapSpans (f : Span → Span) : CompileError → CompileError
  | .invalidSchema s => .invalidSchema (f s)
  | .invalidDeclaration kind s => .invalidDeclaration kind (f s)
  | .invalidImport s => .invalidImport (f s)
  | .invalidColumn name s => .invalidColumn name (f s)
  | .missingColumns s => .missingColumns (f s)
  | .unknownReference name s => .unknownReference name (s.map f)
  | .duplicate name s => .duplicate name (s.map f)
  | .circularReference chain => .circularReference chain

theorem Block.get?_mapSpans (f : Span → Span) (b : Block) (name : String) :
    (b.mapSpans f).get? name = (b.get? name).map (Data.mapSpans f) := by
  rw [Block.get?, Block.get?, Block.mapSpans, List.find?_map, Option.map_map, Option.map_map]
  rfl

/-- Where a declaration stands is looked at only for an error. -/
theorem Ledger.enter_mapSpans (f : Span → Span) (l : Ledger) (x : Declared) :
    l.enter { x with span := x.span.map f } =
      ((l.enter x).1.mapError (.mapSpans f), (l.enter x).2) := by
  unfold Ledger.enter
  cases Entries.get? (l.config.sectionOf x.kind) x.name with
  | none => rfl
  | some existing =>
    cases l.isFixed x.kind x.name <;> cases x.mergeable
    · rfl
    · simp only
      split <;> rfl
    · rfl
    · rfl

namespace Context

variable (ctx : Context) (f : Span → Span)

/-! ### Data -/

theorem reference_mapSpan (id : Ident) :
    ctx.reference (id.mapSpan f) = (ctx.reference id).mapError (.mapSpans f) := by
  unfold reference
  rw [Ident.mapSpan_name]
  cases ctx.references with
  | none => rfl
  | some table =>
    cases htable : Entries.get? table id.name with
    | none =>
      simp only [htable]
      rfl
    | some v =>
      simp only [htable]
      rfl

mutual

theorem data_mapSpans : ∀ t : Data, ctx.data (t.mapSpans f) = (ctx.data t).mapError (.mapSpans f)
  | .literal l s => rfl
  | .environment name s => rfl
  | .object ps s => by
    rw [Data.mapSpans, data, data, properties_mapSpans ps, Except.mapError_map]
  | .array es s => by
    rw [Data.mapSpans, data, data, elements_mapSpans es, Except.mapError_map]
  | .reference id => by
    rw [Data.mapSpans, data, data, reference_mapSpan]

theorem elements_mapSpans : ∀ es : List Data,
    ctx.elements (Data.mapSpansElements f es) = (ctx.elements es).mapError (.mapSpans f)
  | [] => rfl
  | e :: es => by
    rw [Data.mapSpansElements, elements, elements, data_mapSpans e]
    cases ctx.data e with
    | error err => rfl
    | ok v =>
      simp only [Except.mapError_ok, elements_mapSpans es, Except.mapError_map]

theorem properties_mapSpans : ∀ (ps : List (Ident × Data)) (seen : List String),
    ctx.properties seen (Data.mapSpansProperties f ps) =
      (ctx.properties seen ps).mapError (.mapSpans f)
  | [], seen => rfl
  | (k, d) :: ps, seen => by
    rw [Data.mapSpansProperties, properties, properties, Ident.mapSpan_name, data_mapSpans d]
    by_cases hseen : k.name ∈ seen
    · rw [if_pos hseen, if_pos hseen]
      rfl
    · rw [if_neg hseen, if_neg hseen]
      cases ctx.data d with
      | error err => rfl
      | ok v =>
        simp only [Except.mapError_ok, properties_mapSpans ps, Except.mapError_map]

end

theorem block_mapSpans (b : Block) :
    ctx.block (b.mapSpans f) = (ctx.block b).mapError (.mapSpans f) := by
  rw [block, block, Block.mapSpans, ← Data.mapSpansProperties_eq_map, properties_mapSpans,
    Except.mapError_map]

/-! ### Types and models -/

theorem attributes_mapSpans (owner : Ident) (t : Option Data) :
    ctx.attributes (owner.mapSpan f) (t.map (Data.mapSpans f)) =
      (ctx.attributes owner t).mapError (.mapSpans f) := by
  cases t with
  | none => rfl
  | some t =>
    cases t with
    | object ps s =>
      rw [Option.map_some, Data.mapSpans, attributes, attributes, properties_mapSpans,
        Except.mapError_map]
    | literal v s => rfl
    | environment name s => rfl
    | array es s => rfl
    | reference id => rfl

theorem column_mapSpans (p : Property) :
    ctx.column (p.mapSpans f) = (ctx.column p).mapError (.mapSpans f) := by
  obtain ⟨k, t⟩ := p
  cases t with
  | literal v s => rfl
  | environment name s => rfl
  | array es s => rfl
  | reference id => rfl
  | object ps s =>
    have hget := Block.get?_mapSpans f ⟨ps, s⟩
    have hblock : (⟨ps.map (Property.mapSpans f), f s⟩ : Block) = Block.mapSpans f ⟨ps, s⟩ := rfl
    simp only [column, Property.mapSpans, Data.mapSpans_object, hblock, hget, Ident.mapSpan_name,
      attributes_mapSpans]
    cases Block.get? ⟨ps, s⟩ "type" with
    | none => rfl
    | some t =>
      cases t with
      | literal v s' =>
        cases v with
        | string declared => exact (Except.mapError_map ..).symm
        | integer n => rfl
        | float x => rfl
        | boolean b => rfl
        | null => rfl
      | environment name s' => rfl
      | object qs s' => rfl
      | array es s' => rfl
      | reference id => rfl

theorem columns_mapSpans (ps : List Property) (seen : List String) :
    ctx.columns seen (ps.map (Property.mapSpans f)) =
      (ctx.columns seen ps).mapError (.mapSpans f) := by
  induction ps generalizing seen with
  | nil => rfl
  | cons p ps ih =>
    have hname : (p.mapSpans f).1.name = p.1.name := rfl
    rw [List.map_cons, columns, columns, column_mapSpans, ih, hname]
    by_cases hseen : p.1.name ∈ seen
    · rw [if_pos hseen, if_pos hseen]
      rfl
    · rw [if_neg hseen, if_neg hseen]
      cases ctx.column p with
      | error err => rfl
      | ok v => exact (Except.mapError_map ..).symm

theorem columned_mapSpans (d : Declaration) :
    ctx.columned (d.mapSpans f) = (ctx.columned d).mapError (.mapSpans f) := by
  unfold columned
  simp only [Declaration.mapSpans, Block.get?_mapSpans, attributes_mapSpans]
  cases d.init.get? "columns" with
  | none => rfl
  | some t =>
    cases t with
    | object ps s =>
      simp only [Option.map_some, Data.mapSpans_object, columns_mapSpans]
      cases ctx.attributes d.id (d.init.get? "attributes") with
      | error err => rfl
      | ok attributes =>
        cases ctx.columns [] ps with
        | error err => rfl
        | ok columns => rfl
    | literal v s => rfl
    | environment name s => rfl
    | array es s => rfl
    | reference id => rfl

/-! ### Statements -/

theorem declaration_mapSpans (d : Declaration) :
    ctx.declaration (d.mapSpans f) = (ctx.declaration d).mapError (.mapSpans f) := by
  have hblock : ctx.block (d.mapSpans f).init = (ctx.block d.init).mapError (.mapSpans f) :=
    ctx.block_mapSpans f d.init
  rw [declaration_eq_map, declaration_eq_map, columned_mapSpans, hblock, Except.mapError_map,
    apply_ite (Except.mapError (CompileError.mapSpans f))]
  rfl

theorem enter_mapSpans (l : Ledger) (n : Node) :
    ctx.enter l (n.mapSpans f) = (ctx.enter l n).mapError (.mapSpans f) := by
  cases n with
  | use u =>
    have hpath : usePath (.use (u.mapSpans f)) = (usePath (.use u)).mapError (.mapSpans f) := by
      obtain ⟨path, pathSpan, span⟩ := u
      cases path <;> rfl
    rw [Node.mapSpans_use, enter, enter, hpath, Except.mapError_map]
  | schema body s =>
    rw [Node.mapSpans_schema, enter, enter]
    rfl
  | declaration d =>
    rw [Node.mapSpans_declaration, enter, enter, declaration_mapSpans]
    cases ctx.declaration d with
    | error err => rfl
    | ok r =>
      let x : Declared := ⟨d.kind, r.1, r.2, d.mergeable, some d.span⟩
      have henter := l.enter_mapSpans f x
      calc (l.enter { x with span := x.span.map f }).1.map
              (fun _ => (l.enter { x with span := x.span.map f }).2)
          = ((l.enter x).1.mapError (.mapSpans f)).map fun _ => (l.enter x).2 := by rw [henter]
        _ = ((l.enter x).1.map fun _ => (l.enter x).2).mapError (.mapSpans f) :=
            (Except.mapError_map ..).symm

/-- A source whose spans are changed compiles to the same configuration, or fails with the same
error at the changed place. -/
theorem schema_mapSpans (s : Schema) :
    ctx.schema (s.mapSpans f) = (ctx.schema s).mapError (.mapSpans f) := by
  have hbody : ∀ (ns : List Node) (l : Ledger), (ns.map (Node.mapSpans f)).foldlM ctx.enter l =
      (ns.foldlM ctx.enter l).mapError (.mapSpans f) := by
    intro ns
    induction ns with
    | nil =>
      intro l
      rfl
    | cons n ns ih =>
      intro l
      rw [List.map_cons, List.foldlM_cons, List.foldlM_cons, enter_mapSpans]
      cases ctx.enter l n with
      | error err => rfl
      | ok l' => exact ih l'
  unfold schema
  rw [Schema.mapSpans, hbody]
  cases s.body.foldlM ctx.enter .empty with
  | error err => rfl
  | ok l => rfl

end Context

end SchemaLang
