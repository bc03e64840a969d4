import SchemaLang.Analysis
import SchemaLang.Proofs.Compile.Spans
import SchemaLang.Proofs.Import.Splice
import SchemaLang.Proofs.Resolve.Failure

/-!
# What can go wrong with a source

Compiling looks once more at the form of what was read: that a type has columns, that a column
has a type, that a request has a path.  A tree that was read from a text has all of these, also
after other sources have been put in.  What is left is that two things of one name do not go
together, and the error then says where.

## Main definitions

* `CompileError.IsConflict` — two things of one name that do not go together, at a known place.
* `Node.Written` — a statement that can be written.

## Main results

* `Context.onlyConflicts_declaration` — declarations that can be written fail by a conflict.
* `Sources.written_of_expand` — putting sources in keeps to what can be written.
* `error_causes` — **how reading, compiling and resolving a source can fail.**
-/

namespace SchemaLang

/-- Two things of one name do not go together, and it is known where. -/
def CompileError.IsConflict (e : CompileError) : Prop :=
  ∃ name span, e = .duplicate name (some span)

theorem CompileError.isConflict_of_mapSpans {f : Span → Span} {e : CompileError}
    (h : (e.mapSpans f).IsConflict) : e.IsConflict := by
  obtain ⟨name, span, he⟩ := h
  cases e with
  | duplicate name' span' =>
    cases span' with
    | none => cases he
    | some span' => exact ⟨name', span', rfl⟩
  | invalidSchema s => cases he
  | invalidDeclaration kind s => cases he
  | invalidImport s => cases he
  | invalidColumn name' s => cases he
  | missingColumns s => cases he
  | unknownReference name' s => cases he
  | circularReference chain => cases he

/-! ### Results that fail by a conflict only -/

/-- A computation that fails by a conflict only. -/
def OnlyConflicts {α : Type} (x : Except CompileError α) : Prop :=
  ∀ e, x = .error e → e.IsConflict

namespace OnlyConflicts

variable {α β : Type} {x : Except CompileError α}

theorem ok (a : α) : OnlyConflicts (.ok a) := by
  intro e he
  cases he

theorem duplicate (name : String) (span : Span) :
    OnlyConflicts (.error (.duplicate name (some span)) : Except CompileError α) := by
  intro e he
  cases he
  exact ⟨name, span, rfl⟩

/-- An error is passed on. -/
theorem of_error (h : OnlyConflicts x) {e : CompileError} (hx : x = .error e) :
    OnlyConflicts (.error e : Except CompileError β) := by
  intro e' he'
  cases he'
  exact h e hx

theorem map (h : OnlyConflicts x) (g : α → β) : OnlyConflicts (x.map g) := by
  intro e he
  exact h e (Except.map_eq_error_iff.mp he)

theorem of_mapSpans {f : Span → Span} (h : OnlyConflicts (x.mapError (.mapSpans f))) :
    OnlyConflicts x := by
  rintro e rfl
  exact CompileError.isConflict_of_mapSpans (h _ rfl)

end OnlyConflicts

/-! ### Data and columns -/

/-- What is repeated is of the repeated form. -/
theorem Derives.of_mem_items {a : Ebnf} {d : Derivation} {ws : List Content}
    (h : Derives (.many a) d ws) : ∀ x ∈ d.items, ∃ xs, Derives a x xs := by
  generalize hmany : Ebnf.many a = e at h
  induction h with
  | stop => simp
  | more part rest _ ih =>
    cases hmany
    rw [Derivation.items_more]
    exact List.forall_mem_cons.mpr ⟨⟨_, part⟩, ih rfl⟩
  | _ => cases hmany

namespace Context

variable (environment : Entries String)

mutual

theorem onlyConflicts_data : ∀ t : Data, OnlyConflicts (data ⟨environment, none⟩ t)
  | .literal l _ => .ok _
  | .environment name _ => .ok _
  | .object ps _ => by
    rw [data]
    exact (onlyConflicts_properties ps []).map _
  | .array es _ => by
    rw [data]
    exact (onlyConflicts_elements es).map _
  | .reference id => .ok _

theorem onlyConflicts_elements : ∀ es : List Data, OnlyConflicts (elements ⟨environment, none⟩ es)
  | [] => .ok _
  | e :: es => by
    rw [elements]
    have hfirst := onlyConflicts_data e
    cases hv : data ⟨environment, none⟩ e with
    | error err => exact hfirst.of_error hv
    | ok v => exact (onlyConflicts_elements es).map _

theorem onlyConflicts_properties : ∀ (ps : List (Ident × Data)) (seen : List String),
    OnlyConflicts (properties ⟨environment, none⟩ seen ps)
  | [], seen => .ok _
  | (k, d) :: ps, seen => by
    rw [properties]
    by_cases hseen : k.name ∈ seen
    · rw [if_pos hseen]
      exact .duplicate _ _
    · rw [if_neg hseen]
      have hfirst := onlyConflicts_data d
      cases hv : data ⟨environment, none⟩ d with
      | error err => exact hfirst.of_error hv
      | ok v => exact (onlyConflicts_properties ps _).map _

end

theorem onlyConflicts_block (b : Block) : OnlyConflicts (block ⟨environment, none⟩ b) :=
  (onlyConflicts_properties environment b.properties []).map _

theorem onlyConflicts_attributes (owner : Ident) (b : Block) :
    OnlyConflicts (attributes ⟨environment, none⟩ owner (some b.toData)) :=
  (onlyConflicts_properties environment b.properties []).map _

/-- A column that can be written has a type, and its attributes are an object. -/
theorem onlyConflicts_column {d : Derivation} {ws : List Content}
    (h : Derives (.symbol .column) d ws) : OnlyConflicts (column ⟨environment, none⟩ d.column) := by
  cases h with
  | symbol h =>
    cases h with
    | seq _ h =>
      cases h with
      | seq _ h =>
        cases h with
        | seq _ h =>
          cases h with
          | seq _ h => exact (onlyConflicts_attributes environment _ _).map _

theorem onlyConflicts_columns {ps : List Property} (seen : List String)
    (h : ∀ p ∈ ps, OnlyConflicts (column ⟨environment, none⟩ p)) :
    OnlyConflicts (columns ⟨environment, none⟩ seen ps) := by
  induction ps generalizing seen with
  | nil => exact .ok _
  | cons p ps ih =>
    obtain ⟨hp, hps⟩ := List.forall_mem_cons.mp h
    rw [columns]
    by_cases hseen : p.1.name ∈ seen
    · rw [if_pos hseen]
      exact .duplicate _ _
    · rw [if_neg hseen]
      cases hv : column ⟨environment, none⟩ p with
      | error err => exact hp.of_error hv
      | ok v => exact (ih _ hps).map _

/-! ### Declarations -/

theorem exists_of_heading {kind : Kind} {body : Ebnf} {d : Derivation} {ws : List Content}
    (h : Derives (Ebnf.heading kind body) d ws) :
    ∃ keyword id bang rest xs, d = .seq keyword (.seq id (.seq bang rest)) ∧
      Derives body rest xs := by
  cases h with
  | seq _ h =>
    cases h with
    | seq _ h =>
      cases h with
      | seq _ hbody => exact ⟨_, _, _, _, _, rfl, hbody⟩

/-- A type or a model with attributes and columns, each column of the right form. -/
theorem onlyConflicts_columned (x : Declaration) {a c : Block} {s s' s'' : Span}
    (hinit : x.init = ⟨[(⟨"attributes", s⟩, a.toData), (⟨"columns", s'⟩, c.toData)], s''⟩)
    (hc : ∀ p ∈ c.properties, OnlyConflicts (column ⟨environment, none⟩ p)) :
    OnlyConflicts (columned ⟨environment, none⟩ x) := by
  have hattributes : x.init.get? "attributes" = some a.toData := by
    rw [hinit]
    rfl
  have hcolumns : x.init.get? "columns" = some (.object c.properties c.span) := by
    rw [hinit]
    rfl
  have hfirst := onlyConflicts_attributes environment x.id a
  have hsecond := onlyConflicts_columns environment [] hc
  unfold columned
  simp only [hcolumns, hattributes]
  cases ha : attributes ⟨environment, none⟩ x.id (some a.toData) with
  | error err => exact hfirst.of_error ha
  | ok attributes =>
    cases hv : columns ⟨environment, none⟩ [] c.properties with
    | error err => exact hsecond.of_error hv
    | ok columns => exact .ok _

/-- The columns that can be written between braces are of the right form. -/
theorem onlyConflicts_of_braced {d : Derivation} {ws : List Content}
    (h : Derives (Ebnf.braced (.symbol .column)) d ws) :
    ∀ p ∈ d.columns.properties, OnlyConflicts (column ⟨environment, none⟩ p) := by
  cases h with
  | seq _ h =>
    cases h with
    | seq hmany _ =>
      intro p hp
      obtain ⟨d', hd', rfl⟩ := List.mem_map.mp hp
      obtain ⟨xs, hcolumn⟩ := hmany.of_mem_items d' hd'
      exact onlyConflicts_column environment hcolumn

theorem onlyConflicts_declaration {kind : Kind} {d : Derivation} {ws : List Content}
    (h : Derives (.symbol (.declaration kind)) d ws) :
    OnlyConflicts (declaration ⟨environment, none⟩ d.declaration) := by
  rw [declaration_eq_map]
  refine OnlyConflicts.map ?_ _
  cases h with
  | symbol h =>
    cases kind with
    | enum | prop =>
      obtain ⟨keyword, id, bang, body, xs, rfl, -⟩ := exists_of_heading h
      exact onlyConflicts_block environment _
    | type | model =>
      obtain ⟨keyword, id, bang, body, xs, rfl, hbody⟩ := exists_of_heading h
      cases hbody with
      | seq _ hcolumns =>
        rw [if_pos (by rfl)]
        have hbraced := onlyConflicts_of_braced environment hcolumns
        exact onlyConflicts_columned environment _ rfl hbraced
    | plugin =>
      cases h with
      | seq _ h =>
        cases h with
        | seq _ _ => exact onlyConflicts_block environment _

end Context

/-- A statement that can be written: but for its spans, it is the tree of a derivation. -/
def Node.Written (n : Node) : Prop :=
  ∃ d ws, Derives Grammar.statement d ws ∧ n.mapSpans Span.forget = d.node

theorem exists_kind_of_anyDeclaration {d : Derivation} {ws : List Content}
    (h : Derives Grammar.anyDeclaration d ws) :
    ∃ kind, Derives (.symbol (.declaration kind)) d.chosen ws := by
  have hsymbol : ∀ {kind d}, Derives (.symbol (.declaration kind)) d ws →
      ∃ kind, Derives (.symbol (.declaration kind)) d.chosen ws := by
    intro kind d h
    cases h with
    | symbol h => exact ⟨kind, .symbol h⟩
  cases h with
  | left h => exact (hsymbol h :)
  | right h =>
    cases h with
    | left h => exact (hsymbol h :)
    | right h =>
      cases h with
      | left h => exact (hsymbol h :)
      | right h =>
        cases h with
        | left h => exact (hsymbol h :)
        | right h => exact (hsymbol h :)

theorem Schema.written_of_read {source : List Char} {s : Schema} (h : parseSchema source = .ok s) :
    ∀ n ∈ s.body, n.Written := by
  obtain ⟨d, hd, htree, -⟩ := derives_of_parseSchema h
  cases hd with
  | symbol hbody =>
    intro n hn
    have hmem : n.mapSpans Span.forget ∈ (s.mapSpans Span.forget).body :=
      List.mem_map_of_mem hn
    rw [htree] at hmem
    obtain ⟨d', hd', hn'⟩ := List.mem_map.mp hmem
    obtain ⟨xs, hstatement⟩ := hbody.of_mem_items d' hd'
    exact ⟨d', xs, hstatement, hn'.symm⟩

namespace Context

variable (environment : Entries String)

theorem onlyConflicts_ledger (l : Ledger) (x : Declared) (hspan : x.span.isSome) :
    OnlyConflicts (l.enter x).1 := by
  obtain ⟨span, hspan⟩ := Option.isSome_iff_exists.mp hspan
  unfold Ledger.enter
  rw [hspan]
  cases Entries.get? (l.config.sectionOf x.kind) x.name with
  | none => exact .ok _
  | some existing =>
    cases l.isFixed x.kind x.name <;> cases x.mergeable
    · exact .ok _
    · simp only
      split
      · exact .ok _
      · exact .duplicate _ _
    · exact .duplicate _ _
    · exact .ok _

theorem onlyConflicts_enter_declaration {x : Declaration}
    (h : OnlyConflicts (declaration ⟨environment, none⟩ x)) (l : Ledger) :
    OnlyConflicts (enter ⟨environment, none⟩ l (.declaration x)) := by
  rw [enter]
  cases hr : declaration ⟨environment, none⟩ x with
  | error err => exact h.of_error hr
  | ok r => exact (onlyConflicts_ledger l _ rfl).map _

theorem onlyConflicts_of_written {x : Declaration} (h : (Node.declaration x).Written) :
    OnlyConflicts (declaration ⟨environment, none⟩ x) := by
  obtain ⟨d, ws, hd, hn⟩ := h
  cases hd with
  | left hd =>
    cases hd with
    | symbol _ => cases hn
  | right hd =>
    obtain ⟨kind, hkind⟩ := exists_kind_of_anyDeclaration hd
    have hmoved : OnlyConflicts (declaration ⟨environment, none⟩ (x.mapSpans Span.forget)) := by
      rw [Node.declaration.inj hn]
      exact onlyConflicts_declaration environment hkind
    rw [declaration_mapSpans] at hmoved
    exact hmoved.of_mapSpans

theorem onlyConflicts_enter {n : Node} (h : n.Written) (l : Ledger) :
    OnlyConflicts (enter ⟨environment, none⟩ l n) := by
  obtain ⟨d, ws, hd, hn⟩ := h
  have hmoved : OnlyConflicts (enter ⟨environment, none⟩ l (n.mapSpans Span.forget)) := by
    rw [hn]
    cases hd with
    | left hd =>
      cases hd with
      | symbol _ => exact .ok _
    | right hd =>
      obtain ⟨kind, hkind⟩ := exists_kind_of_anyDeclaration hd
      have hconflicts := onlyConflicts_declaration environment hkind
      exact onlyConflicts_enter_declaration environment hconflicts l
  rw [enter_mapSpans] at hmoved
  exact hmoved.of_mapSpans

theorem onlyConflicts_schema {s : Schema} (h : ∀ n ∈ s.body, n.Written) :
    OnlyConflicts (schema ⟨environment, none⟩ s) := by
  have hbody : ∀ ns : List Node, (∀ n ∈ ns, n.Written) → ∀ l,
      OnlyConflicts (ns.foldlM (enter ⟨environment, none⟩) l) := by
    intro ns
    induction ns with
    | nil =>
      intro _ l
      exact .ok _
    | cons n ns ih =>
      intro hns l
      obtain ⟨hn, hns⟩ := List.forall_mem_cons.mp hns
      rw [List.foldlM_cons]
      cases hl : enter ⟨environment, none⟩ l n with
      | error err => exact (onlyConflicts_enter environment hn l).of_error hl
      | ok l' => exact ih hns l'
  have hall := hbody s.body h .empty
  unfold schema
  cases hl : s.body.foldlM (enter ⟨environment, none⟩) .empty with
  | error err => exact hall.of_error hl
  | ok l => exact .ok _

end Context

/-- Putting sources in keeps to what can be written. -/
theorem Sources.written_of_expand {sources : Sources} {root result : Schema}
    (hroot : ∀ n ∈ root.body, n.Written) (h : sources.expand root = .ok result) :
    ∀ n ∈ result.body, n.Written := by
  obtain ⟨paths, t, hyields, hnodes⟩ := Sources.yields_of_expand h
  intro n hn
  rw [← hnodes] at hn
  rcases hyields.source_of_node hn with hn | ⟨q, s, ⟨text, -, hs⟩, hn⟩
  · exact hroot n hn
  · exact Schema.written_of_read hs n hn

/-! ### Whole sources -/

theorem compileSchema_eq_error {environment : Entries String} {s : Schema} {e : Error}
    (hwritten : ∀ n ∈ s.body, n.Written) (h : compileSchema environment s = .error e) :
    ∃ cause, e = .compile cause ∧ cause.IsConflict := by
  unfold compileSchema at h
  cases hs : Context.schema ⟨environment, none⟩ s with
  | ok config =>
    rw [hs] at h
    cases h
  | error cause =>
    rw [hs] at h
    cases h
    exact ⟨cause, rfl, Context.onlyConflicts_schema environment hwritten cause hs⟩

theorem parse_eq_error {environment : Entries String} {source : List Char} {e : Error}
    (h : parse environment source = .error e) :
    (∃ cause, e = .parse defaultUnit cause) ∨ ∃ cause, e = .compile cause ∧ cause.IsConflict := by
  have hanalyze := Except.map_eq_error_iff.mp h
  unfold analyze readUnit at hanalyze
  cases hs : parseSchema source with
  | error cause =>
    rw [hs] at hanalyze
    cases hanalyze
    exact .inl ⟨cause, rfl⟩
  | ok s =>
    rw [hs] at hanalyze
    exact .inr (compileSchema_eq_error (Schema.written_of_read hs) hanalyze)

theorem parseWith_eq_error {environment : Entries String} {sources : Sources} {source : List Char}
    {e : Error} (h : parseWith environment sources source = .error e) :
    (∃ unit cause, e = .parse unit cause) ∨ (∃ cause, e = .compile cause ∧ cause.IsConflict) ∨
      (∃ path span, e = .expand (.notFound path span)) ∨
      ∃ chain span, e = .expand (.circular chain span) := by
  have hanalyze := Except.map_eq_error_iff.mp h
  unfold analyzeWith readUnit at hanalyze
  cases hs : parseSchema source with
  | error cause =>
    rw [hs] at hanalyze
    cases hanalyze
    exact .inl ⟨_, cause, rfl⟩
  | ok s =>
    rw [hs] at hanalyze
    simp only [Except.mapError_ok, Except.bind] at hanalyze
    cases hexpand : sources.expand s with
    | error e' =>
      rw [hexpand] at hanalyze
      cases hanalyze
      obtain ⟨p, -, hobstacle⟩ :=
        Sources.obstacle_of_expand (fun u hu => exists_string_of_use hs hu) hexpand
      cases hobstacle with
      | missing q span _ _ => exact .inr (.inr (.inl ⟨q, span, rfl⟩))
      | unreadable q text cause _ _ _ => exact .inl ⟨q, cause, rfl⟩
      | circle path q span _ => exact .inr (.inr (.inr ⟨_, span, rfl⟩))
    | ok result =>
      rw [hexpand] at hanalyze
      have hwritten := Sources.written_of_expand (Schema.written_of_read hs) hexpand
      exact .inr (.inl (compileSchema_eq_error hwritten hanalyze))

theorem finalize_eq_error {config : Config} {e : Error} (h : finalize config = .error e) :
    (∃ name, e = .compile (.unknownReference name none)) ∨
      ∃ chain, e = .compile (.circularReference chain) := by
  unfold finalize at h
  cases hr : config.resolve with
  | ok f =>
    rw [hr] at h
    cases h
  | error cause =>
    rw [hr] at h
    cases h
    obtain ⟨r, -, hobstacle⟩ := Config.obstacle_of_resolve hr
    cases hobstacle with
    | undefined n _ _ => exact .inl ⟨n, rfl⟩
    | circle path m _ _ _ _ _ => exact .inr ⟨_, rfl⟩

/-- **How a source can fail.**  Whatever was read, and whatever was put in, compiles or holds
two things of one name that do not go together, at a known place.  So a source by itself fails
when it cannot be read or holds such a conflict; with the sources it asks for, also when one of
them cannot be read, is missing, or leads back to itself; and a final form also fails when a
reference leads to nothing or back to itself. -/
theorem error_causes (environment : Entries String) (sources : Sources) (source : List Char) :
    (∀ s, parseSchema source = .ok s →
      (∀ e, Context.schema ⟨environment, none⟩ s = .error e → e.IsConflict) ∧
      ∀ result, sources.expand s = .ok result →
        ∀ e, Context.schema ⟨environment, none⟩ result = .error e → e.IsConflict) ∧
    (∀ e, parse environment source = .error e →
      (∃ cause, e = .parse defaultUnit cause) ∨ ∃ cause, e = .compile cause ∧ cause.IsConflict) ∧
    (∀ e, parseWith environment sources source = .error e →
      (∃ unit cause, e = .parse unit cause) ∨ (∃ cause, e = .compile cause ∧ cause.IsConflict) ∨
      (∃ path span, e = .expand (.notFound path span)) ∨
      ∃ chain span, e = .expand (.circular chain span)) ∧
    (∀ e, final environment source = .error e →
      parse environment source = .error e ∨
      (∃ name, e = .compile (.unknownReference name none)) ∨
      ∃ chain, e = .compile (.circularReference chain)) ∧
    ∀ e, finalWith environment sources source = .error e →
      parseWith environment sources source = .error e ∨
      (∃ name, e = .compile (.unknownReference name none)) ∨
      ∃ chain, e = .compile (.circularReference chain) := by
  refine ⟨fun s hs => ⟨?_, fun result hresult => ?_⟩, fun e => parse_eq_error,
    fun e => parseWith_eq_error, fun e he => ?_, fun e he => ?_⟩
  · exact Context.onlyConflicts_schema environment (Schema.written_of_read hs)
  · exact Context.onlyConflicts_schema environment
      (Sources.written_of_expand (Schema.written_of_read hs) hresult)
  · unfold final at he
    cases hparse : parse environment source with
    | error e' =>
      rw [hparse] at he
      cases he
      exact .inl rfl
    | ok config =>
      rw [hparse] at he
      exact .inr (finalize_eq_error he)
  · unfold finalWith at he
    cases hparse : parseWith environment sources source with
    | error e' =>
      rw [hparse] at he
      cases he
      exact .inl rfl
    | ok config =>
      rw [hparse] at he
      exact .inr (finalize_eq_error he)

end SchemaLang
