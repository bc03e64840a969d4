import SchemaLang.Proofs.Compile.Sound

/-!
# The shape of compiled configurations

A type or a model compiles to a table: its name, whether it merges, its attributes, and columns
with distinct names.  Two tables merge into a table, and replacing references changes a table
only in its attributes and in those of its columns.  So every entry of a configuration has the
shape of its kind, however many declarations it comes from, and its final form has it too.

## Main definitions

* `Column`, `Table` — what columns, types and models compile to.
* `Config.Shaped` — every entry has the shape of its kind.
* `Config.Keeps` — a final form differs only where references may stand.

## Main results

* `Table.exists_merge` — tables merge into a table.
* `Context.shaped_of_schema` — compiled configurations have their shape.
* `Config.Shaped.keeps`, `Config.Shaped.resolve` — resolving keeps names, tables and the shape.
* `config_shape` — **the shape of the configuration of a source and of its final form.**
-/

namespace Except

theorem mapError_eq_ok_iff {ε ε' α : Type} {f : ε → ε'} {x : Except ε α} {a : α} :
    x.mapError f = .ok a ↔ x = .ok a := by
  cases x <;> simp [Except.mapError]

end Except

namespace SchemaLang

/-! ### Tables -/

/-- A compiled column. -/
structure Column where
  /-- The declared type, without what marks it as optional or multiple. -/
  type : String
  /-- The name. -/
  name : String
  /-- Whether there has to be a value. -/
  required : Bool
  /-- Whether there may be many values. -/
  multiple : Bool
  /-- What else is declared about it. -/
  attributes : Entries Value

namespace Column

/-- A column as an object. -/
def toValue (c : Column) : Value :=
  .obj [("type", .str c.type), ("name", .str c.name), ("required", .bool c.required),
    ("multiple", .bool c.multiple), ("attributes", .obj c.attributes)]

/-- A column without its attributes. -/
def bare (c : Column) : Column := { c with attributes := [] }

theorem names_of_bare {cs ds : List Column} (h : cs.map bare = ds.map bare) :
    cs.map (·.name) = ds.map (·.name) := by
  have hnames : (cs.map bare).map (·.name) = (ds.map bare).map (·.name) := by rw [h]
  rwa [List.map_map, List.map_map] at hnames

end Column

/-- A compiled type or model. -/
structure Table where
  /-- The name. -/
  name : String
  /-- Whether it merges with others of its name. -/
  mergeable : Bool
  /-- What else is declared about it. -/
  attributes : Entries Value
  /-- Its columns. -/
  columns : List Column
  /-- No two columns have the same name. -/
  distinct : (columns.map (·.name)).Nodup

namespace Table

/-- The members of a table. -/
def members (t : Table) : Entries Value :=
  [("name", .str t.name), ("mutable", .bool t.mergeable), ("attributes", .obj t.attributes),
    ("columns", .arr (t.columns.map Column.toValue))]

/-- A table as an object. -/
def toValue (t : Table) : Value := .obj t.members

/-- A table without its attributes and those of its columns. -/
def bare (t : Table) : Table where
  name := t.name
  mergeable := t.mergeable
  attributes := []
  columns := t.columns.map Column.bare
  distinct := by
    rw [List.map_map]
    exact t.distinct

end Table

/-! ### Merging tables -/

theorem Column.sameName_toValue (c d : Column) :
    mergeColumns.sameName c.toValue d.toValue ↔ d.name = c.name := by
  simp [mergeColumns.sameName, Column.toValue, Value.get?, Entries.get?_cons, Value.same]

/-- Columns merge into columns with distinct names. -/
theorem Column.exists_mergeColumns (ds : List Column) {cs : List Column}
    (hcs : (cs.map (·.name)).Nodup) :
    ∃ es : List Column, (es.map (·.name)).Nodup ∧
      (mergeColumns (cs.map toValue) (ds.map toValue)).value = es.map toValue := by
  induction ds generalizing cs with
  | nil => exact ⟨cs, hcs, rfl⟩
  | cons d ds ih =>
    rw [List.map_cons, mergeColumns]
    cases hfind : (cs.map toValue).find? (mergeColumns.sameName d.toValue) with
    | some e =>
      by_cases hsame : e.same d.toValue
      · simp only [if_pos hsame]
        exact ih hcs
      · simp only [if_neg hsame]
        exact ⟨cs, hcs, rfl⟩
    | none =>
      -- A column that is put at the end has a name that none of the others has.
      have hfresh : d.name ∉ cs.map (·.name) := by
        rw [List.mem_map]
        rintro ⟨c, hc, hname⟩
        rw [List.find?_eq_none] at hfind
        exact hfind _ (List.mem_map_of_mem hc) ((sameName_toValue d c).mpr hname)
      have hnodup : ((cs ++ [d]).map (·.name)).Nodup := by
        rw [List.map_append, List.map_singleton]
        exact List.nodup_append.mpr ⟨hcs, List.nodup_singleton _, by
          rintro a ha b hb rfl
          exact hfresh (List.mem_singleton.mp hb ▸ ha)⟩
      have hmap : cs.map toValue ++ [d.toValue] = (cs ++ [d]).map toValue := by simp
      simp only [hmap]
      exact ih hnodup

/-- What holds of members and is kept where one more is merged holds of what they come to, also
where a contradiction is met. -/
theorem mergeColumned_induction {P : Entries Value → Prop} {es is : Entries Value} (hes : P es)
    (hstep : ∀ es k i, P es → (k, i) ∈ is → ∃ e, Entries.get? es k = some e ∧
      P (Entries.insert es k (mergeColumnedMember k e i).value)) :
    P (mergeColumned es is).value := by
  induction is generalizing es with
  | nil => exact hes
  | cons entry is ih =>
    obtain ⟨k, i⟩ := entry
    obtain ⟨e, hget, hinsert⟩ := hstep es k i hes List.mem_cons_self
    rw [mergeColumned, hget]
    by_cases hagrees : (mergeColumnedMember k e i).agrees
    · simp only [if_pos hagrees]
      exact ih hinsert fun es k i hes hmem => hstep es k i hes (List.mem_cons_of_mem _ hmem)
    · simp only [if_neg hagrees]
      exact hinsert

namespace Table

/-- Merging one member of a table into a table leaves a table. -/
theorem exists_mergeMember (t u : Table) {k : String} {i : Value} (hi : (k, i) ∈ u.members) :
    ∃ e, Entries.get? t.members k = some e ∧
      ∃ w : Table, Entries.insert t.members k (mergeColumnedMember k e i).value = w.members ∧
        w.name = t.name ∧ w.mergeable = t.mergeable := by
  simp only [members, List.mem_cons, Prod.mk.injEq, List.not_mem_nil, or_false] at hi
  rcases hi with ⟨rfl, rfl⟩ | ⟨rfl, rfl⟩ | ⟨rfl, rfl⟩ | ⟨rfl, rfl⟩
  -- The name and the mark stay as they are, whether the other ones agree with them or not.
  · exact ⟨_, rfl, t, rfl, rfl, rfl⟩
  · exact ⟨_, rfl, t, rfl, rfl, rfl⟩
  · refine ⟨_, rfl, ⟨t.name, t.mergeable, (Value.mergeMembers t.attributes u.attributes).value,
      t.columns, t.distinct⟩, ?_, rfl, rfl⟩
    rfl
  · obtain ⟨cs, hcs, hmerge⟩ := Column.exists_mergeColumns u.columns t.distinct
    refine ⟨_, rfl, ⟨t.name, t.mergeable, t.attributes, cs, hcs⟩, ?_, rfl, rfl⟩
    have hmember : (mergeColumnedMember "columns" (.arr (t.columns.map Column.toValue))
        (.arr (u.columns.map Column.toValue))).value = .arr (cs.map Column.toValue) :=
      congrArg Value.arr hmerge
    rw [hmember]
    rfl

/-- Tables merge into a table, which has the name of the one merged into. -/
theorem exists_merge {kind : Kind} (hkind : kind.isColumned) (t u : Table) :
    ∃ w : Table, (mergeDeclared kind t.toValue u.toValue).value = w.toValue ∧
      w.name = t.name ∧ w.mergeable = t.mergeable := by
  have hmembers : ∃ w : Table, (mergeColumned t.members u.members).value = w.members ∧
      w.name = t.name ∧ w.mergeable = t.mergeable := by
    apply mergeColumned_induction (P := fun es => ∃ w : Table, es = w.members ∧
      w.name = t.name ∧ w.mergeable = t.mergeable) ⟨t, rfl, rfl, rfl⟩
    rintro _ k i ⟨w, rfl, hname, hmergeable⟩ hi
    obtain ⟨e, he, w', hw', hname', hmergeable'⟩ := exists_mergeMember w u hi
    exact ⟨e, he, w', hw', hname'.trans hname, hmergeable'.trans hmergeable⟩
  obtain ⟨w, hw, hkeeps⟩ := hmembers
  refine ⟨w, ?_, hkeeps⟩
  rw [toValue, toValue, mergeDeclared, if_pos hkind]
  exact congrArg Value.obj hw

end Table

/-! ### Compiling tables -/

namespace Context

open Ledger Ledger.Call

variable {environment : Entries String} {ctx : Context}

theorem object_of_attributes {owner : Ident} {t : Option Data} {v : Value}
    (h : ctx.attributes owner t = .ok v) : ∃ ms, v = .obj ms := by
  unfold attributes at h
  split at h
  · cases h
    exact ⟨[], rfl⟩
  · obtain ⟨ms, -, rfl⟩ := Except.map_eq_ok_iff.mp h
    exact ⟨ms, rfl⟩
  · cases h

theorem exists_column {p : Property} {v : Value} (h : ctx.column p = .ok v) :
    ∃ c : Column, v = c.toValue := by
  unfold column at h
  split at h
  · simp only at h
    split at h
    · obtain ⟨a, ha, rfl⟩ := Except.map_eq_ok_iff.mp h
      obtain ⟨ms, rfl⟩ := object_of_attributes ha
      exact ⟨⟨_, p.1.name, _, _, ms⟩, rfl⟩
    · cases h
  · cases h

theorem exists_columns {seen : List String} {ps : List Property} {vs : List Value}
    (h : ctx.columns seen ps = .ok vs) : ∃ cs : List Column, vs = cs.map Column.toValue := by
  induction ps generalizing seen vs with
  | nil =>
    cases h
    exact ⟨[], rfl⟩
  | cons p ps ih =>
    rw [columns] at h
    split at h
    · cases h
    · split at h
      · cases h
      · rename_i v hv
        obtain ⟨vs', hvs', rfl⟩ := Except.map_eq_ok_iff.mp h
        obtain ⟨c, rfl⟩ := exists_column hv
        obtain ⟨cs, rfl⟩ := ih hvs'
        exact ⟨c :: cs, rfl⟩

/-- A type or a model compiles to a table, which says whether it merges. -/
theorem exists_table {d : Declaration} {r : String × Value} (hkind : d.kind.isColumned)
    (h : declaration ⟨environment, none⟩ d = .ok r) :
    ∃ t : Table, r.2 = t.toValue ∧ t.name = d.id.name ∧ t.mergeable = d.mergeable := by
  obtain ⟨-, hv⟩ := declaration_eq_ok h
  rw [if_pos hkind] at hv
  obtain ⟨attributes, columns, ps, ha, hc, hr⟩ := columned_eq_ok hv
  obtain ⟨ms, rfl⟩ := object_of_attributes ha
  obtain ⟨cs, rfl⟩ := exists_columns hc
  have hnodup : (cs.map (·.name)).Nodup := by
    have hvalid := (columns_valid hc).1.2
    rw [List.map_map] at hvalid
    exact hvalid
  exact ⟨⟨d.id.name, d.mergeable, ms, cs, hnodup⟩, hr, rfl, rfl⟩

end Context

/-! ### Compiled configurations -/

/-- One of the declarations of a kind and name does not merge. -/
def Held (ds : List Declaration) (kind : Kind) (name : String) : Prop :=
  ∃ d ∈ ds, d.kind = kind ∧ d.id.name = name ∧ d.mergeable = false

instance (ds : List Declaration) (kind : Kind) (name : String) : Decidable (Held ds kind name) :=
  inferInstanceAs (Decidable (∃ d ∈ ds, _))

namespace Config

/-- Every entry has the shape of its kind, where `ds` are the declarations: a type or a model is
a table with the name of the entry, which does not merge exactly if one of its declarations does
not, and any other entry is an object. -/
structure Shaped (ds : List Declaration) (c : Config) : Prop where
  tables : ∀ kind, kind.isColumned → ∀ name v, (name, v) ∈ c.sectionOf kind →
    ∃ t : Table, v = t.toValue ∧ t.name = name ∧ (t.mergeable = false ↔ Held ds kind name)
  objects : ∀ kind, ¬ kind.isColumned → ∀ name v, (name, v) ∈ c.sectionOf kind →
    ∃ ms, v = .obj ms

/-- A final form has the names of a configuration in their order, and its types and models differ
only in their attributes and in those of their columns. -/
structure Keeps (c : Config) (f : FinalConfig) : Prop where
  names : ∀ kind, kind ≠ .prop →
    Entries.keys (f.toConfig.sectionOf kind) = Entries.keys (c.sectionOf kind)
  tables : ∀ kind, kind.isColumned →
    List.Forall₂ (fun e e' => ∃ t t' : Table, e.2 = t.toValue ∧ e'.2 = t'.toValue ∧
      t'.bare = t.bare) (c.sectionOf kind) (f.toConfig.sectionOf kind)

end Config

namespace Context

open Ledger Ledger.Call

variable {environment : Entries String} {s : Schema} {c : Config} {kind : Kind} {name : String}

section Calls

variable {cs : List Call}
  (hcs : List.Forall₂ (fun n c => call? ⟨environment, none⟩ n = .ok c) s.body cs)

include hcs

/-- What is entered for a kind and name comes from a declaration of them. -/
theorem exists_declaration_of_entry {x : Declared} (hx : x ∈ entries cs kind name) :
    ∃ d r, d ∈ s.declarations ∧ d.kind = kind ∧ d.id.name = name ∧
      declaration ⟨environment, none⟩ d = .ok r ∧ x.value = r.2 ∧ x.mergeable = d.mergeable := by
  obtain ⟨hmem, hfor⟩ := List.mem_filter.mp hx
  obtain ⟨d, r, hd, hr, rfl⟩ := exists_declaration hcs hmem
  obtain ⟨rfl, rfl⟩ : d.kind = kind ∧ r.1 = name := by simpa [Declared.isFor] using hfor
  exact ⟨d, r, Schema.mem_declarations_iff.mpr hd, rfl, (declaration_eq_ok hr).1.symm, hr, rfl, rfl⟩

theorem exists_entry_of_declaration {d : Declaration} (hd : d ∈ s.declarations) :
    ∃ x ∈ entries cs d.kind d.id.name, x.mergeable = d.mergeable := by
  obtain ⟨pre, post, hbody⟩ := List.append_of_mem (Schema.mem_declarations_iff.mp hd)
  rw [hbody] at hcs
  obtain ⟨xs, v, ys, rfl, -, -, -⟩ := forall₂_call_around.mp hcs
  refine ⟨⟨d.kind, d.id.name, v, d.mergeable, some d.span⟩, List.mem_filter.mpr ⟨?_, ?_⟩, rfl⟩
  · simp [declarations]
  · simp [Declared.isFor]

theorem held_iff_any :
    Held s.declarations kind name ↔ (entries cs kind name).any (!·.mergeable) := by
  rw [List.any_eq_true]
  constructor
  · rintro ⟨d, hd, rfl, rfl, hm⟩
    obtain ⟨x, hx, hxm⟩ := exists_entry_of_declaration hcs hd
    exact ⟨x, hx, by simp [hxm, hm]⟩
  · rintro ⟨x, hx, hm⟩
    obtain ⟨d, r, hd, hkind, hname, -, -, hxm⟩ := exists_declaration_of_entry hcs hx
    exact ⟨d, hd, hkind, hname, by simpa [hxm] using hm⟩

/-- What is entered for a type or a model is a table. -/
theorem exists_table_of_entry (hkind : kind.isColumned) {x : Declared}
    (hx : x ∈ entries cs kind name) :
    ∃ t : Table, x.value = t.toValue ∧ t.name = name ∧ t.mergeable = x.mergeable := by
  obtain ⟨d, r, -, rfl, rfl, hr, hvalue, hm⟩ := exists_declaration_of_entry hcs hx
  rw [hvalue, hm]
  exact exists_table hkind hr

/-- What declarations of a type or a model come to is a table, which does not merge exactly if
one of them does not. -/
theorem exists_table_of_standing (hkind : kind.isColumned) {v : Value}
    (hv : standing kind (entries cs kind name) = some v) :
    ∃ t : Table, v = t.toValue ∧ t.name = name ∧
      (t.mergeable = false ↔ Held s.declarations kind name) := by
  rw [held_iff_any hcs]
  cases hb : (entries cs kind name).find? (!·.mergeable) with
  | some b =>
    rw [standing_of_held hb] at hv
    cases hv
    obtain ⟨t, ht, hname, hm⟩ := exists_table_of_entry hcs hkind (List.mem_of_find?_eq_some hb)
    have hheld : b.mergeable = false := by simpa using List.find?_some hb
    exact ⟨t, ht, hname, iff_of_true (hm.trans hheld) (any_of_held hb)⟩
  | none =>
    have hfree : ∀ x ∈ entries cs kind name, x.mergeable := by simpa using hb
    -- All of them merge, and so does what they come to.
    have hmerged : ∃ t : Table, v = t.toValue ∧ t.name = name ∧ t.mergeable = true := by
      refine standing_induction
        (P := fun v => ∃ t : Table, v = t.toValue ∧ t.name = name ∧ t.mergeable = true)
        ?_ (fun x hx => ?_) hv
      · rintro _ _ ⟨t, rfl, hname, hm⟩ ⟨u, rfl, -, -⟩ -
        obtain ⟨w, hw, hwname, hwm⟩ := Table.exists_merge hkind t u
        exact ⟨w, hw, hwname.trans hname, hwm.trans hm⟩
      · obtain ⟨t, ht, hname, hm⟩ := exists_table_of_entry hcs hkind hx
        exact ⟨t, ht, hname, hm.trans (hfree x hx)⟩
    obtain ⟨t, ht, hname, hm⟩ := hmerged
    refine ⟨t, ht, hname, ?_⟩
    rw [hm, any_of_free hfree]
    simp

end Calls

/-- A compiled configuration has its shape. -/
theorem shaped_of_schema (h : schema ⟨environment, none⟩ s = .ok c) : c.Shaped s.declarations := by
  have hsound := sound_of_schema h
  have hget : ∀ {kind name v}, (name, v) ∈ c.sectionOf kind →
      Entries.get? (c.sectionOf kind) name = some v :=
    fun hmem => Entries.get?_of_mem (hsound _).regular.distinct hmem
  constructor
  · intro kind hkind name v hmem
    obtain ⟨cs, hcs, haccepts, rfl⟩ := schema_eq_ok_iff.mp h
    apply exists_table_of_standing hcs hkind
    rw [← ((calls_records cs).2 haccepts).values]
    exact hget hmem
  · intro kind _ name v hmem
    exact (hsound kind).objects name v (hget hmem)

end Context

/-! ### Final forms -/

section Inline

variable {find : String → Except CompileError Value}

theorem Value.object_of_inline {ms : Entries Value} {w : Value}
    (h : (Value.obj ms).inline find = .ok w) : ∃ ns, w = .obj ns := by
  rw [Value.inline] at h
  obtain ⟨ns, -, rfl⟩ := Except.map_eq_ok_iff.mp h
  exact ⟨ns, rfl⟩

/-- Replacing references in a column changes its attributes. -/
theorem Column.exists_inline {c : Column} {w : Value}
    (h : c.toValue.inlineAttributes find = .ok w) :
    ∃ d : Column, w = d.toValue ∧ d.bare = c.bare := by
  obtain ⟨hnone, -⟩ | ⟨ms, a, b, hms, ha, hab, rfl⟩ := Replaces.changeAt_cases h
  · cases hnone
  · cases hms
    cases ha
    obtain ⟨ns, rfl⟩ := Value.object_of_inline hab
    exact ⟨⟨c.type, c.name, c.required, c.multiple, ns⟩, rfl, rfl⟩

theorem Column.exists_inlineColumns {cs : List Column} {ws : List Value}
    (h : (cs.map toValue).mapM (Value.inlineAttributes find) = .ok ws) :
    ∃ ds : List Column, ws = ds.map toValue ∧ ds.map bare = cs.map bare := by
  rw [Except.mapM_eq_ok_iff, List.forall₂_map_left_iff] at h
  induction h with
  | nil => exact ⟨[], rfl, rfl⟩
  | cons hc _ ih =>
    obtain ⟨d, rfl, hd⟩ := exists_inline hc
    obtain ⟨ds, rfl, hds⟩ := ih
    exact ⟨d :: ds, rfl, by simp [hd, hds]⟩

/-- Replacing references in a table changes its attributes and those of its columns. -/
theorem Table.exists_inline {t : Table} {w : Value}
    (h : t.toValue.inlineColumned find = .ok w) :
    ∃ u : Table, w = u.toValue ∧ u.bare = t.bare := by
  obtain ⟨v, hv, hw⟩ := Except.bind_eq_ok_iff.mp h
  obtain ⟨hnone, -⟩ | ⟨ms, a, b, hms, ha, hab, rfl⟩ := Replaces.changeAt_cases hv
  · cases hnone
  · cases hms
    cases ha
    obtain ⟨attributes, rfl⟩ := Value.object_of_inline hab
    -- The columns are looked up in what has the new attributes already.
    obtain ⟨hnone, -⟩ | ⟨ms, a, b, hms, ha, hab, rfl⟩ := Replaces.changeAt_cases hw
    · cases hnone
    · cases hms
      cases ha
      obtain ⟨ws, hws, rfl⟩ := Except.map_eq_ok_iff.mp hab
      obtain ⟨ds, rfl, hds⟩ := Column.exists_inlineColumns hws
      have hnodup : (ds.map (·.name)).Nodup := by
        rw [Column.names_of_bare hds]
        exact t.distinct
      refine ⟨⟨t.name, t.mergeable, attributes, ds, hnodup⟩, rfl, ?_⟩
      simp only [bare, hds]

end Inline

namespace Config

variable {c : Config} {f : FinalConfig} {ds : List Declaration}

/-- The entries of a final form one by one. -/
theorem forall₂_of_resolve (hf : c.resolve = .ok f) {kind : Kind} (hkind : kind ≠ .prop) :
    List.Forall₂ (fun e e' => e'.1 = e.1 ∧ (kind.form e.2).inline (c.plain []) = .ok e'.2)
      (c.sectionOf kind) (f.toConfig.sectionOf kind) := by
  have hentries := resolve_eq_ok_iff.mp hf kind hkind
  rw [Target.inlineEntries, Except.mapM_eq_ok_iff] at hentries
  refine hentries.imp fun e e' he => ?_
  obtain ⟨w, hw, rfl⟩ := Except.map_eq_ok_iff.mp he
  exact ⟨rfl, hw⟩

theorem exists_table_of_form {kind : Kind} (hkind : kind.isColumned) {t : Table}
    {find : String → Except CompileError Value} {w : Value}
    (h : (kind.form t.toValue).inline find = .ok w) :
    ∃ u : Table, w = u.toValue ∧ u.bare = t.bare := by
  cases kind with
  | type => exact Table.exists_inline h
  | model => exact Table.exists_inline h
  | _ => cases hkind

theorem object_of_form {kind : Kind} (hkind : ¬ kind.isColumned) {ms : Entries Value}
    {find : String → Except CompileError Value} {w : Value}
    (h : (kind.form (.obj ms)).inline find = .ok w) : ∃ ns, w = .obj ns := by
  cases kind with
  | type => exact absurd rfl hkind
  | model => exact absurd rfl hkind
  | _ => exact Value.object_of_inline h

/-- Resolving keeps names and tables. -/
theorem Shaped.keeps (h : c.Shaped ds) (hf : c.resolve = .ok f) : c.Keeps f := by
  constructor
  · intro kind hkind
    have hentries := resolve_eq_ok_iff.mp hf kind hkind
    exact Entries.keys_of_mapM (g := fun v => (kind.form v).inline (c.plain [])) hentries
  · intro kind hkind
    have hprop : kind ≠ .prop := by
      rintro rfl
      cases hkind
    have htables : ∀ e ∈ c.sectionOf kind, ∃ t : Table, e.2 = t.toValue := by
      intro e he
      obtain ⟨t, ht, -⟩ := h.tables kind hkind e.1 e.2 he
      exact ⟨t, ht⟩
    refine ((List.forall₂_and_left _ _).mpr ⟨htables, forall₂_of_resolve hf hprop⟩).imp ?_
    rintro e e' ⟨⟨t, ht⟩, -, hinline⟩
    rw [ht] at hinline
    obtain ⟨u, hu, hbare⟩ := exists_table_of_form hkind hinline
    exact ⟨t, u, ht, hu, hbare⟩

/-- The final form has the shape of the configuration. -/
theorem Shaped.resolve (h : c.Shaped ds) (hf : c.resolve = .ok f) : f.toConfig.Shaped ds := by
  have hentry : ∀ {kind name w}, (name, w) ∈ f.toConfig.sectionOf kind →
      ∃ v, (name, v) ∈ c.sectionOf kind ∧ (kind.form v).inline (c.plain []) = .ok w := by
    intro kind name w hmem
    have hprop : kind ≠ .prop := by
      rintro rfl
      cases hmem
    obtain ⟨⟨_, v⟩, hv, rfl, hinline⟩ :=
      Context.exists_of_forall₂ (forall₂_of_resolve hf hprop) hmem
    exact ⟨v, hv, hinline⟩
  constructor
  · intro kind hkind name w hmem
    obtain ⟨v, hv, hinline⟩ := hentry hmem
    obtain ⟨t, rfl, hname, hheld⟩ := h.tables kind hkind name v hv
    obtain ⟨u, hu, hbare⟩ := exists_table_of_form hkind hinline
    have huname : u.bare.name = t.bare.name := by rw [hbare]
    have humergeable : u.bare.mergeable = t.bare.mergeable := by rw [hbare]
    refine ⟨u, hu, huname.trans hname, ?_⟩
    rw [← hheld]
    exact Eq.congr humergeable rfl
  · intro kind hkind name w hmem
    obtain ⟨v, hv, hinline⟩ := hentry hmem
    obtain ⟨ms, rfl⟩ := h.objects kind hkind name v hv
    exact object_of_form hkind hinline

end Config

/-! ### Sources -/

theorem shaped_of_compileSchema {environment : Entries String} {s : Schema} {a : Analysis}
    (h : compileSchema environment s = .ok a) : a.config.Shaped s.declarations := by
  unfold compileSchema at h
  split at h
  · rename_i config hconfig
    cases h
    exact Context.shaped_of_schema hconfig
  · cases h

/-- **The shape of the configuration of a source and of its final form.**  Every type and model
is a table with the name of its entry and columns with distinct names, and does not merge exactly
if one of its declarations, which may come from the sources asked for, does not.  All other
entries are objects.  A final form has the same names in the same order and the same shape, and
its types and models differ only in their attributes and in those of their columns. -/
theorem config_shape (environment : Entries String) (sources : Sources) (source : List Char) :
    (∀ c, parse environment source = .ok c →
      ∃ s, parseSchema source = .ok s ∧ c.Shaped s.declarations ∧
        ∀ f, c.resolve = .ok f → c.Keeps f ∧ f.toConfig.Shaped s.declarations) ∧
    ∀ c, parseWith environment sources source = .ok c →
      ∃ s t, parseSchema source = .ok s ∧ sources.expand s = .ok t ∧ c.Shaped t.declarations ∧
        ∀ f, c.resolve = .ok f → c.Keeps f ∧ f.toConfig.Shaped t.declarations := by
  constructor
  · intro c hc
    obtain ⟨a, ha, rfl⟩ := Except.map_eq_ok_iff.mp hc
    obtain ⟨s, hs, hcompile⟩ := Except.bind_eq_ok_iff.mp ha
    have hshaped := shaped_of_compileSchema hcompile
    refine ⟨s, Except.mapError_eq_ok_iff.mp hs, hshaped, fun f hf => ?_⟩
    exact ⟨hshaped.keeps hf, hshaped.resolve hf⟩
  · intro c hc
    obtain ⟨a, ha, rfl⟩ := Except.map_eq_ok_iff.mp hc
    obtain ⟨t, ht, hcompile⟩ := Except.bind_eq_ok_iff.mp ha
    obtain ⟨s, hs, hexpand⟩ := Except.bind_eq_ok_iff.mp ht
    have hshaped := shaped_of_compileSchema hcompile
    refine ⟨s, t, Except.mapError_eq_ok_iff.mp hs, hexpand, hshaped, fun f hf => ?_⟩
    exact ⟨hshaped.keeps hf, hshaped.resolve hf⟩

/-- A model from two sources, one of them asked for, and a type that one of them holds.  There are
references in the attributes of the model and of a column. -/
theorem config_shape_across :
    let asked := "prop P \x7b k 1 \x7d model M \x7b b Int[]? @q(P) \x7d type T ! \x7b x Int \x7d"
    let sources : Sources := [("a", asked)]
    let source := "use \"a\" model M @p(P) \x7b a String \x7d type T \x7b y Int \x7d".toList
    ∃ c f s t, parseWith [] sources source = .ok c ∧ c.resolve = .ok f ∧
      parseSchema source = .ok s ∧ sources.expand s = .ok t ∧
      Entries.keys f.models = ["M"] ∧ Entries.keys f.types = ["T"] ∧
      ¬ Held t.declarations .model "M" ∧ Held t.declarations .type "T" ∧
      c.Shaped t.declarations ∧ c.Keeps f ∧ f.toConfig.Shaped t.declarations := by
  intro asked sources source
  have hsome : (finalWith [] sources source).toOption.map
      (fun f => (Entries.keys f.models, Entries.keys f.types)) = some (["M"], ["T"]) := by
    decide +kernel
  obtain ⟨f, hfinal, hkeys⟩ := Except.exists_of_toOption_map hsome
  obtain ⟨c, hc, hf⟩ := Except.bind_eq_ok_iff.mp hfinal
  rw [finalize, Except.mapError_eq_ok_iff] at hf
  obtain ⟨hmodels, htypes⟩ := Prod.mk.inj hkeys
  obtain ⟨s, t, hs, ht, hshaped, hfinal⟩ := (config_shape [] sources source).2 c hc
  have hheld : (parseSchema source).toOption.any fun s => (sources.expand s).toOption.any fun t =>
      ¬ Held t.declarations .model "M" ∧ Held t.declarations .type "T" := by
    decide +kernel
  simp only [hs, ht, Except.toOption, Option.any_some, decide_eq_true_iff] at hheld
  exact ⟨c, f, s, t, hc, hf, hs, ht, hmodels, htypes, hheld.1, hheld.2, hshaped, hfinal f hf⟩

end SchemaLang
