import SchemaLang.Proofs.Compile.Evaluate
import SchemaLang.Proofs.Ledger.Union

/-!
# The form of compiled declarations

What data compiles to is regular: a name that stands twice in an object is an error, and a
number that is none becomes the absent value.  The columns of a type or a model have distinct
names for the same reason.  So every compiled declaration is of the form on which merging is
the least upper bound.

## Main results

* `Context.regular_of_data` — data compiles to regular values.
* `Context.columns_valid` — columns have distinct names.
* `Context.valid_of_declaration` — **compiled declarations are of the form that merging
  needs.**
-/

namespace SchemaLang

namespace Context

variable {environment : Entries String}

theorem regular_literal (l : Literal) : (literal l).Regular := by
  cases l with
  | string s => exact .str _
  | integer n => exact .int n
  | float x =>
    rw [literal]
    by_cases hx : x.isFinite
    · rw [if_pos hx]
      exact .float x (Binary64.same_self_of_isFinite hx)
    · rw [if_neg hx]
      exact .null
  | boolean b => exact .bool b
  | null => exact .null

theorem not_mem_seen_of_properties {ctx : Context} {seen : List String} {k : Ident} {d : Data}
    {ps : List (Ident × Data)} {ms : List (String × Value)}
    (h : ctx.properties seen ((k, d) :: ps) = .ok ms) : k.name ∉ seen := by
  intro hseen
  rw [properties, if_pos hseen] at h
  cases h

mutual

/-- Data compiles to a regular value. -/
theorem regular_of_data : ∀ (t : Data) {w : Value}, data ⟨environment, none⟩ t = .ok w → w.Regular
  | .literal l _, w, h => by
    cases h
    exact regular_literal l
  | .environment name _, w, h => by
    cases h
    exact .str _
  | .object ps _, w, h => by
    obtain ⟨ms, hms, rfl⟩ := data_object_eq_ok h
    obtain ⟨hnodup, -, hregular⟩ := regular_of_properties ps hms
    exact Value.regular_obj hnodup hregular
  | .array es _, w, h => by
    obtain ⟨vs, hvs, rfl⟩ := data_array_eq_ok h
    exact .arr vs (regular_of_elements es hvs)
  | .reference id, w, h => by
    cases h
    exact .str _

theorem regular_of_elements : ∀ (es : List Data) {vs : List Value},
    elements ⟨environment, none⟩ es = .ok vs → ∀ v ∈ vs, v.Regular
  | [], vs, h => by
    cases h
    simp
  | e :: es, vs, h => by
    obtain ⟨v, vs', hv, hvs', rfl⟩ := elements_cons_eq_ok h
    exact List.forall_mem_cons.mpr ⟨regular_of_data e hv, regular_of_elements es hvs'⟩

/-- The names of members are distinct, and none was seen before. -/
theorem regular_of_properties : ∀ (ps : List (Ident × Data)) {seen : List String}
    {ms : List (String × Value)}, properties ⟨environment, none⟩ seen ps = .ok ms →
    (Entries.keys ms).Nodup ∧ (∀ k ∈ Entries.keys ms, k ∉ seen) ∧ ∀ e ∈ ms, e.2.Regular
  | [], seen, ms, h => by
    cases h
    simp
  | (k, d) :: ps, seen, ms, h => by
    have hseen := not_mem_seen_of_properties h
    obtain ⟨v, ms', hv, hms', rfl⟩ := properties_cons_eq_ok h
    obtain ⟨hnodup, hfresh, hregular⟩ := regular_of_properties ps hms'
    rw [Entries.keys_cons]
    refine ⟨List.nodup_cons.mpr ⟨?_, hnodup⟩, List.forall_mem_cons.mpr ⟨hseen, ?_⟩,
      List.forall_mem_cons.mpr ⟨regular_of_data d hv, hregular⟩⟩
    · intro hmem
      exact hfresh k.name hmem List.mem_cons_self
    · intro k' hk' hmem
      exact hfresh k' hk' (List.mem_cons_of_mem _ hmem)

end

theorem regular_of_block {b : Block} {v : Value} (h : block ⟨environment, none⟩ b = .ok v) :
    v.Regular := by
  obtain ⟨ms, hms, rfl⟩ := Except.map_eq_ok_iff.mp h
  obtain ⟨hnodup, -, hregular⟩ := regular_of_properties b.properties hms
  exact Value.regular_obj hnodup hregular

/-! ### Types and models -/

theorem regular_of_attributes {owner : Ident} {t : Option Data} {v : Value}
    (h : attributes ⟨environment, none⟩ owner t = .ok v) : v.Regular := by
  unfold attributes at h
  split at h
  · cases h
    exact .obj [] .nil (by simp)
  · obtain ⟨ms, hms, rfl⟩ := Except.map_eq_ok_iff.mp h
    obtain ⟨hnodup, -, hregular⟩ := regular_of_properties _ hms
    exact Value.regular_obj hnodup hregular
  · cases h

theorem isColumn_columnValue (name declared : String) {attributes : Value}
    (ha : attributes.Regular) : IsColumn (columnValue name declared attributes) := by
  refine ⟨Value.regular_obj (by simp [Entries.keys]) ?_, rfl⟩
  simp only [List.mem_cons, List.not_mem_nil, or_false]
  rintro e (rfl | rfl | rfl | rfl | rfl)
  · exact .str _
  · exact .str _
  · exact .bool _
  · exact .bool _
  · exact ha

theorem isColumn_of_column {p : Property} {v : Value} (h : column ⟨environment, none⟩ p = .ok v) :
    IsColumn v ∧ columnName v = p.1.name := by
  unfold column at h
  split at h
  · simp only at h
    split at h
    · obtain ⟨a, ha, rfl⟩ := Except.map_eq_ok_iff.mp h
      exact ⟨isColumn_columnValue _ _ (regular_of_attributes ha), rfl⟩
    · cases h
  · cases h

/-- The names of columns are distinct, and none was seen before. -/
theorem columns_valid {seen : List String} {ps : List Property} {vs : List Value}
    (h : columns ⟨environment, none⟩ seen ps = .ok vs) :
    columnsInclusion.valid vs ∧ ∀ c ∈ vs, columnName c ∉ seen := by
  induction ps generalizing seen vs with
  | nil =>
    cases h
    simp [columnsInclusion]
  | cons p ps ih =>
    rw [columns] at h
    by_cases hseen : p.1.name ∈ seen
    · rw [if_pos hseen] at h
      cases h
    · rw [if_neg hseen] at h
      cases hc : column ⟨environment, none⟩ p with
      | error e =>
        rw [hc] at h
        cases h
      | ok v =>
        rw [hc] at h
        obtain ⟨vs', hvs', rfl⟩ := Except.map_eq_ok_iff.mp h
        obtain ⟨⟨hcolumns, hnodup⟩, hfresh⟩ := ih hvs'
        obtain ⟨hv, hname⟩ := isColumn_of_column hc
        refine ⟨⟨List.forall_mem_cons.mpr ⟨hv, hcolumns⟩, ?_⟩, List.forall_mem_cons.mpr ⟨?_, ?_⟩⟩
        · rw [List.map_cons, List.nodup_cons, hname]
          refine ⟨fun hmem => ?_, hnodup⟩
          obtain ⟨c, hc, hcname⟩ := List.mem_map.mp hmem
          exact hfresh c hc (hcname ▸ List.mem_cons_self)
        · rw [hname]
          exact hseen
        · intro c hc hmem
          exact hfresh c hc (List.mem_cons_of_mem _ hmem)

theorem columned_eq_ok {ctx : Context} {d : Declaration} {v : Value} (h : ctx.columned d = .ok v) :
    ∃ attributes columns ps, ctx.attributes d.id (d.init.get? "attributes") = .ok attributes ∧
      ctx.columns [] ps = .ok columns ∧
      v = .obj [("name", .str d.id.name), ("mutable", .bool d.mergeable),
        ("attributes", attributes), ("columns", .arr columns)] := by
  unfold columned at h
  split at h
  · rename_i ps span hget
    cases ha : ctx.attributes d.id (d.init.get? "attributes") with
    | error e =>
      rw [ha] at h
      cases h
    | ok attributes =>
      cases hc : ctx.columns [] ps with
      | error e =>
        rw [ha, hc] at h
        cases h
      | ok columns =>
        rw [ha, hc] at h
        cases h
        exact ⟨attributes, columns, ps, rfl, hc, rfl⟩
  · cases h

theorem declaration_eq_map (ctx : Context) (d : Declaration) :
    ctx.declaration d =
      (if d.kind.isColumned then ctx.columned d else ctx.block d.init).map (d.id.name, ·) := by
  unfold declaration
  by_cases hkind : d.kind.isColumned
  · simp only [if_pos hkind]
    cases ctx.columned d <;> rfl
  · simp only [if_neg hkind]
    cases ctx.block d.init <;> rfl

theorem declaration_eq_ok {ctx : Context} {d : Declaration} {r : String × Value}
    (h : ctx.declaration d = .ok r) : r.1 = d.id.name ∧
      (if d.kind.isColumned then ctx.columned d else ctx.block d.init) = .ok r.2 := by
  rw [declaration_eq_map] at h
  obtain ⟨v, hv, rfl⟩ := Except.map_eq_ok_iff.mp h
  exact ⟨rfl, hv⟩

/-- A compiled declaration is of the form that merging needs. -/
theorem valid_of_declaration {d : Declaration} {r : String × Value}
    (h : declaration ⟨environment, none⟩ d = .ok r) : d.kind.inclusion.valid r.2 := by
  obtain ⟨-, hv⟩ := declaration_eq_ok h
  unfold Kind.inclusion
  by_cases hkind : d.kind.isColumned
  · rw [if_pos hkind] at hv ⊢
    obtain ⟨attributes, columns, ps, ha, hc, hr⟩ := columned_eq_ok hv
    refine ⟨_, hr, by simp [Entries.keys], fun k w hw => ?_⟩
    have hmem := Entries.mem_of_get? hw
    simp only [List.mem_cons, Prod.mk.injEq, List.not_mem_nil, or_false] at hmem
    rcases hmem with ⟨rfl, rfl⟩ | ⟨rfl, rfl⟩ | ⟨rfl, rfl⟩ | ⟨rfl, rfl⟩
    · exact .str _
    · exact .bool _
    · exact regular_of_attributes ha
    · exact ⟨columns, rfl, (columns_valid hc).1⟩
  · rw [if_neg hkind] at hv ⊢
    exact regular_of_block hv

end Context

end SchemaLang
