import SchemaLang.Analysis
import SchemaLang.Proofs.Compile.Order
import SchemaLang.Proofs.Resolve.Sound

/-!
# Compiled configurations

A declaration compiles to a regular object, and declarations of one kind and name come to one,
whether they are merged or one of them takes the place of the others.  So a configuration that
was compiled is sound, and what is known about sound configurations holds for every source.

## Main results

* `standing_induction` — what merging keeps holds of what declarations come to.
* `Context.sound_of_schema`, `sound_of_parse` — compiled configurations are sound.
* `final_fixed_iff` — **when the final form of a source is its own final form.**
-/

namespace SchemaLang

/-! ### What declarations come to -/

section Standing

variable {kind : Kind} {P : Value → Prop}
  (hmerge : ∀ e i, P e → P i → (mergeDeclared kind e i).agrees → P (mergeDeclared kind e i).value)

include hmerge

theorem foldlM_merge_induction {vs : List Value} {e m : Value} (he : P e) (hvs : ∀ v ∈ vs, P v)
    (h : vs.foldlM (fun e i => (mergeDeclared kind e i).agreed) e = some m) : P m := by
  induction vs generalizing e with
  | nil =>
    cases h
    exact he
  | cons v vs ih =>
    obtain ⟨hv, hvs⟩ := List.forall_mem_cons.mp hvs
    rw [List.foldlM_cons] at h
    obtain ⟨e', he', hrest⟩ := Option.bind_eq_some_iff.mp h
    obtain ⟨hagrees, rfl⟩ := Merged.agreed_eq_some_iff.mp he'
    exact ih (hmerge e v he hv hagrees) hvs hrest

/-- What holds of declarations and is kept by merging holds of what they come to. -/
theorem standing_induction {ds : List Declared} {v : Value} (hds : ∀ d ∈ ds, P d.value)
    (h : standing kind ds = some v) : P v := by
  unfold standing at h
  split at h
  · rename_i d hd
    cases h
    exact hds d (List.mem_of_find?_eq_some hd)
  · have hvs : ∀ w ∈ ds.map (·.value), P w := List.forall_mem_map.mpr hds
    cases hmap : ds.map (·.value) with
    | nil =>
      rw [hmap] at h
      cases h
    | cons w ws =>
      rw [hmap] at h hvs
      obtain ⟨hw, hws⟩ := List.forall_mem_cons.mp hvs
      exact foldlM_merge_induction hmerge hw hws h

end Standing

/-- The merge of two objects is an object. -/
theorem mergeDeclared_object (kind : Kind) {e i : Value} (he : ∃ ms, e = .obj ms)
    (hi : ∃ ns, i = .obj ns) : ∃ ms, (mergeDeclared kind e i).value = .obj ms := by
  obtain ⟨ms, rfl⟩ := he
  obtain ⟨ns, rfl⟩ := hi
  rw [mergeDeclared]
  by_cases hkind : kind.isColumned
  · rw [if_pos hkind]
    exact ⟨_, rfl⟩
  · rw [if_neg hkind]
    exact ⟨_, rfl⟩

/-- What merging needs of a declaration makes it regular. -/
theorem Kind.regular_of_valid {kind : Kind} {v : Value} (h : kind.inclusion.valid v) :
    v.Regular := by
  unfold inclusion at h
  by_cases hkind : kind.isColumned
  · rw [if_pos hkind] at h
    obtain ⟨ms, rfl, distinct, members⟩ := h
    refine .obj ms distinct fun k w hw => ?_
    have hvalid := members k w hw
    unfold memberInclusion at hvalid
    by_cases hk : k = "columns"
    · rw [if_pos hk] at hvalid
      obtain ⟨cs, rfl, hcolumns, -⟩ := hvalid
      exact .arr cs fun c hc => (hcolumns c hc).1
    · rw [if_neg hk] at hvalid
      exact hvalid
  · rw [if_neg hkind] at h
    exact h

/-! ### Compiled configurations are sound -/

namespace Context

open Ledger Ledger.Call

variable {environment : Entries String}

theorem object_of_declaration {ctx : Context} {d : Declaration} {r : String × Value}
    (h : ctx.declaration d = .ok r) : ∃ ms, r.2 = .obj ms := by
  obtain ⟨-, hv⟩ := declaration_eq_ok h
  by_cases hkind : d.kind.isColumned
  · rw [if_pos hkind] at hv
    obtain ⟨attributes, columns, ps, -, -, hr⟩ := columned_eq_ok hv
    exact ⟨_, hr⟩
  · rw [if_neg hkind] at hv
    obtain ⟨ms, -, hr⟩ := Except.map_eq_ok_iff.mp hv
    exact ⟨ms, hr.symm⟩

/-- A compiled configuration is sound. -/
theorem sound_of_schema {s : Schema} {c : Config}
    (h : schema ⟨environment, none⟩ s = .ok c) : c.Sound := by
  obtain ⟨cs, hcs, haccepts, rfl⟩ := schema_eq_ok_iff.mp h
  have hrecords := (calls_records cs).2 haccepts
  intro kind
  have hvalue : ∀ k v, Entries.get? ((Ledger.empty.calls cs).2.config.sectionOf kind) k = some v →
      kind.inclusion.valid v ∧ ∃ ms, v = .obj ms := by
    intro k v hv
    rw [hrecords.values] at hv
    refine standing_induction (P := fun v => kind.inclusion.valid v ∧ ∃ ms, v = .obj ms)
      (fun e i he hi hagrees => ?_) (fun x hx => ?_) hv
    · exact ⟨(isUnion_mergeDeclared kind he.1 hi.1).valid hagrees,
        mergeDeclared_object kind he.2 hi.2⟩
    · obtain ⟨hmem, hfor⟩ := List.mem_filter.mp hx
      obtain ⟨d, r, -, hr, rfl⟩ := exists_declaration hcs hmem
      obtain ⟨rfl, -⟩ : d.kind = kind ∧ r.1 = k := by simpa [Declared.isFor] using hfor
      exact ⟨valid_of_declaration hr, object_of_declaration hr⟩
  refine ⟨.obj _ ?_ fun k v hv => Kind.regular_of_valid (hvalue k v hv).1,
    fun k v hv => (hvalue k v hv).2⟩
  rw [hrecords.keys]
  exact nodup_eraseDups _

end Context

theorem sound_of_parse {environment : Entries String} {source : List Char} {c : Config}
    (h : parse environment source = .ok c) : c.Sound := by
  obtain ⟨a, ha, rfl⟩ := Except.map_eq_ok_iff.mp h
  obtain ⟨s, -, hs⟩ := Except.bind_eq_ok_iff.mp ha
  unfold compileSchema at hs
  split at hs
  · rename_i config hconfig
    cases hs
    exact Context.sound_of_schema hconfig
  · cases hs

/-! ### The final form of a final form -/

theorem forall_inert_iff {ss : List String} :
    (∀ s ∈ ss, Inert s) ↔
      ¬ ∃ w ∈ ss, (∃ n, referenceName? w = some n) ∨ unescape w ≠ w := by
  simp only [Inert, not_exists, not_and, not_or, not_not, Option.eq_none_iff_forall_ne_some]

theorem final_eq_ok_iff {environment : Entries String} {source : List Char} {f : FinalConfig} :
    final environment source = .ok f ↔
      ∃ c, parse environment source = .ok c ∧ c.resolve = .ok f := by
  rw [final, Except.bind_eq_ok_iff]
  refine exists_congr fun c => and_congr_right fun _ => ?_
  rw [finalize]
  cases c.resolve <;> simp [Except.mapError]

/-- **When the final form of a source is its own final form.**  This is so exactly when no
string of an enum or a plugin, or in the attributes of a type, a model or one of their
columns, is a reference or loses a dollar sign when it is read.  Whether the order of members
counts makes no difference. -/
theorem final_fixed_iff (environment : Entries String) (source : List Char) (c : Config)
    (f : FinalConfig) (hc : parse environment source = .ok c) (hf : c.resolve = .ok f) :
    (f.toConfig.resolve = .ok f ↔
      ¬ ∃ w ∈ f.strings, (∃ n, referenceName? w = some n) ∨ unescape w ≠ w) ∧
    ((∃ g, f.toConfig.resolve = .ok g ∧ g.same f = true) ↔
      ¬ ∃ w ∈ f.strings, (∃ n, referenceName? w = some n) ∨ unescape w ≠ w) := by
  have hsound : f.toConfig.Sound := (sound_of_parse hc).resolve hf
  rw [← forall_inert_iff]
  exact ⟨FinalConfig.resolve_eq_self_iff hsound, FinalConfig.resolve_same_iff hsound⟩

/-- The first source writes out what looks like a reference, which its final form then holds as
one.  The second source has a reference to a prop, whose value holds none. -/
theorem final_fixed_iff_dollars :
    let source := "enum E \x7b K \"$\x7bX\x7d\" \x7d".toList
    let source' := "prop P \x7b k \"$\" \x7d model M @p(P) \x7b a String @q(P) \x7d".toList
    (∃ c f, parse [] source = .ok c ∧ c.resolve = .ok f ∧ f.strings = ["$\x7bX\x7d"] ∧
      f.toConfig.resolve ≠ .ok f) ∧
    ∃ c f, parse [] source' = .ok c ∧ c.resolve = .ok f ∧ f.strings = ["$", "$"] ∧
      f.toConfig.resolve = .ok f := by
  intro source source'
  constructor
  · have hsome : (final [] source).toOption.map (·.strings) = some ["$\x7bX\x7d"] := by
      decide +kernel
    obtain ⟨f, hfinal, hstrings⟩ := Except.exists_of_toOption_map hsome
    obtain ⟨c, hc, hf⟩ := final_eq_ok_iff.mp hfinal
    refine ⟨c, f, hc, hf, hstrings, fun hfixed => ?_⟩
    have hnone := (final_fixed_iff [] source c f hc hf).1.mp hfixed
    have hreference : referenceName? "$\x7bX\x7d" = some "X" := by decide +kernel
    exact hnone ⟨"$\x7bX\x7d", by simp [hstrings], .inl ⟨"X", hreference⟩⟩
  · have hsome : (final [] source').toOption.map (·.strings) = some ["$", "$"] := by
      decide +kernel
    obtain ⟨f, hfinal, hstrings⟩ := Except.exists_of_toOption_map hsome
    obtain ⟨c, hc, hf⟩ := final_eq_ok_iff.mp hfinal
    refine ⟨c, f, hc, hf, hstrings, (final_fixed_iff [] source' c f hc hf).1.mpr ?_⟩
    have hinert : ∀ w ∈ f.strings, referenceName? w = none ∧ unescape w = w := by
      rw [hstrings]
      decide +kernel
    rintro ⟨w, hw, ⟨n, hn⟩ | hne⟩
    · rw [(hinert w hw).1] at hn
      cases hn
    · exact hne (hinert w hw).2

end SchemaLang
