import SchemaLang.Proofs.Ledger.History

/-!
# The order of calls

Declarations that all merge may be entered in any order: the ledgers hold the same, up to
the order of names, members and columns.  A declaration that does not merge may stand anywhere
among the others of its name, as long as those before it merge with each other; what stands
for the name is its value in any case.

## Main definitions

* `Config.Alike` — configurations that are the same up to order.

## Main results

* `Ledger.accepts_perm`, `Ledger.alike_perm` — declarations that merge, in any order.
* `Ledger.accepts_around`, `Ledger.accepts_around_iff` — a declaration that does not merge,
  among others.
* `Ledger.get?_around` — its value stands for its name.
-/

namespace SchemaLang

/-- Configurations with the same names in every section, which stand for declarations that are
equal up to the order of members and columns. -/
structure Config.Alike (c c' : Config) : Prop where
  names : ∀ kind, (Entries.keys (c.sectionOf kind)).Perm (Entries.keys (c'.sectionOf kind))
  values : ∀ kind name v v', Entries.get? (c.sectionOf kind) name = some v →
    Entries.get? (c'.sectionOf kind) name = some v' → kind.alike v v'

theorem nodup_eraseDups (names : List String) : names.eraseDups.Nodup := by
  induction names using List.reverseRecOn with
  | nil => exact .nil
  | append_singleton names name ih =>
    rw [eraseDups_concat, noteName]
    by_cases hmem : name ∈ names.eraseDups
    · rw [if_pos hmem]
      exact ih
    · rw [if_neg hmem]
      exact ih.append (List.nodup_singleton name) (by simpa using hmem)

theorem eraseDups_perm {names names' : List String} (h : names.Perm names') :
    names.eraseDups.Perm names'.eraseDups := by
  refine (List.perm_ext_iff_of_nodup (nodup_eraseDups _) (nodup_eraseDups _)).mpr fun name => ?_
  rw [List.mem_eraseDups, List.mem_eraseDups, h.mem_iff]

theorem Agree.perm {kind : Kind} {vs ws : List Value} (h : Agree kind vs) (hperm : vs.Perm ws)
    (hvs : ∀ v ∈ vs, kind.inclusion.valid v) : Agree kind ws := by
  rcases h with rfl | h
  · exact .inl hperm.nil_eq.symm
  · obtain ⟨m, hm⟩ := Option.isSome_iff_exists.mp h
    obtain ⟨m', hm', -⟩ := mergeAll_perm kind hvs hperm hm
    exact .inr (Option.isSome_of_eq_some hm')

namespace Ledger

open Call

/-! ### Declarations that merge -/

section Perm

variable {cs cs' : List Call} (hperm : cs.Perm cs')
  (hvalid : ∀ d ∈ declarations cs, d.kind.inclusion.valid d.value)
  (hm : ∀ d ∈ declarations cs, d.mergeable)

theorem values_valid (hvalid : ∀ d ∈ declarations cs, d.kind.inclusion.valid d.value) (kind : Kind)
    (name : String) : ∀ v ∈ (entries cs kind name).map (·.value), kind.inclusion.valid v := by
  intro v hv
  obtain ⟨d, hd, rfl⟩ := List.mem_map.mp hv
  obtain ⟨hmem, hfor⟩ := List.mem_filter.mp hd
  have hkind : d.kind = kind ∧ d.name = name := by simpa [Declared.isFor] using hfor
  rw [← hkind.1]
  exact hvalid d hmem

theorem entries_mergeable (hm : ∀ d ∈ declarations cs, d.mergeable) (kind : Kind) (name : String) :
    ∀ d ∈ entries cs kind name, d.mergeable :=
  fun d hd => hm d (List.mem_filter.mp hd).1

include hperm

theorem declarations_perm : (declarations cs).Perm (declarations cs') := hperm.filterMap _

theorem entries_perm (kind : Kind) (name : String) :
    (entries cs kind name).Perm (entries cs' kind name) :=
  (declarations_perm hperm).filter _

theorem names_perm (kind : Kind) : (names cs kind).Perm (names cs' kind) :=
  ((declarations_perm hperm).filter _).map _

include hvalid hm

theorem accepts_perm (h : empty.Accepts cs) : empty.Accepts cs' := by
  have hm' : ∀ d ∈ declarations cs', d.mergeable :=
    fun d hd => hm d ((declarations_perm hperm).mem_iff.mpr hd)
  rw [(calls_records cs').1]
  intro kind name
  have hcompatible := (calls_records cs).1.mp h kind name
  rw [compatible_of_free (entries_mergeable hm kind name)] at hcompatible
  rw [compatible_of_free (entries_mergeable hm' kind name)]
  exact hcompatible.perm ((entries_perm hperm kind name).map _) (values_valid hvalid kind name)

theorem alike_perm (h : empty.Accepts cs) :
    (empty.calls cs).2.config.Alike (empty.calls cs').2.config := by
  have hm' : ∀ d ∈ declarations cs', d.mergeable :=
    fun d hd => hm d ((declarations_perm hperm).mem_iff.mpr hd)
  have hrecords := (calls_records cs).2 h
  have hrecords' := (calls_records cs').2 (accepts_perm hperm hvalid hm h)
  constructor
  · intro kind
    rw [hrecords.keys, hrecords'.keys]
    exact eraseDups_perm (names_perm hperm kind)
  · intro kind name v v' hv hv'
    rw [hrecords.values, standing_of_free (entries_mergeable hm kind name)] at hv
    rw [hrecords'.values, standing_of_free (entries_mergeable hm' kind name)] at hv'
    obtain ⟨m, hmerged, halike⟩ := mergeAll_perm kind (values_valid hvalid kind name)
      ((entries_perm hperm kind name).map _) hv
    rw [hv'] at hmerged
    cases hmerged
    exact halike

end Perm

/-! ### A declaration that does not merge -/

section Around

variable {kind : Kind} {name : String} {d : Declared} {pre post : List Call}

theorem entries_append (cs cs' : List Call) (kind : Kind) (name : String) :
    entries (cs ++ cs') kind name = entries cs kind name ++ entries cs' kind name := by
  simp [entries, declarations]

theorem entries_around (hfor : d.isFor kind name) :
    entries (pre ++ .enter d :: post) kind name =
      entries pre kind name ++ d :: entries post kind name := by
  simp [entries, declarations, hfor]

theorem entries_around_of_not (hfor : ¬ d.isFor kind name) :
    entries (pre ++ .enter d :: post) kind name = entries (pre ++ post) kind name := by
  simp [entries, declarations, hfor]

/-- What the place of a declaration that does not merge has to do with being accepted: those
of its name that stand before it must merge with each other.  All else depends on the other
calls alone. -/
theorem accepts_around (hm : d.mergeable = false) :
    empty.Accepts (pre ++ .enter d :: post) ↔
      ((∀ kind name, ¬ d.isFor kind name → Compatible kind (entries (pre ++ post) kind name)) ∧
        ∀ x ∈ entries (pre ++ post) d.kind d.name, x.mergeable) ∧
      Agree d.kind ((entries pre d.kind d.name).map (·.value)) := by
  have hself : d.isFor d.kind d.name := by simp [Declared.isFor]
  rw [(calls_records _).1, entries_append, and_assoc, ← compatible_around hm, ← entries_around hself]
  constructor
  · intro h
    refine ⟨fun kind name hfor => ?_, h d.kind d.name⟩
    rw [← entries_around_of_not hfor]
    exact h kind name
  · rintro ⟨hothers, hown⟩ kind name
    by_cases hfor : d.isFor kind name
    · obtain ⟨rfl, rfl⟩ : d.kind = kind ∧ d.name = name := by simpa [Declared.isFor] using hfor
      exact hown
    · rw [entries_around_of_not hfor]
      exact hothers kind name hfor

/-- In front of all others it is accepted when it is anywhere. -/
theorem accepts_around_iff (hm : d.mergeable = false) :
    empty.Accepts (pre ++ .enter d :: post) ↔ empty.Accepts (.enter d :: (pre ++ post)) ∧
      Agree d.kind ((entries pre d.kind d.name).map (·.value)) := by
  have hfront := @accepts_around d [] (pre ++ post) hm
  have hnone : Agree d.kind ((entries [] d.kind d.name).map (·.value)) := .inl rfl
  rw [accepts_around hm, ← List.nil_append (.enter d :: (pre ++ post)), hfront, List.nil_append,
    and_iff_left hnone]

/-- Wherever it stands, its value stands for its name. -/
theorem get?_around (hm : d.mergeable = false) (h : empty.Accepts (pre ++ .enter d :: post)) :
    Entries.get? ((empty.calls (pre ++ .enter d :: post)).2.config.sectionOf d.kind) d.name =
      some d.value := by
  have hmem : d ∈ entries (pre ++ .enter d :: post) d.kind d.name := by
    rw [entries_around (by simp [Declared.isFor])]
    exact List.mem_append_right _ List.mem_cons_self
  have hcompatible := (calls_records _).1.mp h d.kind d.name
  rw [((calls_records _).2 h).values, standing_of_held (find?_of_compatible hcompatible hmem hm)]

end Around

end Ledger

end SchemaLang
