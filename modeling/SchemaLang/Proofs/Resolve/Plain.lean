import SchemaLang.Proofs.Resolve.Inline
import SchemaLang.Proofs.Trail

/-!
# Resolving without a memory

What a name stands for, found afresh each time it comes up: the only state is the list of
names that are open.  Whether this succeeds is a question about the graph whose edges lead
from a name to the references in what it stands for.  It does when every name that can be
reached is defined and lies on no circle, and then the names that are open do not matter.

Each name that is opened is defined and was not open before, so the recursion ends.

## Main definitions

* `Config.names`, `Config.unopened` — the defined names, and those that are not open.
* `Config.StandsFor` — what a name stands for, read off the sections.
* `Config.plain`, `Config.resolvePlain` — resolving a name, and a whole configuration.
* `Config.Edge` — the graph of references.
* `Config.Clear` — nothing that can be reached from a name is in the way.
* `Config.Obstacle` — what is in the way otherwise.

## Main results

* `Config.target?_eq_some_iff` — looking a name up finds what it stands for.
* `Config.plain_ok_iff` — a name can be resolved exactly when the way is clear.
* `Config.plain_eq_of_clear` — the value does not depend on the names that are open.
* `Config.obstacle_of_plain` — an error names what is in the way.
-/

namespace SchemaLang

open Relation

namespace Config

variable {c : Config} {opened : List String} {name n m : String}

/-! ### Defined names -/

/-- The defined names. -/
def names (c : Config) : List String :=
  Entries.keys c.props ++ Entries.keys c.enums ++ Entries.keys c.types

theorem length_names (c : Config) : c.names.length = c.room := by
  simp [names, room, Entries.keys, Nat.add_assoc]

/-- What a name stands for: the prop with that name; the enum if there is no such prop; the type
if there is neither. -/
inductive StandsFor (c : Config) (n : String) : Target → Prop where
  | prop {v : Value} (found : Entries.get? c.props n = some v) : StandsFor c n (.whole v)
  | enum {v : Value} (noProp : n ∉ Entries.keys c.props)
    (found : Entries.get? c.enums n = some v) : StandsFor c n (.whole v)
  | type {v : Value} (noProp : n ∉ Entries.keys c.props) (noEnum : n ∉ Entries.keys c.enums)
    (found : Entries.get? c.types n = some v) : StandsFor c n (.columned v)

/-- Looking a name up finds what it stands for. -/
theorem target?_eq_some_iff {t : Target} : c.target? n = some t ↔ c.StandsFor n t := by
  constructor
  · intro h
    rw [target?] at h
    split at h
    · next v hp =>
      cases h
      exact .prop hp
    · next v hp he =>
      cases h
      exact .enum (Entries.get?_eq_none_iff.mp hp) he
    · next v hp he ht =>
      cases h
      exact .type (Entries.get?_eq_none_iff.mp hp) (Entries.get?_eq_none_iff.mp he) ht
    · cases h
  · intro h
    cases h with
    | prop found => rw [target?, found]
    | enum noProp found => rw [target?, Entries.get?_eq_none_iff.mpr noProp, found]
    | type noProp noEnum found =>
      rw [target?, Entries.get?_eq_none_iff.mpr noProp, Entries.get?_eq_none_iff.mpr noEnum, found]

/-- Looking a name up finds nothing exactly when it is not defined. -/
theorem target?_eq_none_iff : c.target? n = none ↔ n ∉ c.names := by
  simp only [names, List.mem_append, not_or, ← Entries.get?_eq_none_iff]
  rw [target?]
  split <;> simp_all

theorem mem_names_of_target? {t : Target} (h : c.target? n = some t) : n ∈ c.names := by
  by_contra hn
  rw [target?_eq_none_iff.mpr hn] at h
  cases h

/-- The defined names that are not open. -/
def unopened (c : Config) (opened : List String) : List String := c.names.filter (· ∉ opened)

theorem unopened_nil (c : Config) : c.unopened [] = c.names := by
  simp [unopened]

/-- Opening a defined name leaves fewer names to be opened. -/
theorem length_unopened_lt {t : Target} (hn : n ∉ opened) (ht : c.target? n = some t) :
    (c.unopened (opened ++ [n])).length < (c.unopened opened).length :=
  length_filter_opened_lt hn (mem_names_of_target? ht)

/-! ### The resolver -/

/-- What a name stands for, resolved, where `opened` are the names being resolved.  Every
reference is resolved from what its name stands for. -/
def plain (c : Config) (opened : List String) (name : String) : Except CompileError Value :=
  if _h : name ∈ opened then .error (.circularReference (opened ++ [name]))
  else
    match _ht : c.target? name with
    | none => .error (.unknownReference name none)
    | some t => t.inline fun m => plain c (opened ++ [name]) m
termination_by (c.unopened opened).length
decreasing_by exact length_unopened_lt _h _ht

/-- The final form of a configuration, in which every reference is resolved by itself. -/
def resolvePlain (c : Config) : Except CompileError FinalConfig := c.inline (c.plain [])

theorem plain_of_mem (h : name ∈ opened) :
    c.plain opened name = .error (.circularReference (opened ++ [name])) := by
  rw [plain, dif_pos h]

theorem plain_of_undefined (h : name ∉ opened) (ht : c.target? name = none) :
    c.plain opened name = .error (.unknownReference name none) := by
  rw [plain, dif_neg h]
  split
  · rfl
  · simp_all

theorem plain_of_target {t : Target} (h : name ∉ opened) (ht : c.target? name = some t) :
    c.plain opened name = t.inline (c.plain (opened ++ [name])) := by
  rw [plain, dif_neg h]
  split
  · simp_all
  · simp_all

/-- A statement about resolving holds when it holds for a name that is open, for a name
that is not defined, and for a name if it holds for its references once it is open. -/
theorem plain_induction {motive : List String → String → Prop}
    (circle : ∀ opened name, name ∈ opened → motive opened name)
    (undefined : ∀ opened name, name ∉ opened → c.target? name = none → motive opened name)
    (target : ∀ opened name t, name ∉ opened → c.target? name = some t →
      (∀ m ∈ t.references, motive (opened ++ [name]) m) → motive opened name)
    (opened : List String) (name : String) : motive opened name := by
  induction opened, name using plain.induct c with
  | case1 opened name h => exact circle opened name h
  | case2 opened name h ht => exact undefined opened name h ht
  | case3 opened name h t ht ih => exact target opened name t h ht fun m _ => ih m

/-! ### The graph of references -/

/-- A name leads to the references in what it stands for. -/
def Edge (c : Config) (n m : String) : Prop := ∃ t, c.StandsFor n t ∧ m ∈ t.references

theorem edge_iff {t : Target} (ht : c.target? n = some t) : c.Edge n m ↔ m ∈ t.references := by
  constructor
  · rintro ⟨t', ht', hm⟩
    -- a name stands for one thing only
    rw [← target?_eq_some_iff, ht] at ht'
    cases ht'
    exact hm
  · intro hm
    exact ⟨t, target?_eq_some_iff.mp ht, hm⟩

/-- Nothing that can be reached from a name is in the way of resolving it. -/
structure Clear (c : Config) (opened : List String) (n : String) : Prop where
  /-- What can be reached is defined. -/
  defined : ∀ m, ReflTransGen c.Edge n m → m ∈ c.names
  /-- What can be reached is not open. -/
  fresh : ∀ m, ReflTransGen c.Edge n m → m ∉ opened
  /-- What can be reached does not lead back to itself. -/
  acyclic : ∀ m, ReflTransGen c.Edge n m → ¬ TransGen c.Edge m m

namespace Clear

/-- What is clear from a name is clear from each of its references, also when the name is
open. -/
theorem step (h : c.Clear opened n) (he : c.Edge n m) : c.Clear (opened ++ [n]) m where
  defined k hk := h.defined k (hk.head he)
  fresh k hk := by
    intro hmem
    rcases List.mem_append.mp hmem with hmem | hmem
    · exact h.fresh k (hk.head he) hmem
    · rw [List.mem_singleton.mp hmem] at hk
      exact h.acyclic n .refl (.head' he hk)
  acyclic k hk := h.acyclic k (hk.head he)

/-- A way that is clear stays clear when other names are open, as long as it meets none of
them. -/
theorem reopen {others : List String} (h : c.Clear opened n)
    (ho : ∀ m, ReflTransGen c.Edge n m → m ∉ others) : c.Clear others n :=
  ⟨h.defined, ho, h.acyclic⟩

/-- With no name open, the way stays clear. -/
theorem close (h : c.Clear opened n) : c.Clear [] n := h.reopen fun _ _ => List.not_mem_nil

/-- The way is clear from a name that is defined and not open when it is clear from its
references with the name open. -/
theorem of_step {t : Target} (hn : n ∉ opened) (ht : c.target? n = some t)
    (h : ∀ m ∈ t.references, c.Clear (opened ++ [n]) m) : c.Clear opened n where
  defined k hk := by
    rcases hk.cases_head with rfl | ⟨m, he, hk⟩
    · exact mem_names_of_target? ht
    · exact (h m ((edge_iff ht).mp he)).defined k hk
  fresh k hk := by
    rcases hk.cases_head with rfl | ⟨m, he, hk⟩
    · exact hn
    · intro hmem
      exact (h m ((edge_iff ht).mp he)).fresh k hk (List.mem_append_left _ hmem)
  acyclic k hk := by
    rcases hk.cases_head with rfl | ⟨m, he, hk⟩
    · -- A circle through the name would come back to it while it is open.
      intro hcircle
      obtain ⟨m, he, hback⟩ := TransGen.head'_iff.mp hcircle
      exact (h m ((edge_iff ht).mp he)).fresh n hback (List.mem_append_right _ (List.mem_singleton_self n))
    · exact (h m ((edge_iff ht).mp he)).acyclic k hk

end Clear

/-- A name can be resolved exactly when nothing that can be reached from it is in the
way. -/
theorem plain_ok_iff (c : Config) (opened : List String) (name : String) :
    (∃ v, c.plain opened name = .ok v) ↔ c.Clear opened name := by
  induction opened, name using c.plain_induction with
  | circle opened name h =>
    rw [plain_of_mem h]
    constructor
    · rintro ⟨v, hv⟩
      cases hv
    · intro hc
      exact absurd h (hc.fresh name .refl)
  | undefined opened name h ht =>
    rw [plain_of_undefined h ht]
    constructor
    · rintro ⟨v, hv⟩
      cases hv
    · intro hc
      exact absurd (hc.defined name .refl) (target?_eq_none_iff.mp ht)
  | target opened name t h ht ih =>
    rw [plain_of_target h ht, t.consults_inline.ok_iff]
    constructor
    · intro hall
      exact .of_step h ht fun m hm => (ih m hm).mp (hall m hm)
    · intro hc m hm
      exact (ih m hm).mpr (hc.step ((edge_iff ht).mpr hm))

/-- Where the way is clear, the names that are open do not matter. -/
theorem plain_eq_of_clear {others : List String} (h : c.Clear opened name)
    (ho : c.Clear others name) : c.plain opened name = c.plain others name := by
  induction opened, name using c.plain_induction generalizing others with
  | circle opened name hmem => exact absurd hmem (h.fresh name .refl)
  | undefined opened name hmem ht =>
    exact absurd (h.defined name .refl) (target?_eq_none_iff.mp ht)
  | target opened name t hmem ht ih =>
    rw [plain_of_target hmem ht, plain_of_target (ho.fresh name .refl) ht]
    -- Only the references matter, and the way is clear from each of them.
    refine t.consults_inline.congr fun m hm => ?_
    have he : c.Edge name m := (edge_iff ht).mpr hm
    exact ih m hm (h.step he) (ho.step he)

/-- What resolves while names are open resolves to the same when none is. -/
theorem plain_nil_of_plain {v : Value} (h : c.plain opened name = .ok v) :
    c.plain [] name = .ok v := by
  have hc : c.Clear opened name := (c.plain_ok_iff opened name).mp ⟨v, h⟩
  rw [← plain_eq_of_clear hc hc.close]
  exact h

/-! ### Errors -/

/-- What is in the way of resolving a name while others are open: a name that is not
defined, or a path back to a name that is open or on the path. -/
inductive Obstacle (c : Config) (opened : List String) (n : String) : CompileError → Prop where
  /-- A name that can be reached is not defined. -/
  | undefined (m : String) (hm : ReflTransGen c.Edge n m) (hundefined : m ∉ c.names) :
    Obstacle c opened n (.unknownReference m none)
  /-- A path from the name leads back. -/
  | circle (path : List String) (m : String) (starts : (path ++ [m]).head? = some n)
    (leads : (path ++ [m]).IsChain c.Edge) (distinct : path.Nodup)
    (fresh : ∀ k ∈ path, k ∉ opened) (back : m ∈ opened ++ path) :
    Obstacle c opened n (.circularReference (opened ++ path ++ [m]))

/-- What is in the way of a reference is in the way of the name. -/
theorem Obstacle.step {e : CompileError} (hn : n ∉ opened) (he : c.Edge n m)
    (h : c.Obstacle (opened ++ [n]) m e) : c.Obstacle opened n e := by
  cases h with
  | undefined k hk hundefined => exact .undefined k (hk.head he) hundefined
  | circle path k starts leads distinct fresh back =>
    have hback := LeadsBack.step hn he ⟨starts, leads, distinct, fresh, back⟩
    have hchain : opened ++ [n] ++ path ++ [k] = opened ++ (n :: path) ++ [k] := by
      simp
    rw [hchain]
    exact .circle (n :: path) k hback.starts hback.leads hback.distinct hback.fresh hback.back

/-- An error names what is in the way. -/
theorem obstacle_of_plain {e : CompileError} (h : c.plain opened name = .error e) :
    c.Obstacle opened name e := by
  induction opened, name using c.plain_induction with
  | circle opened name hmem =>
    rw [plain_of_mem hmem] at h
    cases h
    -- The path from a name that is open is empty: the name itself leads back.
    have hpath : c.Obstacle opened name (.circularReference (opened ++ [] ++ [name])) :=
      .circle [] name rfl (.singleton name) List.nodup_nil (fun _ hk => nomatch hk) (by simpa)
    simpa using hpath
  | undefined opened name hmem ht =>
    rw [plain_of_undefined hmem ht] at h
    cases h
    exact .undefined name .refl (target?_eq_none_iff.mp ht)
  | target opened name t hmem ht ih =>
    rw [plain_of_target hmem ht] at h
    -- The error is that of a reference, found with the name open.
    obtain ⟨m, hm, he⟩ := t.consults_inline.failed h
    exact .step hmem ((edge_iff ht).mpr hm) (ih m hm he)

end Config

end SchemaLang
