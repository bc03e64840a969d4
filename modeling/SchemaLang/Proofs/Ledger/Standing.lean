import SchemaLang.Config.Ledger
import SchemaLang.Proofs.Ledger.Union
import Mathlib.Data.List.TakeWhile

/-!
# Declarations of one kind and name

Declarations of one kind and name follow each other.  As long as all of them merge, each one
is merged into what the others have come to.  One that does not merge takes the place of what
is there; from then on those that merge are passed over, and another one that does not merge
is refused.  So what they come to can be said of all of them at once.

## Main definitions

* `Declared.onto` — what a declaration makes of what stands for its name.
* `Agree` — values that merge from left to right.
* `Compatible` — declarations that go together.
* `standing` — what they come to.

## Main results

* `compatible_concat`, `standing_concat` — one more declaration.
-/

namespace SchemaLang

variable {kind : Kind} {name : String} {ds : List Declared} {d : Declared}

/-- Whether a declaration is of a kind and has a name. -/
def Declared.isFor (kind : Kind) (name : String) (d : Declared) : Bool :=
  d.kind = kind ∧ d.name = name

/-- What a declaration makes of what stands for its name, which is held by one that does not
merge if `fixed`; nothing if the two exclude each other. -/
def Declared.onto (d : Declared) (standing : Option Value) (fixed : Bool) : Option Value :=
  match standing with
  | none => some d.value
  | some e =>
    match fixed, d.mergeable with
    | false, true => (mergeDeclared d.kind e d.value).agreed
    | false, false => some d.value
    | true, true => some e
    | true, false => none

/-- Values that merge from left to right, if there are any. -/
def Agree (kind : Kind) (vs : List Value) : Prop := vs = [] ∨ (mergeAll kind vs).isSome

/-- Declarations of one kind and name go together: at most one does not merge, and those
before it do. -/
def Compatible (kind : Kind) (ds : List Declared) : Prop :=
  ds.countP (!·.mergeable) ≤ 1 ∧ Agree kind ((ds.takeWhile (·.mergeable)).map (·.value))

/-- What declarations of one kind and name come to: the one that does not merge, else all of
them merged. -/
def standing (kind : Kind) (ds : List Declared) : Option Value :=
  match ds.find? (!·.mergeable) with
  | some d => some d.value
  | none => mergeAll kind (ds.map (·.value))

theorem mergeAll_concat {vs : List Value} (hvs : vs ≠ []) (v : Value) :
    mergeAll kind (vs ++ [v]) =
      (mergeAll kind vs).bind fun e => (mergeDeclared kind e v).agreed := by
  cases vs with
  | nil => exact absurd rfl hvs
  | cons first vs =>
    rw [List.cons_append, mergeAll, mergeAll, List.foldlM_append]
    simp only [List.foldlM_cons, List.foldlM_nil, bind_pure]
    rfl

section Free

/-! While all declarations merge, they are merged. -/

variable (hds : ∀ d ∈ ds, d.mergeable)

include hds

theorem find?_of_free : ds.find? (!·.mergeable) = none := by
  rw [List.find?_eq_none]
  intro d hd
  simp [hds d hd]

theorem countP_of_free : ds.countP (!·.mergeable) = 0 := by
  rw [List.countP_eq_zero]
  intro d hd
  simp [hds d hd]

theorem any_of_free : ds.any (!·.mergeable) = false := by
  simpa using hds

theorem standing_of_free : standing kind ds = mergeAll kind (ds.map (·.value)) := by
  rw [standing, find?_of_free hds]

theorem compatible_of_free : Compatible kind ds ↔ Agree kind (ds.map (·.value)) := by
  rw [Compatible, countP_of_free hds, List.takeWhile_eq_self_iff.mpr hds]
  simp

theorem compatible_concat_of_free (hd : d.kind = kind) :
    Compatible kind (ds ++ [d]) ↔
      Compatible kind ds ∧ (d.onto (standing kind ds) false).isSome := by
  by_cases hm : d.mergeable
  · have hall := List.forall_mem_append.mpr ⟨hds, List.forall_mem_singleton.mpr hm⟩
    rw [compatible_of_free hall, compatible_of_free hds, standing_of_free hds, List.map_append,
      List.map_singleton]
    cases ds with
    | nil => simp [Agree, mergeAll, Declared.onto]
    | cons first ds =>
      rw [Agree, Agree, mergeAll_concat (by simp)]
      cases mergeAll kind ((first :: ds).map (·.value)) with
      | none => simp
      | some e => simp [Declared.onto, hm, hd]
  · -- The first one that does not merge is always welcome.
    have hcount : (ds ++ [d]).countP (!·.mergeable) = 1 := by
      rw [List.countP_append, countP_of_free hds]
      simp [hm]
    have htake : (ds ++ [d]).takeWhile (·.mergeable) = ds := by
      rw [List.takeWhile_append_of_pos hds]
      simp [hm]
    have honto : (d.onto (standing kind ds) false).isSome := by
      cases standing kind ds <;> simp [Declared.onto, hm]
    rw [compatible_of_free hds, Compatible, hcount, htake]
    simp [honto]

theorem standing_concat_of_free (hd : d.kind = kind) (hc : Compatible kind ds) :
    standing kind (ds ++ [d]) = d.onto (standing kind ds) false := by
  by_cases hm : d.mergeable
  · have hall := List.forall_mem_append.mpr ⟨hds, List.forall_mem_singleton.mpr hm⟩
    rw [standing_of_free hall, standing_of_free hds, List.map_append, List.map_singleton]
    cases ds with
    | nil => rfl
    | cons first ds =>
      -- There is something to merge with, since those before go together.
      have hsome : (mergeAll kind ((first :: ds).map (·.value))).isSome := by
        simpa [Agree] using (compatible_of_free hds).mp hc
      obtain ⟨e, he⟩ := Option.isSome_iff_exists.mp hsome
      rw [mergeAll_concat (by simp), he]
      simp [Declared.onto, hm, hd]
  · have honto : d.onto (standing kind ds) false = some d.value := by
      cases standing kind ds <;> simp [Declared.onto, hm]
    rw [honto, standing, List.find?_append, find?_of_free hds]
    simp [hm]

end Free

section Held

/-! Once one of them does not merge, it stands. -/

variable {b : Declared} (hb : ds.find? (!·.mergeable) = some b)

include hb

theorem any_of_held : ds.any (!·.mergeable) = true := by
  have hfix := List.find?_some hb
  exact List.any_eq_true.mpr ⟨b, List.mem_of_find?_eq_some hb, hfix⟩

theorem standing_of_held : standing kind ds = some b.value := by
  rw [standing, hb]

theorem standing_concat_of_held : standing kind (ds ++ [d]) = some b.value := by
  rw [standing, List.find?_append, hb]
  rfl

theorem compatible_concat_of_held :
    Compatible kind (ds ++ [d]) ↔
      Compatible kind ds ∧ (d.onto (standing kind ds) true).isSome := by
  have hbmem := List.mem_of_find?_eq_some hb
  have hbfix := List.find?_some hb
  have htake : (ds ++ [d]).takeWhile (·.mergeable) = ds.takeWhile (·.mergeable) := by
    have hlen : (ds.takeWhile (·.mergeable)).length ≠ ds.length := by
      intro hlen
      have hself := (List.takeWhile_prefix (l := ds) (·.mergeable)).eq_of_length hlen
      have hall := List.takeWhile_eq_self_iff.mp hself b hbmem
      simp [hall] at hbfix
    rw [List.takeWhile_append, if_neg hlen]
  have hone : 0 < ds.countP (!·.mergeable) := List.countP_pos_iff.mpr ⟨b, hbmem, hbfix⟩
  rw [Compatible, Compatible, htake, standing_of_held hb, List.countP_append]
  by_cases hm : d.mergeable
  · simp [Declared.onto, hm]
  · have hnone : ¬ (d.onto (some b.value) true).isSome := by
      simp [Declared.onto, hm]
    have hlast : [d].countP (!·.mergeable) = 1 := by simp [hm]
    refine iff_of_false (fun h => ?_) fun h => hnone h.2
    have hcount := h.1
    omega

end Held

/-- Of declarations that go together, the one that does not merge is the only such. -/
theorem find?_of_compatible (hc : Compatible kind ds) (hd : d ∈ ds) (hm : d.mergeable = false) :
    ds.find? (!·.mergeable) = some d := by
  obtain ⟨xs, ys, rfl⟩ := List.append_of_mem hd
  have hcount := hc.1
  simp only [List.countP_append, List.countP_cons, hm, Bool.not_false, if_true] at hcount
  have hxs : ∀ x ∈ xs, x.mergeable := by
    have hzero : xs.countP (!·.mergeable) = 0 := by omega
    simpa [List.countP_eq_zero] using hzero
  rw [List.find?_append, find?_of_free hxs]
  simp [hm]

/-- Declarations around one that does not merge go together when all others merge, and those
before it merge with each other. -/
theorem compatible_around {xs ys : List Declared} (hm : d.mergeable = false) :
    Compatible kind (xs ++ d :: ys) ↔
      (∀ x ∈ xs ++ ys, x.mergeable) ∧ Agree kind (xs.map (·.value)) := by
  have hcount : (xs ++ d :: ys).countP (!·.mergeable) = (xs ++ ys).countP (!·.mergeable) + 1 := by
    simp only [List.countP_append, List.countP_cons, hm, Bool.not_false, if_true]
    omega
  have hfree : (xs ++ d :: ys).countP (!·.mergeable) ≤ 1 ↔ ∀ x ∈ xs ++ ys, x.mergeable := by
    rw [hcount, Nat.succ_le_succ_iff, Nat.le_zero, List.countP_eq_zero]
    simp
  rw [Compatible, hfree]
  refine and_congr_right fun hall => ?_
  have hxs := (List.forall_mem_append.mp hall).1
  have htake : (xs ++ d :: ys).takeWhile (·.mergeable) = xs := by
    rw [List.takeWhile_append_of_pos hxs]
    simp [hm]
  rw [htake]

theorem compatible_concat (hd : d.kind = kind) :
    Compatible kind (ds ++ [d]) ↔
      Compatible kind ds ∧ (d.onto (standing kind ds) (ds.any (!·.mergeable))).isSome := by
  cases hb : ds.find? (!·.mergeable) with
  | none =>
    have hds : ∀ x ∈ ds, x.mergeable := by simpa using hb
    rw [any_of_free hds]
    exact compatible_concat_of_free hds hd
  | some b =>
    rw [any_of_held hb]
    exact compatible_concat_of_held hb

theorem standing_concat (hd : d.kind = kind) (hc : Compatible kind (ds ++ [d])) :
    standing kind (ds ++ [d]) = d.onto (standing kind ds) (ds.any (!·.mergeable)) := by
  obtain ⟨hds, honto⟩ := (compatible_concat hd).mp hc
  cases hb : ds.find? (!·.mergeable) with
  | none =>
    have hfree : ∀ x ∈ ds, x.mergeable := by simpa using hb
    rw [any_of_free hfree]
    exact standing_concat_of_free hfree hd hds
  | some b =>
    rw [any_of_held hb, standing_of_held hb] at honto
    rw [any_of_held hb, standing_of_held hb, standing_concat_of_held hb]
    cases hm : d.mergeable with
    | true => simp [Declared.onto, hm]
    | false => simp [Declared.onto, hm] at honto

end SchemaLang
