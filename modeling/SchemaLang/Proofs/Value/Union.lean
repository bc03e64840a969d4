import SchemaLang.Proofs.Value.Inclusion
import SchemaLang.Value.Merge
import Mathlib.Tactic.Tauto

/-!
# Merging is the least upper bound

Two values merge exactly when some value includes them both, and the merge is then the
least such value.  One statement carries this through objects at every depth: what includes
the merge is what includes both sides, and if they contradict each other nothing does.

Members of a name may merge in a way of their own, as those of types and models do, so the
merge of objects is treated for any merge of members.

## Main definitions

* `Merged.IsUnion` — a merge has exactly the upper bounds of its two sides.
* `Entries.mergeWith` — the merge of entries for any merge of values of one name.

## Main results

* `Entries.isUnion_mergeWith` — entries merge into their union when their values do.
* `Value.merge_induction` — the induction that goes along a merge.
* `Value.isUnion_merge` — values merge into their union.
-/

namespace SchemaLang

variable {α β : Type}

/-! ### Unions -/

/-- A merge has exactly the upper bounds of its two sides, which have none if they contradict
each other. -/
structure Merged.IsUnion (I : Inclusion α) (a b : α) (m : Merged α) : Prop where
  valid : m.agrees → I.valid m.value
  bounds : ∀ u, I.valid u → (m.agrees ∧ I.le m.value u ↔ I.le a u ∧ I.le b u)

open Merged

theorem Merged.IsUnion.map {I : Inclusion α} {a b : α} {m : Merged α} (h : IsUnion I a b m)
    {f : α → β} (hf : Function.Injective f) : IsUnion (I.wrap f hf) (f a) (f b) (m.map f) where
  valid hm := ⟨m.value, rfl, h.valid hm⟩
  bounds := by
    rintro _ ⟨u, rfl, hu⟩
    rw [Merged.map, Inclusion.wrap_le_iff, Inclusion.wrap_le_iff, Inclusion.wrap_le_iff]
    exact h.bounds u hu

/-! ### Entries -/

namespace Entries

/-- Merges entries one after the other, those of one name by `f`, up to a contradiction. -/
def mergeWith (f : String → α → α → Merged α) : Entries α → Entries α → Merged (Entries α)
  | es, [] => ⟨es, true⟩
  | es, (k, i) :: is =>
    match get? es k with
    | none => mergeWith f (insert es k i) is
    | some e =>
      let m := f k e i
      if m.agrees then mergeWith f (insert es k m.value) is
      else ⟨insert es k m.value, false⟩

variable {f : String → α → α → Merged α} {es is : Entries α} {k : String} {e i : α}

theorem mergeWith_of_none (hk : get? es k = none) :
    mergeWith f es ((k, i) :: is) = mergeWith f (insert es k i) is := by
  rw [mergeWith, hk]

theorem mergeWith_of_agrees (hk : get? es k = some e) (h : (f k e i).agrees) :
    mergeWith f es ((k, i) :: is) = mergeWith f (insert es k (f k e i).value) is := by
  rw [mergeWith, hk]
  exact if_pos h

theorem mergeWith_of_clash (hk : get? es k = some e) (h : ¬ (f k e i).agrees) :
    mergeWith f es ((k, i) :: is) = ⟨insert es k (f k e i).value, false⟩ := by
  rw [mergeWith, hk]
  exact if_neg h

variable {I : String → Inclusion α} {us : Entries α} {a : α}

/-- What `us` has for a name includes `a`. -/
def Above (I : String → Inclusion α) (us : Entries α) (k : String) (a : α) : Prop :=
  ∃ b, get? us k = some b ∧ (I k).le a b

theorem le_insert_iff : (Inclusion.entries I).le (insert es k a) us ↔
    Above I us k a ∧ ∀ k', k' ≠ k → ∀ b, get? es k' = some b → Above I us k' b := by
  constructor
  · intro h
    refine ⟨h k a (by rw [get?_insert, if_pos rfl]), fun k' hk b hb => h k' b ?_⟩
    rw [get?_insert, if_neg hk.symm, hb]
  · rintro ⟨ha, hrest⟩ k' b hb
    rw [get?_insert] at hb
    by_cases hk : k = k'
    · rw [if_pos hk] at hb
      cases hb
      rw [← hk]
      exact ha
    · rw [if_neg hk] at hb
      exact hrest k' (Ne.symm hk) b hb

theorem le_iff_of_get?_none (h : get? es k = none) : (Inclusion.entries I).le es us ↔
    ∀ k', k' ≠ k → ∀ b, get? es k' = some b → Above I us k' b := by
  constructor
  · intro hle k' _ b hb
    exact hle k' b hb
  · intro hrest k' b hb
    refine hrest k' ?_ b hb
    rintro rfl
    rw [h] at hb
    cases hb

theorem le_iff_of_get?_some (h : get? es k = some a) : (Inclusion.entries I).le es us ↔
    Above I us k a ∧ ∀ k', k' ≠ k → ∀ b, get? es k' = some b → Above I us k' b := by
  constructor
  · intro hle
    exact ⟨hle k a h, fun k' _ b hb => hle k' b hb⟩
  · rintro ⟨ha, hrest⟩ k' b hb
    by_cases hk : k' = k
    · rw [hk, h] at hb
      cases hb
      rw [hk]
      exact ha
    · exact hrest k' hk b hb

theorem le_cons_iff (hk : k ∉ keys es) : (Inclusion.entries I).le ((k, a) :: es) us ↔
    Above I us k a ∧ (Inclusion.entries I).le es us := by
  have hnone : get? es k = none := get?_eq_none_iff.mpr hk
  rw [le_iff_of_get?_some (a := a) (by rw [get?_cons, if_pos rfl]), le_iff_of_get?_none hnone]
  refine and_congr_right fun _ => forall_congr' fun k' => forall_congr' fun hne => ?_
  rw [get?_cons, if_neg hne.symm]

theorem valid_insert (hes : (Inclusion.entries I).valid es) (ha : (I k).valid a) :
    (Inclusion.entries I).valid (insert es k a) := by
  refine ⟨nodup_keys_insert hes.1 k a, fun k' b hb => ?_⟩
  rw [get?_insert] at hb
  by_cases hk : k = k'
  · rw [if_pos hk] at hb
    cases hb
    rw [← hk]
    exact ha
  · rw [if_neg hk] at hb
    exact hes.2 k' b hb

/-- Two values of one name meet in what `us` has for it. -/
theorem above_union {m : Merged α} (hm : IsUnion (I k) e i m)
    (hus : (Inclusion.entries I).valid us) :
    m.agrees ∧ Above I us k m.value ↔ Above I us k e ∧ Above I us k i := by
  constructor
  · rintro ⟨hagrees, b, hb, hle⟩
    have hboth := (hm.bounds b (hus.2 k b hb)).mp ⟨hagrees, hle⟩
    exact ⟨⟨b, hb, hboth.1⟩, ⟨b, hb, hboth.2⟩⟩
  · rintro ⟨⟨b, hb, he⟩, ⟨b', hb', hi⟩⟩
    rw [hb] at hb'
    cases hb'
    have hmerged := (hm.bounds b (hus.2 k b hb)).mpr ⟨he, hi⟩
    exact ⟨hmerged.1, b, hb, hmerged.2⟩

/-- Entries merge into their union when values of one name do. -/
theorem isUnion_mergeWith
    (hes : (Inclusion.entries I).valid es) (his : (Inclusion.entries I).valid is)
    (hf : ∀ k i, get? is k = some i → ∀ e, (I k).valid e → IsUnion (I k) e i (f k e i)) :
    IsUnion (Inclusion.entries I) es is (mergeWith f es is) := by
  induction is generalizing es with
  | nil =>
    refine ⟨fun _ => hes, fun us _ => ?_⟩
    have hnil : (Inclusion.entries I).le [] us := by
      intro k a h
      cases h
    simp [mergeWith, hnil]
  | cons first is ih =>
    obtain ⟨k, i⟩ := first
    have hfirst : get? ((k, i) :: is) k = some i := by rw [get?_cons, if_pos rfl]
    have hdistinct := List.nodup_cons.mp his.1
    have hlater : ∀ k' b, get? is k' = some b → get? ((k, i) :: is) k' = some b := by
      intro k' b hb
      have hne : k ≠ k' := by
        rintro rfl
        exact hdistinct.1 (mem_keys_of_get? hb)
      rw [get?_cons, if_neg hne, hb]
    have his' : (Inclusion.entries I).valid is :=
      ⟨hdistinct.2, fun k' b hb => his.2 k' b (hlater k' b hb)⟩
    have hf' := fun k' b hb => hf k' b (hlater k' b hb)
    cases hk : get? es k with
    | none =>
      have hrest := ih (valid_insert hes (his.2 k i hfirst)) his' hf'
      rw [mergeWith_of_none hk]
      refine ⟨hrest.valid, fun us hus => ?_⟩
      rw [hrest.bounds us hus, le_insert_iff, le_iff_of_get?_none hk, le_cons_iff hdistinct.1]
      tauto
    | some e =>
      have hm : IsUnion (I k) e i (f k e i) := hf k i hfirst e (hes.2 k e hk)
      by_cases hagrees : (f k e i).agrees
      · have hrest := ih (valid_insert hes (hm.valid hagrees)) his' hf'
        rw [mergeWith_of_agrees hk hagrees]
        refine ⟨hrest.valid, fun us hus => ?_⟩
        have hboth := above_union hm hus
        rw [hrest.bounds us hus, le_insert_iff, le_iff_of_get?_some hk, le_cons_iff hdistinct.1]
        tauto
      · rw [mergeWith_of_clash hk hagrees]
        refine ⟨fun h => absurd h Bool.false_ne_true, fun us hus => ?_⟩
        -- The two values of this name already have no common bound.
        have hboth := above_union hm hus
        rw [le_iff_of_get?_some hk, le_cons_iff hdistinct.1]
        have hfalse : ¬ (false = true) := Bool.false_ne_true
        tauto

end Entries

/-! ### Values -/

namespace Value

theorem mergeMembers_eq_mergeWith (es is : List (String × Value)) :
    mergeMembers es is = Entries.mergeWith (fun _ => merge) es is := by
  induction is generalizing es with
  | nil => rfl
  | cons first is ih =>
    obtain ⟨k, i⟩ := first
    rw [mergeMembers, Entries.mergeWith]
    cases Entries.get? es k with
    | none => exact ih _
    | some e => simp only [ih]

theorem merge_obj (es is : List (String × Value)) :
    (obj es).merge (obj is) = (Entries.mergeWith (fun _ => merge) es is).map .obj := by
  rw [merge, mergeMembers_eq_mergeWith]

theorem merge_eq_of_not_obj {e i : Value} (h : ∀ es is, ¬ (e = obj es ∧ i = obj is)) :
    merge e i = ⟨e, e.same i⟩ := by
  cases e with
  | obj es =>
    cases i with
    | obj is => exact absurd ⟨rfl, rfl⟩ (h es is)
    | _ => rfl
  | _ => cases i <;> rfl

/-- Induction along a merge: from two objects it goes on to the values that come in, each with
whatever it may meet, and anything else is compared. -/
@[elab_as_elim]
theorem merge_induction {motive : Value → Value → Prop}
    (objects : ∀ es is, (∀ k i, (k, i) ∈ is → ∀ e, motive e i) → motive (obj es) (obj is))
    (others : ∀ e i, (∀ es is, ¬ (e = obj es ∧ i = obj is)) → motive e i) (e i : Value) :
    motive e i := by
  by_cases h : ∃ es is, e = obj es ∧ i = obj is
  · obtain ⟨es, is, rfl, hi⟩ := h
    rw [hi]
    exact objects es is fun k i' hmem e => merge_induction objects others e i'
  · exact others e i fun es is hobj => h ⟨es, is, hobj⟩
termination_by sizeOf i
decreasing_by
  have hlt := List.sizeOf_lt_of_mem hmem
  rw [hi]
  simp only [Prod.mk.sizeOf_spec, obj.sizeOf_spec] at hlt ⊢
  omega

/-- What is not made of two objects merges only with its equal, and has no other bounds. -/
theorem isUnion_of_not_obj {e i : Value} (he : e.Regular) (hi : i.Regular)
    (h : ∀ es is, ¬ (e = obj es ∧ i = obj is)) : IsUnion inclusion e i (merge e i) := by
  rw [merge_eq_of_not_obj h]
  refine ⟨fun _ => he, fun u hu => ⟨?_, ?_⟩⟩
  · rintro ⟨hsame, hle⟩
    have hie : i.within e := within_of_same hi he (same_symm he hi hsame)
    exact ⟨hle, within_trans hi he hu hie hle⟩
  · rintro ⟨heu, hiu⟩
    refine ⟨?_, heu⟩
    have hno : ∀ us, u ≠ obj us := by
      rintro us rfl
      obtain ⟨es, rfl⟩ := eq_obj_of_within heu
      obtain ⟨is, rfl⟩ := eq_obj_of_within hiu
      exact h es is ⟨rfl, rfl⟩
    have heu' : e.same u := by rw [← within_eq_same hno]; exact heu
    have hiu' : i.same u := by rw [← within_eq_same hno]; exact hiu
    exact same_trans he hu hi heu' (same_symm hi hu hiu')

/-- A merge of values is their least upper bound. -/
theorem isUnion_merge {e i : Value} (he : e.Regular) (hi : i.Regular) :
    IsUnion inclusion e i (merge e i) := by
  -- The recursion of `merge` is on the value that comes in.
  induction hi generalizing e with
  | obj is distinct members ih =>
    cases he with
    | obj es distinct' members' =>
      have hunion : IsUnion (Inclusion.entries fun _ => inclusion) es is (mergeMembers es is) := by
        rw [mergeMembers_eq_mergeWith]
        exact Entries.isUnion_mergeWith ⟨distinct', members'⟩ ⟨distinct, members⟩
          fun k i hk e he => ih k i hk he
      rw [merge]
      constructor
      · intro hagrees
        exact inclusion_valid_obj_iff.mpr (hunion.valid hagrees)
      · intro u hu
        rw [Merged.map]
        cases u with
        | obj us =>
          have hbounds := hunion.bounds us (inclusion_valid_obj_iff.mp hu)
          rw [inclusion_le_obj_iff distinct', inclusion_le_obj_iff distinct, ← hbounds]
          exact and_congr_right fun hagrees => inclusion_le_obj_iff (hunion.valid hagrees).1
        | _ => simp [inclusion, within, same]
    | _ => exact isUnion_of_not_obj (by constructor <;> assumption) (.obj is distinct members) (by simp)
  | _ => exact isUnion_of_not_obj he (by constructor <;> assumption) (by simp)

end Value

end SchemaLang
