import SchemaLang.Value
import Mathlib.Data.List.Forall2
import Mathlib.Data.List.Perm.Subperm

/-!
# Equality of values

Values are compared as a configuration compares them: the order of members does not count,
the two zeros are one number, and an integer is never equal to another number.  This is an
equivalence as long as no object has a name twice and every number is a number, which is so
for all that is compiled.

## Main definitions

* `Value.Regular` — no name stands twice, and numbers are numbers.

## Main results

* `Value.same_obj_iff` — objects are equal when the same names have equal values.
* `Value.same_refl`, `Value.same_symm`, `Value.same_trans` — equality is an equivalence.
-/

namespace SchemaLang

namespace Entries

variable {α : Type} {es fs : Entries α} {key : String} {a : α}

theorem mem_of_get? (h : get? es key = some a) : (key, a) ∈ es := by
  induction es with
  | nil => cases h
  | cons e es ih =>
    obtain ⟨k, b⟩ := e
    rw [get?_cons] at h
    by_cases hk : k = key
    · rw [if_pos hk] at h
      cases h
      rw [hk]
      exact List.mem_cons_self
    · rw [if_neg hk] at h
      exact List.mem_cons_of_mem _ (ih h)

theorem get?_of_mem (hn : (keys es).Nodup) (h : (key, a) ∈ es) : get? es key = some a := by
  induction es with
  | nil => cases h
  | cons e es ih =>
    obtain ⟨k, b⟩ := e
    rw [keys_cons, List.nodup_cons] at hn
    rw [get?_cons]
    rcases List.mem_cons.mp h with h | h
    · cases h
      rw [if_pos rfl]
    · have hmem : key ∈ keys es := List.mem_map_of_mem (f := (·.1)) h
      rw [if_neg (fun hk : k = key => hn.1 (hk ▸ hmem))]
      exact ih hn.2 h

theorem mem_keys_iff : key ∈ keys es ↔ ∃ a, get? es key = some a := by
  rw [← Option.isSome_iff_exists, Option.isSome_iff_ne_none, Ne, get?_eq_none_iff, not_not]

theorem mem_keys_of_get? (h : get? es key = some a) : key ∈ keys es := mem_keys_iff.mpr ⟨a, h⟩

/-- Putting in what is there changes nothing. -/
theorem insert_self (h : get? es key = some a) : insert es key a = es := by
  induction es with
  | nil => cases h
  | cons e es ih =>
    obtain ⟨k, b⟩ := e
    rw [get?_cons] at h
    rw [insert]
    by_cases hk : k = key
    · rw [if_pos hk] at h ⊢
      cases h
      rfl
    · rw [if_neg hk] at h ⊢
      rw [ih h]

/-- A new name comes last. -/
theorem insert_eq_append (h : key ∉ keys es) (a : α) : insert es key a = es ++ [(key, a)] := by
  induction es with
  | nil => rfl
  | cons e es ih =>
    obtain ⟨k, b⟩ := e
    rw [keys_cons, List.mem_cons, not_or] at h
    rw [insert, if_neg (Ne.symm h.1), ih h.2, List.cons_append]

theorem nodup_keys_insert (hn : (keys es).Nodup) (key : String) (a : α) :
    (keys (insert es key a)).Nodup := by
  rw [keys_insert]
  by_cases hk : key ∈ keys es
  · rw [if_pos hk]
    exact hn
  · rw [if_neg hk]
    refine List.nodup_append.mpr ⟨hn, by simp, ?_⟩
    rintro k hmem _ hkey rfl
    rw [List.mem_singleton.mp hkey] at hmem
    exact hk hmem

end Entries

/-! ### Numbers -/

namespace Binary64

variable {x y z : Binary64}

theorem same_iff : x.same y ↔ x.magnitude ≤ infinityBits ∧ (x = y ∨ x.isZero ∧ y.isZero) := by
  have hbits : x.bits = y.bits ↔ x = y := by
    cases x
    cases y
    simp
  simp [same, hbits]

theorem same_symm (h : x.same y) : y.same x := by
  obtain ⟨hx, hxy⟩ := same_iff.mp h
  rcases hxy with rfl | ⟨hx0, hy0⟩
  · exact h
  · refine same_iff.mpr ⟨?_, .inr ⟨hy0, hx0⟩⟩
    have hmag : y.magnitude = 0 := by simpa [isZero] using hy0
    rw [hmag]
    exact Nat.zero_le _

theorem same_trans (hxy : x.same y) (hyz : y.same z) : x.same z := by
  obtain ⟨hx, hxy⟩ := same_iff.mp hxy
  obtain ⟨-, hyz⟩ := same_iff.mp hyz
  refine same_iff.mpr ⟨hx, ?_⟩
  rcases hxy with rfl | ⟨hx0, hy0⟩
  · exact hyz
  · rcases hyz with rfl | ⟨-, hz0⟩
    · exact .inr ⟨hx0, hy0⟩
    · exact .inr ⟨hx0, hz0⟩

theorem same_self_of_isFinite (h : x.isFinite) : x.same x := by
  have hlt : x.magnitude < infinityBits := of_decide_eq_true h
  exact same_iff.mpr ⟨Nat.le_of_lt hlt, .inl rfl⟩

end Binary64

namespace Value

/-! ### Regular values -/

/-- In no object at any depth does a name stand twice, and all numbers are numbers. -/
inductive Regular : Value → Prop where
  | null : Regular .null
  | bool (b : Bool) : Regular (.bool b)
  | int (n : Int) : Regular (.int n)
  | float (x : Binary64) (number : x.same x) : Regular (.float x)
  | str (s : String) : Regular (.str s)
  | arr (xs : List Value) (elements : ∀ x ∈ xs, Regular x) : Regular (.arr xs)
  | obj (ms : List (String × Value)) (distinct : (Entries.keys ms).Nodup)
    (members : ∀ k v, Entries.get? ms k = some v → Regular v) : Regular (.obj ms)

theorem Regular.distinct {ms : List (String × Value)} (h : Regular (.obj ms)) :
    (Entries.keys ms).Nodup := by
  cases h with
  | obj _ distinct _ => exact distinct

theorem regular_obj {ms : List (String × Value)} (hn : (Entries.keys ms).Nodup)
    (h : ∀ e ∈ ms, e.2.Regular) : (obj ms).Regular :=
  .obj ms hn fun k v hv => h (k, v) (Entries.mem_of_get? hv)

/-! ### Equality of arrays and objects -/

theorem sameElements_iff {xs ys : List Value} :
    sameElements xs ys ↔ List.Forall₂ (fun x y => x.same y) xs ys := by
  induction xs generalizing ys with
  | nil => cases ys <;> simp [sameElements]
  | cons x xs ih => cases ys <;> simp [sameElements, ih]

theorem sameMembers_iff {ms ns : List (String × Value)} :
    sameMembers ms ns ↔ ∀ e ∈ ms, ∃ w, Entries.get? ns e.1 = some w ∧ e.2.same w := by
  induction ms with
  | nil => simp [sameMembers]
  | cons e ms ih =>
    obtain ⟨k, v⟩ := e
    rw [sameMembers, Bool.and_eq_true, ih, List.forall_mem_cons]
    refine and_congr_left fun _ => ?_
    cases Entries.get? ns k <;> simp

/-- Two objects are equal when they have the same names, with equal values. -/
theorem same_obj_iff {ms ns : List (String × Value)} (hm : (Entries.keys ms).Nodup)
    (hn : (Entries.keys ns).Nodup) :
    (obj ms).same (obj ns) ↔ (∀ k, k ∈ Entries.keys ms ↔ k ∈ Entries.keys ns) ∧
      ∀ k v w, Entries.get? ms k = some v → Entries.get? ns k = some w → v.same w := by
  have hlength : ∀ es : List (String × Value), (Entries.keys es).length = es.length :=
    fun es => List.length_map _
  rw [same, Bool.and_eq_true, beq_iff_eq, sameMembers_iff]
  constructor
  · rintro ⟨hlen, hsame⟩
    have hsub : Entries.keys ms ⊆ Entries.keys ns := by
      intro k hk
      obtain ⟨v, hv⟩ := Entries.mem_keys_iff.mp hk
      obtain ⟨w, hw, -⟩ := hsame (k, v) (Entries.mem_of_get? hv)
      exact Entries.mem_keys_of_get? hw
    -- As many names, all of which are found again: there are no others.
    have hperm : (Entries.keys ms).Perm (Entries.keys ns) := by
      refine (List.subperm_of_subset hm hsub).perm_of_length_le (Nat.le_of_eq ?_)
      rw [hlength, hlength, hlen]
    refine ⟨fun k => hperm.mem_iff, fun k v w hv hw => ?_⟩
    obtain ⟨w', hw', hvw⟩ := hsame (k, v) (Entries.mem_of_get? hv)
    rw [hw] at hw'
    cases hw'
    exact hvw
  · rintro ⟨hkeys, hsame⟩
    constructor
    · rw [← hlength ms, ← hlength ns]
      exact ((List.perm_ext_iff_of_nodup hm hn).mpr hkeys).length_eq
    · rintro ⟨k, v⟩ he
      have hv : Entries.get? ms k = some v := Entries.get?_of_mem hm he
      obtain ⟨w, hw⟩ := Entries.mem_keys_iff.mp ((hkeys k).mp (Entries.mem_keys_of_get? hv))
      exact ⟨w, hw, hsame k v w hv hw⟩

/-! ### An equivalence -/

theorem same_refl {v : Value} (hv : v.Regular) : v.same v := by
  induction hv with
  | null => rfl
  | bool b => simp [same]
  | int n => simp [same]
  | float x number => exact number
  | str s => simp [same]
  | arr xs _ ih =>
    rw [same, sameElements_iff, List.forall₂_same]
    exact ih
  | obj ms distinct _ ih =>
    rw [same_obj_iff distinct distinct]
    refine ⟨fun k => Iff.rfl, fun k v w hv hw => ?_⟩
    rw [hv] at hw
    cases hw
    exact ih k v hv

theorem same_symm {v w : Value} (hv : v.Regular) (hw : w.Regular) (h : v.same w) : w.same v := by
  induction hv generalizing w with
  | float x _ =>
    cases hw with
    | float y _ => exact Binary64.same_symm h
    | _ => simp [same] at h
  | arr xs _ ih =>
    cases hw with
    | arr ys elements =>
      rw [same, sameElements_iff, List.forall₂_iff_get] at h ⊢
      obtain ⟨hlen, hget⟩ := h
      refine ⟨hlen.symm, fun i hi hj => ?_⟩
      exact ih _ (List.get_mem ..) (elements _ (List.get_mem ..)) (hget i hj hi)
    | _ => simp [same] at h
  | obj ms distinct _ ih =>
    cases hw with
    | obj ns distinct' members =>
      rw [same_obj_iff distinct distinct'] at h
      obtain ⟨hkeys, hsame⟩ := h
      rw [same_obj_iff distinct' distinct]
      refine ⟨fun k => (hkeys k).symm, fun k w v hw hv => ?_⟩
      exact ih k v hv (members k w hw) (hsame k v w hv hw)
    | _ => simp [same] at h
  | _ => cases hw <;> simp_all [same]

theorem same_trans {u v w : Value} (hu : u.Regular) (hv : v.Regular) (hw : w.Regular)
    (huv : u.same v) (hvw : v.same w) : u.same w := by
  induction hu generalizing v w with
  | float x _ =>
    cases hv with
    | float y _ =>
      cases hw with
      | float z _ => exact Binary64.same_trans huv hvw
      | _ => simp [same] at hvw
    | _ => simp [same] at huv
  | arr xs _ ih =>
    cases hv with
    | arr ys elements =>
      cases hw with
      | arr zs elements' =>
        rw [same, sameElements_iff, List.forall₂_iff_get] at huv hvw ⊢
        obtain ⟨hlen, hget⟩ := huv
        obtain ⟨hlen', hget'⟩ := hvw
        refine ⟨hlen.trans hlen', fun i hi hj => ?_⟩
        have hk : i < ys.length := hlen ▸ hi
        exact ih _ (List.get_mem ..) (elements _ (List.get_mem ..)) (elements' _ (List.get_mem ..))
          (hget i hi hk) (hget' i hk hj)
      | _ => simp [same] at hvw
    | _ => simp [same] at huv
  | obj ms distinct _ ih =>
    cases hv with
    | obj ns distinct' members =>
      cases hw with
      | obj os distinct'' members' =>
        rw [same_obj_iff distinct distinct'] at huv
        rw [same_obj_iff distinct' distinct''] at hvw
        obtain ⟨hkeys, hsame⟩ := huv
        obtain ⟨hkeys', hsame'⟩ := hvw
        rw [same_obj_iff distinct distinct'']
        refine ⟨fun k => (hkeys k).trans (hkeys' k), fun k u w hu hw => ?_⟩
        obtain ⟨v, hv⟩ := Entries.mem_keys_iff.mp ((hkeys k).mp (Entries.mem_keys_of_get? hu))
        exact ih k u hu (members k v hv) (members' k w hw) (hsame k u v hu hv) (hsame' k v w hv hw)
      | _ => simp [same] at hvw
    | _ => simp [same] at huv
  | _ => cases hv <;> cases hw <;> simp_all [same]

end Value

end SchemaLang
