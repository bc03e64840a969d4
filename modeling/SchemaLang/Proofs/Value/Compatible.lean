import SchemaLang.Proofs.Value.Union

/-!
# What a merge holds

A merge goes through the members that come in one after the other, and changes the object it
merges them into on the way.  What it comes to can be said of the two sides alone.  Values are
compatible when no name that both have leads to a contradiction, at any depth.  Then the names
of the one are followed by those that only the other has, and each name has what it has on its
side, or the union of both.

So a merge keeps what it was given, and merging the same once more changes nothing.

## Main definitions

* `Value.Compatible` — values that do not contradict each other.
* `Value.Unites` — a value holds what two others hold, and nothing else.

## Main results

* `Entries.agrees_mergeWith_iff`, `Entries.keys_mergeWith`, `Entries.get?_mergeWith` — what a
  merge of entries comes to.
* `Entries.mergeWith_eq_self` — what is there already changes nothing.
* `Value.merge_exact` — **when values merge, and into what.**
-/

namespace SchemaLang

variable {α : Type}

/-! ### Entries -/

namespace Entries

variable {f : String → α → α → Merged α} {es is : Entries α} {k key : String} {i a : α}

theorem ne_of_get? (hk : k ∉ keys is) (h : get? is key = some a) : k ≠ key := by
  rintro rfl
  exact hk (mem_keys_of_get? h)

/-- Entries merge when the values of every common name do. -/
theorem agrees_mergeWith_iff (his : (keys is).Nodup) : (mergeWith f es is).agrees ↔
    ∀ key e i, get? es key = some e → get? is key = some i → (f key e i).agrees := by
  induction is generalizing es with
  | nil => simp [mergeWith]
  | cons first is ih =>
    obtain ⟨k, i⟩ := first
    obtain ⟨hk, his⟩ := List.nodup_cons.mp his
    -- Once `k` has been merged, the names after it decide, whatever `k` has now.
    have hrest : ∀ v, (mergeWith f (insert es k v) is).agrees ↔
        ∀ key e i, get? es key = some e → get? is key = some i → (f key e i).agrees := by
      intro v
      rw [ih his]
      refine forall_congr' fun key => forall_congr' fun e => forall_congr' fun i => ?_
      rw [get?_insert]
      constructor
      · intro h he hi
        exact h (by rw [if_neg (ne_of_get? hk hi), he]) hi
      · intro h he hi
        rw [if_neg (ne_of_get? hk hi)] at he
        exact h he hi
    have hfirst : (∀ key e i', get? es key = some e → get? ((k, i) :: is) key = some i' →
        (f key e i').agrees) ↔ (∀ e, get? es k = some e → (f k e i).agrees) ∧
        ∀ key e i, get? es key = some e → get? is key = some i → (f key e i).agrees := by
      constructor
      · intro h
        refine ⟨fun e he => h k e i he (by rw [get?_cons, if_pos rfl]), fun key e i' he hi => ?_⟩
        exact h key e i' he (by rw [get?_cons, if_neg (ne_of_get? hk hi), hi])
      · rintro ⟨hown, hothers⟩ key e i' he hi
        rw [get?_cons] at hi
        by_cases hkey : k = key
        · subst hkey
          rw [if_pos rfl] at hi
          cases hi
          exact hown e he
        · rw [if_neg hkey] at hi
          exact hothers key e i' he hi
    rw [hfirst]
    cases he : get? es k with
    | none =>
      rw [mergeWith_of_none he, hrest]
      simp
    | some e =>
      by_cases hagrees : (f k e i).agrees
      · rw [mergeWith_of_agrees he hagrees, hrest]
        simp [hagrees]
      · rw [mergeWith_of_clash he hagrees]
        simp [hagrees]

/-- The names merged into come first, then the new ones, both in their order. -/
theorem keys_mergeWith (his : (keys is).Nodup) (h : (mergeWith f es is).agrees) :
    keys (mergeWith f es is).value = keys es ++ (keys is).filter (· ∉ keys es) := by
  induction is generalizing es with
  | nil => simp [mergeWith]
  | cons first is ih =>
    obtain ⟨k, i⟩ := first
    obtain ⟨hk, his⟩ := List.nodup_cons.mp his
    cases he : get? es k with
    | none =>
      have hnew : k ∉ keys es := get?_eq_none_iff.mp he
      rw [mergeWith_of_none he] at h ⊢
      rw [ih his h, keys_insert, if_neg hnew, keys_cons, List.append_assoc,
        List.filter_cons_of_pos (by simpa using hnew), List.singleton_append]
      congr 2
      -- What comes after `k` is new to `es` exactly if it is new to `es` with `k`.
      refine List.filter_congr fun key hkey => ?_
      have hne : key ≠ k := fun heq => hk (heq ▸ hkey)
      simp [hne]
    | some e =>
      have hknown : k ∈ keys es := mem_keys_of_get? he
      by_cases hagrees : (f k e i).agrees
      · rw [mergeWith_of_agrees he hagrees] at h ⊢
        rw [ih his h, keys_insert, if_pos hknown, keys_cons,
          List.filter_cons_of_neg (by simpa using hknown)]
      · rw [mergeWith_of_clash he hagrees] at h
        cases h

/-- A name has what it has on its side, or what the values of both sides merge into. -/
theorem get?_mergeWith (his : (keys is).Nodup) (h : (mergeWith f es is).agrees) (key : String) :
    get? (mergeWith f es is).value key =
      (get? es key).merge (fun e i => (f key e i).value) (get? is key) := by
  induction is generalizing es with
  | nil => simp [mergeWith]
  | cons first is ih =>
    obtain ⟨k, i⟩ := first
    obtain ⟨hk, his⟩ := List.nodup_cons.mp his
    have hgone : get? is k = none := get?_eq_none_iff.mpr hk
    cases he : get? es k with
    | none =>
      rw [mergeWith_of_none he] at h ⊢
      rw [ih his h, get?_insert, get?_cons]
      by_cases hkey : k = key
      · subst hkey
        simp [he, hgone]
      · simp only [if_neg hkey]
    | some e =>
      by_cases hagrees : (f k e i).agrees
      · rw [mergeWith_of_agrees he hagrees] at h ⊢
        rw [ih his h, get?_insert, get?_cons]
        by_cases hkey : k = key
        · subst hkey
          simp [he, hgone]
        · simp only [if_neg hkey]
      · rw [mergeWith_of_clash he hagrees] at h
        cases h

/-- Entries into which nothing new is merged stay as they are. -/
theorem mergeWith_eq_self (h : ∀ k i, (k, i) ∈ is → ∃ e, get? es k = some e ∧ f k e i = ⟨e, true⟩) :
    mergeWith f es is = ⟨es, true⟩ := by
  induction is with
  | nil => rfl
  | cons first is ih =>
    obtain ⟨k, i⟩ := first
    obtain ⟨e, he, hf⟩ := h k i List.mem_cons_self
    rw [mergeWith_of_agrees he (by rw [hf]), hf, insert_self he]
    exact ih fun k i hmem => h k i (List.mem_cons_of_mem _ hmem)

end Entries

/-! ### Values -/

namespace Value

/-- Values that do not contradict each other: objects whose common names have compatible
values, and anything else that is equal. -/
inductive Compatible : Value → Value → Prop where
  | objects {es is : List (String × Value)}
    (common : ∀ k e i, Entries.get? es k = some e → Entries.get? is k = some i → Compatible e i) :
    Compatible (.obj es) (.obj is)
  | others {a b : Value} (apart : ∀ es is, ¬ (a = .obj es ∧ b = .obj is)) (equal : a.same b) :
    Compatible a b

/-- The last value is the union of the other two: for objects it has the names of the first,
then those that only the second has, each with its value or with the union of both values.  Of
anything else it is the first. -/
inductive Unites : Value → Value → Value → Prop where
  | objects {es is rs : List (String × Value)}
    (names : Entries.keys rs = Entries.keys es ++ (Entries.keys is).filter (· ∉ Entries.keys es))
    (first : ∀ k e, Entries.get? es k = some e → Entries.get? is k = none →
      Entries.get? rs k = some e)
    (second : ∀ k i, Entries.get? es k = none → Entries.get? is k = some i →
      Entries.get? rs k = some i)
    (common : ∀ k e i r, Entries.get? es k = some e → Entries.get? is k = some i →
      Entries.get? rs k = some r → Unites e i r) :
    Unites (.obj es) (.obj is) (.obj rs)
  | others {a b : Value} (apart : ∀ es is, ¬ (a = .obj es ∧ b = .obj is)) : Unites a b a

variable {a b : Value}

theorem compatible_obj_iff {es is : List (String × Value)} : (obj es).Compatible (obj is) ↔
    ∀ k e i, Entries.get? es k = some e → Entries.get? is k = some i → e.Compatible i := by
  constructor
  · intro h
    cases h with
    | objects common => exact common
    | others apart _ => exact absurd ⟨rfl, rfl⟩ (apart es is)
  · exact .objects

theorem agrees_merge_iff (hb : b.Regular) : (a.merge b).agrees ↔ a.Compatible b := by
  induction a, b using merge_induction with
  | objects es is ih =>
    cases hb with
    | obj _ distinct members =>
      rw [merge_obj, compatible_obj_iff]
      refine (Entries.agrees_mergeWith_iff distinct).trans ?_
      refine forall_congr' fun k => forall_congr' fun e => forall_congr' fun i => ?_
      exact imp_congr_right fun _ => forall_congr' fun hi =>
        ih k i (Entries.mem_of_get? hi) e (members k i hi)
  | others a b apart =>
    rw [merge_eq_of_not_obj apart]
    constructor
    · exact .others apart
    · intro h
      cases h with
      | objects _ => exact absurd ⟨rfl, rfl⟩ (apart _ _)
      | others _ equal => exact equal

/-- A merge that meets no contradiction is the union. -/
theorem unites_merge (hb : b.Regular) (h : (a.merge b).agrees) : a.Unites b (a.merge b).value := by
  induction a, b using merge_induction with
  | objects es is ih =>
    cases hb with
    | obj _ distinct members =>
      rw [merge_obj] at h ⊢
      have hget := Entries.get?_mergeWith distinct h
      refine .objects (Entries.keys_mergeWith distinct h) (fun k e he hi => ?_)
        (fun k i he hi => ?_) fun k e i r he hi hr => ?_
      · rw [hget, he, hi]
        rfl
      · rw [hget, he, hi]
        rfl
      · rw [hget, he, hi] at hr
        cases hr
        have hagrees := (Entries.agrees_mergeWith_iff distinct).mp h k e i he hi
        exact ih k i (Entries.mem_of_get? hi) e (members k i hi) hagrees
  | others a b apart =>
    rw [merge_eq_of_not_obj apart]
    exact .others apart

/-- A value merges into itself, and stays as it is. -/
theorem merge_self (ha : a.Regular) : a.merge a = ⟨a, true⟩ := by
  induction ha with
  | obj ms distinct members ih =>
    rw [merge_obj, Entries.mergeWith_eq_self]
    · rfl
    · intro k v hmem
      have hv := Entries.get?_of_mem distinct hmem
      exact ⟨v, hv, ih k v hv⟩
  | _ =>
    rw [merge_eq_of_not_obj (by simp), same_refl (by constructor <;> assumption)]

/-- What has been merged can be merged once more, and changes nothing. -/
theorem merge_merge (hb : b.Regular) (h : (a.merge b).agrees) :
    (a.merge b).value.merge b = ⟨(a.merge b).value, true⟩ := by
  induction a, b using merge_induction with
  | objects es is ih =>
    cases hb with
    | obj _ distinct members =>
      rw [merge_obj] at h ⊢
      have hmembers : Entries.mergeWith (fun _ => merge)
          (Entries.mergeWith (fun _ => merge) es is).value is =
            ⟨(Entries.mergeWith (fun _ => merge) es is).value, true⟩ := by
        refine Entries.mergeWith_eq_self fun k i hmem => ?_
        have hi := Entries.get?_of_mem distinct hmem
        rw [Entries.get?_mergeWith distinct h, hi]
        -- A name that was new has come in as it is, and any other has been merged once.
        cases he : Entries.get? es k with
        | none => exact ⟨i, rfl, merge_self (members k i hi)⟩
        | some e =>
          have hagrees := (Entries.agrees_mergeWith_iff distinct).mp h k e i he hi
          exact ⟨(e.merge i).value, rfl, ih k i hmem e (members k i hi) hagrees⟩
      rw [Merged.map, merge_obj, hmembers]
      rfl
  | others a b apart =>
    rw [merge_eq_of_not_obj apart] at h ⊢
    rw [merge_eq_of_not_obj apart, Merged.mk.injEq]
    exact ⟨rfl, h⟩

/-- **When values merge, and into what.**  Two values merge exactly if they are compatible, and
then into their union, which has the names of the first in their order and after them those that
only the second has.  Merging the second once more changes nothing, and neither does merging a
value into itself. -/
theorem merge_exact (ha : a.Regular) (hb : b.Regular) :
    ((a.merge b).agrees ↔ a.Compatible b) ∧
    ((a.merge b).agrees → a.Unites b (a.merge b).value ∧
      (a.merge b).value.merge b = ⟨(a.merge b).value, true⟩) ∧
    a.merge a = ⟨a, true⟩ :=
  ⟨agrees_merge_iff hb, fun h => ⟨unites_merge hb h, merge_merge hb h⟩, merge_self ha⟩

/-- Objects within objects that merge, next to arrays that are equal but for the order of names
in them, and a contradiction one level down. -/
theorem merge_exact_nested :
    let a := obj [("d", arr [obj [("x", null), ("y", int 1)]]), ("n", obj [("b", bool true)])]
    let b := obj [("n", obj [("c", str "x"), ("b", bool true)]),
      ("d", arr [obj [("y", int 1), ("x", null)]]), ("e", null)]
    let c := obj [("e", null), ("n", obj [("b", bool false)])]
    let r := obj [("d", arr [obj [("x", null), ("y", int 1)]]),
      ("n", obj [("b", bool true), ("c", str "x")]), ("e", null)]
    a.Regular ∧ b.Regular ∧ c.Regular ∧ a.Compatible b ∧ a.Unites b r ∧ r.merge b = ⟨r, true⟩ ∧
      ¬ a.Compatible c ∧ a.merge a = ⟨a, true⟩ := by
  intro a b c r
  have ha : a.Regular := by
    refine regular_obj (by decide) ?_
    simp only [List.forall_mem_cons]
    refine ⟨.arr _ ?_, regular_obj (by decide) (by simp [Regular.bool]), by simp⟩
    simp only [List.forall_mem_singleton]
    exact regular_obj (by decide) (by simp [Regular.null, Regular.int])
  have hb : b.Regular := by
    refine regular_obj (by decide) ?_
    simp only [List.forall_mem_cons]
    refine ⟨regular_obj (by decide) (by simp [Regular.bool, Regular.str]), .arr _ ?_, .null,
      by simp⟩
    simp only [List.forall_mem_singleton]
    exact regular_obj (by decide) (by simp [Regular.null, Regular.int])
  have hc : c.Regular := by
    refine regular_obj (by decide) ?_
    simp only [List.forall_mem_cons]
    exact ⟨.null, regular_obj (by decide) (by simp [Regular.bool]), by simp⟩
  have hmerge : a.merge b = ⟨r, true⟩ := by rfl
  have hclash : (a.merge c).agrees = false := by rfl
  have hab := merge_exact ha hb
  have hagrees : (a.merge b).agrees := by rw [hmerge]
  obtain ⟨hunites, hagain⟩ := hab.2.1 hagrees
  rw [hmerge] at hunites hagain
  refine ⟨ha, hb, hc, hab.1.mp hagrees, hunites, hagain, fun h => ?_, hab.2.2⟩
  rw [← (merge_exact ha hc).1, hclash] at h
  cases h

end Value

end SchemaLang
