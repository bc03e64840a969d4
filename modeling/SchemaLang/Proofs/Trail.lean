import Mathlib.Data.List.Chain
import Mathlib.Data.List.Nodup
import Mathlib.Logic.Relation

/-!
# Names that are open

References are resolved, and sources are put in, by opening names one inside the other.  A
name that is open must not be met again.  Since each name that is opened was not open before,
there is an end to it as long as the names are among finitely many.

## Main definitions

* `LeadsBack` — a path that meets a name that is open, or itself.

## Main results

* `length_filter_opened_lt` — opening a name leaves fewer of them.
* `LeadsBack.step` — a path with one more name in front.
* `LeadsBack.circle` — a path that meets itself goes round.
-/

namespace SchemaLang

open Relation

variable {edge : String → String → Prop} {opened path names : List String} {n m k : String}

theorem length_filter_opened_lt (hn : n ∉ opened) (hmem : n ∈ names) :
    (names.filter (· ∉ opened ++ [n])).length < (names.filter (· ∉ opened)).length := by
  -- What is left to be opened is what was left before, without the name.
  have hsub : names.filter (· ∉ opened ++ [n]) =
      (names.filter (· ∉ opened)).filter (· ≠ n) := by
    rw [List.filter_filter]
    congr 1
    funext m
    simp [and_comm]
  have hleft : n ∈ names.filter (· ∉ opened) := by
    rw [List.mem_filter]
    exact ⟨hmem, by simpa using hn⟩
  rw [hsub]
  exact List.length_filter_lt_length_iff_exists.mpr ⟨n, hleft, by simp⟩

/-- A path of distinct names that are not open starts at `n`, and one more step leads to `m`,
which is open or on the path.  If `n` itself is open, the path is empty. -/
structure LeadsBack (edge : String → String → Prop) (opened : List String) (n : String)
    (path : List String) (m : String) : Prop where
  starts : (path ++ [m]).head? = some n
  leads : (path ++ [m]).IsChain edge
  distinct : path.Nodup
  fresh : ∀ k ∈ path, k ∉ opened
  back : m ∈ opened ++ path

namespace LeadsBack

theorem of_mem (h : n ∈ opened) : LeadsBack edge opened n [] n where
  starts := rfl
  leads := .singleton n
  distinct := List.nodup_nil
  fresh k hk := nomatch hk
  back := by simpa using h

theorem step (hn : n ∉ opened) (he : edge n m) (h : LeadsBack edge (opened ++ [n]) m path k) :
    LeadsBack edge opened n (n :: path) k where
  starts := rfl
  leads := by
    rw [List.cons_append, List.isChain_cons]
    refine ⟨fun x hx => ?_, h.leads⟩
    rw [Option.mem_def, h.starts] at hx
    cases hx
    exact he
  distinct := by
    refine List.nodup_cons.mpr ⟨fun hmem => ?_, h.distinct⟩
    exact h.fresh n hmem (List.mem_append_right _ (List.mem_singleton_self n))
  fresh x hx hopen := by
    rcases List.mem_cons.mp hx with rfl | hx
    · exact hn hopen
    · exact h.fresh x hx (List.mem_append_left _ hopen)
  back := by simpa using h.back

/-- The path is not empty when nothing is open, since it holds the name it leads back to. -/
theorem head? (h : LeadsBack edge [] n path m) : path.head? = some n := by
  have hstarts := h.starts
  rwa [List.head?_append_of_ne_nil path (List.ne_nil_of_mem h.back)] at hstarts

/-- A path that meets itself leads to a name that leads to itself. -/
theorem circle (h : LeadsBack edge [] n path m) : ReflTransGen edge n m ∧ TransGen edge m m := by
  have hpairs : (path ++ [m]).Pairwise (TransGen edge) :=
    List.isChain_iff_pairwise.mp (h.leads.imp fun _ _ he => .single he)
  have hend : ∀ x ∈ path, TransGen edge x m :=
    fun x hx => (List.pairwise_append.mp hpairs).2.2 x hx m (List.mem_singleton_self m)
  have hn : n ∈ path := List.mem_of_mem_head? h.head?
  exact ⟨(hend n hn).to_reflTransGen, hend m h.back⟩

end LeadsBack

end SchemaLang
