import SchemaLang.Proofs.Import.Graph
import SchemaLang.Proofs.Resolve.Inline
import SchemaLang.Proofs.Trail
import SchemaLang.Proofs.Value.Equality

/-!
# Putting sources in without a bound

The depth to which sources are put into each other is bounded by the size of the table.  This
bound is never felt: every path that is opened is in the table and was not open before, so the
recursion ends by itself, and without the bound the result is the same.

What a request comes to depends on the table in two places only: the text of the path it asks
for, and what the requests in that text come to.

## Main definitions

* `Sources.follow` — what a request stands for, without a bound.
* `Sources.Situation` — what a request may meet.

## Main results

* `Sources.expandUse_eq_follow`, `Sources.expand_eq_follow` — the bound is never felt.
* `Sources.follow_congr` — only paths that can be reached matter.
-/

namespace SchemaLang

open Relation

namespace Sources

variable {sources others : Sources} {opened done : List String} {u : Use} {p : String}
  {ns : List Node} {f g : Use → Expanding (List Node)}

/-! ### Statements one after the other -/

theorem expandNodes_use (f : Use → Expanding (List Node)) (u : Use) (ns : List Node)
    (done : List String) : expandNodes f (.use u :: ns) done =
      (f u done).bind fun r => (expandNodes f ns r.2).map fun r' => (.use u :: r.1 ++ r'.1, r'.2) := by
  rw [expandNodes]
  cases f u done with
  | error e => rfl
  | ok r =>
    obtain ⟨imported, done'⟩ := r
    cases hns : expandNodes f ns done' with
    | error e => simp [Except.bind, Except.map, hns]
    | ok r' => simp [Except.bind, Except.map, hns]

theorem expandNodes_of_ne {n : Node} (hn : ∀ u, n ≠ .use u) (f : Use → Expanding (List Node))
    (ns : List Node) (done : List String) :
    expandNodes f (n :: ns) done = (expandNodes f ns done).map fun r => (n :: r.1, r.2) := by
  cases n with
  | use u => exact absurd rfl (hn u)
  | declaration d =>
    rw [expandNodes]
    · cases expandNodes f ns done <;> rfl
    · simp
  | schema body span =>
    rw [expandNodes]
    · cases expandNodes f ns done <;> rfl
    · simp

/-- Statements are requests and others. -/
theorem nodes_induction {motive : List Node → Prop} (nil : motive [])
    (use : ∀ u ns, motive ns → motive (.use u :: ns))
    (other : ∀ n ns, (∀ u, n ≠ .use u) → motive ns → motive (n :: ns)) (ns : List Node) :
    motive ns := by
  induction ns with
  | nil => exact nil
  | cons n ns ih =>
    cases n with
    | use u => exact use u ns ih
    | declaration d => exact other _ ns (by simp) ih
    | schema body span => exact other _ ns (by simp) ih

/-- Statements come to the same when their requests do. -/
theorem expandNodes_congr (h : ∀ u, .use u ∈ ns → ∀ done, f u done = g u done)
    (done : List String) : expandNodes f ns done = expandNodes g ns done := by
  induction ns using nodes_induction generalizing done with
  | nil => rfl
  | use u ns ih =>
    have hns := ih fun v hv => h v (List.mem_cons_of_mem _ hv)
    rw [expandNodes_use, expandNodes_use, h u List.mem_cons_self]
    simp only [hns]
  | other n ns hn ih =>
    have hns := ih fun v hv => h v (List.mem_cons_of_mem _ hv)
    rw [expandNodes_of_ne hn, expandNodes_of_ne hn, hns]

/-! ### Without a bound -/

/-- The paths of the table that are not open. -/
def unopened (sources : Sources) (opened : List String) : List String :=
  (Entries.keys sources).filter (· ∉ opened)

theorem length_unopened_lt {text : String} (hp : p ∉ opened)
    (ht : Entries.get? sources p = some text) :
    (sources.unopened (opened ++ [p])).length < (sources.unopened opened).length :=
  length_filter_opened_lt hp (Entries.mem_keys_of_get? ht)

/-- What a request stands for, where `opened` are the paths being put in. -/
def follow (sources : Sources) (opened : List String) (u : Use) : Expanding (List Node) := fun done =>
  match u.path with
  | .string path =>
    if _h : path ∈ opened then .error (.expand (.circular (opened ++ [path]) u.span))
    else if path ∈ done then .ok ([], done)
    else
      match _ht : Entries.get? sources path with
      | none => .error (.expand (.notFound path u.span))
      | some text =>
        match parseSchema text.toList with
        | .error e => .error (.parse path e)
        | .ok schema =>
          (expandNodes (fun v => follow sources (opened ++ [path]) v) schema.body done).map fun r =>
            (r.1, path :: r.2)
  | _ => .error (.compile (.invalidImport u.span))
termination_by (sources.unopened opened).length
decreasing_by exact length_unopened_lt _h _ht

/-- A statement about open paths holds when it holds for some if it does with any other path
of the table open as well. -/
theorem opened_induction {motive : List String → Prop} (sources : Sources)
    (step : ∀ opened, (∀ p text, p ∉ opened → Entries.get? sources p = some text →
      motive (opened ++ [p])) → motive opened) (opened : List String) : motive opened :=
  step opened fun p _ _h _ht => opened_induction sources step (opened ++ [p])
termination_by (sources.unopened opened).length
decreasing_by exact length_unopened_lt _h _ht

/-- What a request for a path may meet. -/
inductive Situation (sources : Sources) (opened done : List String) (p : String) : Prop where
  | opened (h : p ∈ opened)
  | done (fresh : p ∉ opened) (h : p ∈ done)
  | missing (fresh : p ∉ opened) (new : p ∉ done) (h : Entries.get? sources p = none)
  | unreadable (fresh : p ∉ opened) (new : p ∉ done) (text : String) (e : SyntaxError)
    (ht : Entries.get? sources p = some text) (he : parseSchema text.toList = .error e)
  | loads (fresh : p ∉ opened) (new : p ∉ done) (text : String) (s : Schema)
    (ht : Entries.get? sources p = some text) (hs : parseSchema text.toList = .ok s)

theorem situation (sources : Sources) (opened done : List String) (p : String) :
    sources.Situation opened done p := by
  by_cases hopened : p ∈ opened
  · exact .opened hopened
  by_cases hdone : p ∈ done
  · exact .done hopened hdone
  cases ht : Entries.get? sources p with
  | none => exact .missing hopened hdone ht
  | some text =>
    cases hs : parseSchema text.toList with
    | error e => exact .unreadable hopened hdone text e ht hs
    | ok s => exact .loads hopened hdone text s ht hs

section Follow

variable (hu : u.path = .string p)

include hu

theorem follow_of_opened (h : p ∈ opened) :
    sources.follow opened u done = .error (.expand (.circular (opened ++ [p]) u.span)) := by
  rw [follow, hu]
  simp only [dif_pos h]

theorem follow_of_done (fresh : p ∉ opened) (h : p ∈ done) :
    sources.follow opened u done = .ok ([], done) := by
  rw [follow, hu]
  simp only [dif_neg fresh, if_pos h]

theorem follow_of_missing (fresh : p ∉ opened) (new : p ∉ done)
    (h : Entries.get? sources p = none) :
    sources.follow opened u done = .error (.expand (.notFound p u.span)) := by
  rw [follow, hu]
  simp only [dif_neg fresh, if_neg new]
  split
  · rfl
  · simp_all

theorem follow_of_unreadable (fresh : p ∉ opened) (new : p ∉ done) {text : String}
    {e : SyntaxError} (ht : Entries.get? sources p = some text)
    (he : parseSchema text.toList = .error e) :
    sources.follow opened u done = .error (.parse p e) := by
  rw [follow, hu]
  simp only [dif_neg fresh, if_neg new]
  split
  · simp_all
  · simp_all

theorem follow_of_loads (fresh : p ∉ opened) (new : p ∉ done) {text : String} {s : Schema}
    (ht : Entries.get? sources p = some text) (hs : parseSchema text.toList = .ok s) :
    sources.follow opened u done =
      (expandNodes (sources.follow (opened ++ [p])) s.body done).map fun r => (r.1, p :: r.2) := by
  rw [follow, hu]
  simp only [dif_neg fresh, if_neg new]
  split
  · simp_all
  · simp_all

end Follow

theorem follow_of_not_string (hu : ∀ p, u.path ≠ .string p) :
    sources.follow opened u done = .error (.compile (.invalidImport u.span)) := by
  rw [follow]
  split
  · rename_i path hpath
    exact absurd hpath (hu path)
  · rfl

/-! ### The bound is never felt -/

/-- With room for all paths that are not open, the bound is not felt. -/
theorem expandUse_eq_follow {room : Nat} (hroom : (sources.unopened opened).length ≤ room) (u : Use)
    (done : List String) : sources.expandUse room opened u done = sources.follow opened u done := by
  induction opened using sources.opened_induction generalizing room u done with
  | step opened ih =>
  by_cases hu : ∃ p, u.path = .string p
  · obtain ⟨p, hu⟩ := hu
    cases sources.situation opened done p with
    | opened h =>
      rw [follow_of_opened hu h]
      simp [expandUse, hu, h]
    | done fresh h =>
      rw [follow_of_done hu fresh h]
      simp [expandUse, hu, fresh, h]
    | missing fresh new h =>
      rw [follow_of_missing hu fresh new h]
      simp [expandUse, hu, fresh, new, h]
    | unreadable fresh new text e ht he =>
      rw [follow_of_unreadable hu fresh new ht he]
      simp [expandUse, hu, fresh, new, ht, he]
    | loads fresh new text s ht hs =>
      -- The path is one of those that are not open, so there is room for it.
      have hlt := length_unopened_lt fresh ht
      obtain ⟨left, rfl⟩ : ∃ left, room = left + 1 := ⟨room - 1, by omega⟩
      have hleft : (sources.unopened (opened ++ [p])).length ≤ left := by omega
      have hbody : expandNodes (sources.expandUse left (opened ++ [p])) s.body done =
          expandNodes (sources.follow (opened ++ [p])) s.body done :=
        expandNodes_congr (fun v _ done => ih p text fresh ht hleft v done) done
      rw [follow_of_loads hu fresh new ht hs, ← hbody]
      simp only [expandUse, hu, if_neg fresh, if_neg new, ht, hs]
      cases expandNodes (sources.expandUse left (opened ++ [p])) s.body done <;> rfl
  · have hne : ∀ p, u.path ≠ .string p := fun p hp => hu ⟨p, hp⟩
    rw [follow_of_not_string hne, expandUse]
    split
    · rename_i path hpath
      exact absurd hpath (hne path)
    · rfl

/-- A schema with all it asks for does not depend on the bound. -/
theorem expand_eq_follow (sources : Sources) (root : Schema) :
    sources.expand root =
      (expandNodes (sources.follow []) root.body []).map fun r => ⟨r.1, root.span⟩ := by
  have hroom : (sources.unopened []).length ≤ sources.length := by
    simp [unopened, Entries.keys]
  rw [expand, expandNodes_congr fun u _ done => expandUse_eq_follow hroom u done]

/-! ### What the result depends on -/

/-- A request comes to the same in another table with the same texts at all paths that can be
reached from it. -/
theorem follow_congr (hu : u.path = .string p)
    (h : ∀ q, ReflTransGen sources.Edge p q → Entries.get? others q = Entries.get? sources q)
    (done : List String) : others.follow opened u done = sources.follow opened u done := by
  induction opened using sources.opened_induction generalizing u p done with
  | step opened ih =>
  have hp := h p .refl
  cases sources.situation opened done p with
  | opened hopened => rw [follow_of_opened hu hopened, follow_of_opened hu hopened]
  | done fresh hdone => rw [follow_of_done hu fresh hdone, follow_of_done hu fresh hdone]
  | missing fresh new hnone =>
    rw [follow_of_missing hu fresh new hnone, follow_of_missing hu fresh new (hp.trans hnone)]
  | unreadable fresh new text e ht he =>
    rw [follow_of_unreadable hu fresh new ht he, follow_of_unreadable hu fresh new (hp.trans ht) he]
  | loads fresh new text s ht hs =>
    rw [follow_of_loads hu fresh new ht hs, follow_of_loads hu fresh new (hp.trans ht) hs]
    congr 1
    refine expandNodes_congr (fun v hv done => ?_) done
    obtain ⟨q, hq⟩ := exists_string_of_use hs hv
    have he : sources.Edge p q := ⟨s, ⟨text, ht, hs⟩, mem_requested_iff.mpr ⟨v, hv, hq⟩⟩
    exact ih p text fresh ht hq (fun r hr => h r (hr.head he)) done

end Sources

end SchemaLang
