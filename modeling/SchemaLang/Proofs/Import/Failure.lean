import SchemaLang.Proofs.Import.Unbounded

/-!
# When sources can be put in

All that a schema asks for can be put in exactly when every path that can be reached is in
the table, its text can be read, and no path leads back to itself.  A source that is in already
is passed over, which is right because it is finished: what it asks for has been looked at.

An error says what is in the way: a path that is not in the table, a text that cannot be read,
or the path of requests that was followed until it met itself.

## Main definitions

* `Sources.Sound` — the paths that are finished, while others are open.
* `Sources.Grows` — what putting in does to the paths that are finished.
* `Sources.Obstacle` — what is in the way of a request.

## Main results

* `Sources.grows_follow` — a request that succeeds finishes its path.
* `Sources.obstacle_of_follow` — an error says what is in the way.
* `Sources.expand_exact` — **when a schema can be expanded, and what an error says otherwise.**
-/

namespace SchemaLang

open Relation

namespace Sources

variable {sources others : Sources} {opened done : List String} {u : Use} {p q : String}
  {ns : List Node} {f : Use → Expanding (List Node)} {e : Error} {root : Schema}

/-! ### Success -/

/-- Finished paths are as they should be, and none of them is open. -/
structure Sound (sources : Sources) (opened done : List String) : Prop where
  settled : sources.Settled done
  apart : ∀ p ∈ opened, p ∉ done

theorem Sound.open (h : sources.Sound opened done) (new : p ∉ done) :
    sources.Sound (opened ++ [p]) done where
  settled := h.settled
  apart q hq := by
    rcases List.mem_append.mp hq with hq | hq
    · exact h.apart q hq
    · rw [List.mem_singleton.mp hq]
      exact new

/-- An open path is finished when all that its source asks for is. -/
theorem Sound.finish {s : Schema} (h : sources.Sound (opened ++ [p]) done) (fresh : p ∉ opened)
    (loads : sources.Loads p s) (asked : requested s.body ⊆ done) :
    sources.Sound opened (p :: done) where
  settled := .cons loads (h.apart p (by simp)) asked h.settled
  apart q hq hmem := by
    rcases List.mem_cons.mp hmem with rfl | hmem
    · exact fresh hq
    · exact h.apart q (List.mem_append_left _ hq) hmem

/-- Where putting in succeeds, the finished paths stay so, those in `asked` become finished,
and `P` is kept. -/
def Grows {α : Type} (P : List String → Prop) (asked : List String) (f : Expanding α) : Prop :=
  ∀ done r, P done → f done = .ok r → P r.2 ∧ done ⊆ r.2 ∧ asked ⊆ r.2

/-- Statements finish what they ask for when their requests do. -/
theorem Grows.nodes {P : List String → Prop} (ns : List Node)
    (h : ∀ u, .use u ∈ ns → Grows P (requested [.use u]) (f u)) :
    Grows P (requested ns) (expandNodes f ns) := by
  induction ns using nodes_induction with
  | nil =>
    intro done r hP hr
    cases hr
    exact ⟨hP, List.Subset.refl _, List.nil_subset _⟩
  | use u ns ih =>
    intro done r hP hr
    rw [expandNodes_use] at hr
    cases hfirst : f u done with
    | error e =>
      rw [hfirst] at hr
      cases hr
    | ok r₁ =>
      rw [hfirst] at hr
      obtain ⟨r₂, hrest, rfl⟩ := Except.map_eq_ok_iff.mp hr
      obtain ⟨hP₁, hdone₁, hasked₁⟩ := h u List.mem_cons_self done r₁ hP hfirst
      have hns := ih fun v hv => h v (List.mem_cons_of_mem _ hv)
      obtain ⟨hP₂, hdone₂, hasked₂⟩ := hns r₁.2 r₂ hP₁ hrest
      rw [requested_cons]
      exact ⟨hP₂, List.Subset.trans hdone₁ hdone₂,
        List.append_subset.mpr ⟨List.Subset.trans hasked₁ hdone₂, hasked₂⟩⟩
  | other n ns hn ih =>
    intro done r hP hr
    rw [expandNodes_of_ne hn] at hr
    obtain ⟨r₁, hrest, rfl⟩ := Except.map_eq_ok_iff.mp hr
    rw [requested_of_ne hn]
    exact ih (fun v hv => h v (List.mem_cons_of_mem _ hv)) done r₁ hP hrest

/-- A request that succeeds finishes its path. -/
theorem grows_follow (sources : Sources) (opened : List String) (u : Use) :
    Grows (sources.Sound opened) (requested [.use u]) (sources.follow opened u) := by
  induction opened using sources.opened_induction generalizing u with
  | step opened ih =>
  intro done r hsound hr
  by_cases hu : ∃ p, u.path = .string p
  · obtain ⟨p, hu⟩ := hu
    have hasked : requested [.use u] = [p] := by
      obtain ⟨path, pathSpan, span⟩ := u
      cases hu
      rfl
    rw [hasked, List.cons_subset, and_iff_left (List.nil_subset _)]
    cases sources.situation opened done p with
    | opened h =>
      rw [follow_of_opened hu h] at hr
      cases hr
    | done fresh h =>
      rw [follow_of_done hu fresh h] at hr
      cases hr
      exact ⟨hsound, List.Subset.refl _, h⟩
    | missing fresh new h =>
      rw [follow_of_missing hu fresh new h] at hr
      cases hr
    | unreadable fresh new text e ht he =>
      rw [follow_of_unreadable hu fresh new ht he] at hr
      cases hr
    | loads fresh new text s ht hs =>
      rw [follow_of_loads hu fresh new ht hs] at hr
      obtain ⟨r₁, hr₁, rfl⟩ := Except.map_eq_ok_iff.mp hr
      have hbody := Grows.nodes s.body fun v _ => ih p text fresh ht v
      obtain ⟨hsound₁, hdone₁, hasked₁⟩ := hbody done r₁ (hsound.open new) hr₁
      exact ⟨hsound₁.finish fresh ⟨text, ht, hs⟩ hasked₁, List.subset_cons_of_subset _ hdone₁,
        List.mem_cons_self⟩
  · have hne : ∀ p, u.path ≠ .string p := fun p hp => hu ⟨p, hp⟩
    rw [follow_of_not_string hne] at hr
    cases hr

/-- When a schema can be expanded, all that can be reached can be read, and nothing leads back
to itself. -/
theorem clear_of_expand {s : Schema} (h : sources.expand root = .ok s) :
    (∀ p, sources.Reachable root p → ∃ s, sources.Loads p s) ∧
      ¬ ∃ p, sources.Reachable root p ∧ TransGen sources.Edge p p := by
  rw [expand_eq_follow] at h
  obtain ⟨r, hr, -⟩ := Except.map_eq_ok_iff.mp h
  have hgrows := Grows.nodes root.body fun u _ => sources.grows_follow [] u
  obtain ⟨hsound, -, hasked⟩ := hgrows [] r ⟨.nil, by simp⟩ hr
  have hfinished : ∀ p, sources.Reachable root p → p ∈ r.2 := by
    rintro p ⟨first, hfirst, hp⟩
    exact hsound.settled.reaches (hasked hfirst) hp
  constructor
  · intro p hp
    exact hsound.settled.loads (hfinished p hp)
  · rintro ⟨p, hp, hcircle⟩
    exact hsound.settled.acyclic (hfinished p hp) hcircle

/-! ### Errors -/

/-- What is in the way of a request for a path while others are open. -/
inductive Obstacle (sources : Sources) (opened : List String) (p : String) : Error → Prop where
  | missing (q : String) (span : Span) (hq : ReflTransGen sources.Edge p q)
    (ht : Entries.get? sources q = none) :
    Obstacle sources opened p (.expand (.notFound q span))
  | unreadable (q text : String) (e : SyntaxError) (hq : ReflTransGen sources.Edge p q)
    (ht : Entries.get? sources q = some text) (he : parseSchema text.toList = .error e) :
    Obstacle sources opened p (.parse q e)
  | circle (path : List String) (q : String) (span : Span)
    (back : LeadsBack sources.Edge opened p path q) :
    Obstacle sources opened p (.expand (.circular (opened ++ path ++ [q]) span))

/-- What is in the way of a request in a source is in the way of the source. -/
theorem Obstacle.step (fresh : p ∉ opened) (he : sources.Edge p q)
    (h : sources.Obstacle (opened ++ [p]) q e) : sources.Obstacle opened p e := by
  cases h with
  | missing r span hr ht => exact .missing r span (hr.head he) ht
  | unreadable r text e hr ht hs => exact .unreadable r text e (hr.head he) ht hs
  | circle path r span back =>
    have hchain : opened ++ [p] ++ path ++ [r] = opened ++ (p :: path) ++ [r] := by simp
    rw [hchain]
    exact .circle (p :: path) r span (back.step fresh he)

/-- Statements fail when one of their requests does. -/
theorem exists_error_of_nodes (h : expandNodes f ns done = .error e) :
    ∃ u done', .use u ∈ ns ∧ f u done' = .error e := by
  induction ns using nodes_induction generalizing done with
  | nil => cases h
  | use u ns ih =>
    rw [expandNodes_use] at h
    cases hfirst : f u done with
    | error e' =>
      rw [hfirst] at h
      cases h
      exact ⟨u, done, List.mem_cons_self, hfirst⟩
    | ok r =>
      rw [hfirst] at h
      obtain ⟨v, done', hv, he⟩ := ih (Except.map_eq_error_iff.mp h)
      exact ⟨v, done', List.mem_cons_of_mem _ hv, he⟩
  | other n ns hn ih =>
    rw [expandNodes_of_ne hn] at h
    obtain ⟨v, done', hv, he⟩ := ih (Except.map_eq_error_iff.mp h)
    exact ⟨v, done', List.mem_cons_of_mem _ hv, he⟩

/-- An error says what is in the way. -/
theorem obstacle_of_follow (hu : u.path = .string p) (h : sources.follow opened u done = .error e) :
    sources.Obstacle opened p e := by
  induction opened using sources.opened_induction generalizing u p done with
  | step opened ih =>
  cases sources.situation opened done p with
  | opened hopened =>
    rw [follow_of_opened hu hopened] at h
    cases h
    -- The path from a source that is open is empty: the request itself leads back.
    have hback : LeadsBack sources.Edge opened p [] p := .of_mem hopened
    have hpath := Obstacle.circle [] p u.span hback
    rwa [List.append_nil] at hpath
  | done fresh hdone =>
    rw [follow_of_done hu fresh hdone] at h
    cases h
  | missing fresh new hnone =>
    rw [follow_of_missing hu fresh new hnone] at h
    cases h
    exact .missing p u.span .refl hnone
  | unreadable fresh new text e ht he =>
    rw [follow_of_unreadable hu fresh new ht he] at h
    cases h
    exact .unreadable p text e .refl ht he
  | loads fresh new text s ht hs =>
    rw [follow_of_loads hu fresh new ht hs] at h
    obtain ⟨v, done', hv, he⟩ := exists_error_of_nodes (Except.map_eq_error_iff.mp h)
    -- What was read asks by strings, so the request that fails is an edge of the graph.
    obtain ⟨q, hq⟩ := exists_string_of_use hs hv
    have hedge : sources.Edge p q := ⟨s, ⟨text, ht, hs⟩, mem_requested_iff.mpr ⟨v, hv, hq⟩⟩
    exact .step fresh hedge (ih p text fresh ht hq he)

theorem obstacle_of_expand (hroot : ∀ u, .use u ∈ root.body → ∃ p, u.path = .string p)
    (h : sources.expand root = .error e) : ∃ p ∈ requested root.body, sources.Obstacle [] p e := by
  rw [expand_eq_follow] at h
  obtain ⟨u, done, hu, he⟩ := exists_error_of_nodes (Except.map_eq_error_iff.mp h)
  obtain ⟨p, hp⟩ := hroot u hu
  exact ⟨p, mem_requested_iff.mpr ⟨u, hu, hp⟩, obstacle_of_follow hp he⟩

/-- Where all that can be reached can be read and nothing leads back to itself, nothing is in
the way. -/
theorem not_obstacle_of_clear (hp : p ∈ requested root.body)
    (hloads : ∀ p, sources.Reachable root p → ∃ s, sources.Loads p s)
    (hacyclic : ¬ ∃ p, sources.Reachable root p ∧ TransGen sources.Edge p p) :
    ¬ sources.Obstacle [] p e := by
  intro h
  cases h with
  | missing q span hq ht =>
    obtain ⟨s, text, ht', -⟩ := hloads q ⟨p, hp, hq⟩
    rw [ht] at ht'
    cases ht'
  | unreadable q text e hq ht he =>
    obtain ⟨s, text', ht', hs⟩ := hloads q ⟨p, hp, hq⟩
    rw [ht] at ht'
    cases ht'
    rw [he] at hs
    cases hs
  | circle path q span back =>
    obtain ⟨hq, hcircle⟩ := back.circle
    exact hacyclic ⟨q, ⟨p, hp, hq⟩, hcircle⟩

/-- **When a schema can be expanded, and what an error says otherwise.**  No bound is needed
for the recursion to end.  A schema that was read can be expanded exactly when each path that
can be reached from it is in the table with a text that can be read, and none of them leads
back to itself.  An error names a path that is missing, or one whose text cannot be read, or
the path that was followed from a request of the schema until it met itself.  Texts at paths
that cannot be reached do not matter. -/
theorem expand_exact (sources : Sources) (source : List Char) (root : Schema)
    (h : parseSchema source = .ok root) :
    (sources.expand root =
      (expandNodes (sources.follow []) root.body []).map fun r => ⟨r.1, root.span⟩) ∧
    ((∃ s, sources.expand root = .ok s) ↔
      (∀ p, sources.Reachable root p → ∃ s, sources.Loads p s) ∧
      ¬ ∃ p, sources.Reachable root p ∧ TransGen sources.Edge p p) ∧
    (∀ e, sources.expand root = .error e →
      (∃ p span, e = .expand (.notFound p span) ∧ sources.Reachable root p ∧
        Entries.get? sources p = none) ∨
      (∃ p text cause, e = .parse p cause ∧ sources.Reachable root p ∧
        Entries.get? sources p = some text ∧ parseSchema text.toList = .error cause) ∨
      ∃ path q span, e = .expand (.circular (path ++ [q]) span) ∧
        (∃ p ∈ requested root.body, path.head? = some p) ∧
        (path ++ [q]).IsChain sources.Edge ∧ path.Nodup ∧ q ∈ path) ∧
    ∀ others : Sources,
      (∀ p, sources.Reachable root p → Entries.get? others p = Entries.get? sources p) →
      others.expand root = sources.expand root := by
  have hroot : ∀ u, .use u ∈ root.body → ∃ p, u.path = .string p :=
    fun u hu => exists_string_of_use h hu
  refine ⟨sources.expand_eq_follow root, ⟨?_, ?_⟩, ?_, ?_⟩
  · rintro ⟨s, hs⟩
    exact clear_of_expand hs
  · rintro ⟨hloads, hacyclic⟩
    cases hr : sources.expand root with
    | ok s => exact ⟨s, rfl⟩
    | error e =>
      obtain ⟨p, hp, hobstacle⟩ := obstacle_of_expand hroot hr
      exact absurd hobstacle (not_obstacle_of_clear hp hloads hacyclic)
  · intro e he
    obtain ⟨p, hp, hobstacle⟩ := obstacle_of_expand hroot he
    cases hobstacle with
    | missing q span hq ht => exact .inl ⟨q, span, rfl, ⟨p, hp, hq⟩, ht⟩
    | unreadable q text cause hq ht hs =>
      exact .inr (.inl ⟨q, text, cause, rfl, ⟨p, hp, hq⟩, ht, hs⟩)
    | circle path q span back =>
      exact .inr (.inr ⟨path, q, span, rfl, ⟨p, hp, back.head?⟩, back.leads, back.distinct, back.back⟩)
  · intro others hagree
    rw [expand_eq_follow, expand_eq_follow]
    congr 1
    refine expandNodes_congr (fun u hu done => ?_) []
    obtain ⟨p, hp⟩ := hroot u hu
    have hasked : p ∈ requested root.body := mem_requested_iff.mpr ⟨u, hu, hp⟩
    exact follow_congr hp (fun q hq => hagree q ⟨p, hasked, hq⟩) done

theorem expand_exact_diamond :
    let sources : Sources :=
      [("l", "use \"d\""), ("r", "use \"d\""), ("d", ""), ("x", "use \"x\" enum")]
    ∃ root s, parseSchema "use \"l\" use \"r\"".toList = .ok root ∧
      sources.expand root = .ok s ∧
      (∀ p, sources.Reachable root p → ∃ s, sources.Loads p s) ∧
      ¬ ∃ p, sources.Reachable root p ∧ TransGen sources.Edge p p := by
  intro sources
  have hread : (parseSchema "use \"l\" use \"r\"".toList).isOk := by decide +kernel
  cases hroot : parseSchema "use \"l\" use \"r\"".toList with
  | error e =>
    rw [hroot] at hread
    cases hread
  | ok root =>
    have hexpand : ((parseSchema "use \"l\" use \"r\"".toList).toOption.any
        fun root => (sources.expand root).isOk) := by decide +kernel
    rw [hroot] at hexpand
    cases hs : sources.expand root with
    | error e => simp [Except.toOption, hs, Except.isOk, Except.toBool] at hexpand
    | ok s => exact ⟨root, s, rfl, hs, (expand_exact sources _ root hroot).2.1.mp ⟨s, hs⟩⟩

end Sources

end SchemaLang
