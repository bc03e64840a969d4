import SchemaLang.Proofs.Import.Failure
import Mathlib.Algebra.GroupWithZero.Nat

/-!
# What stands where when sources are put in

Putting sources in leaves every statement of the schema in its place and puts whole sources
between them, one inside the other.  So the result is kept here as a tree: a request either
stands alone, or the source that it asks for stands right after it.  Read in order the tree
gives the statements of the result, each with the source that it comes from; the place of a
statement can be told even where two sources have the same statements.

What is known of the tree follows from how it grows: a source is put in when it is asked for
the first time, and is finished before the statement after the request is reached.

## Main definitions

* `Splice` — an expanded source, as a tree.
* `Splice.entries`, `Splice.requests` — its statements with their sources, and its requests.
* `Sources.Yields` — what statements become where some sources are in already.
* `Sources.LeadsTo` — a request leads to the source of a statement.

## Main results

* `Sources.yields_of_expand` — the result of an expansion is such a tree.
* `Sources.Yields.statementsOf_entries` — each source stands in it once.
* `Sources.Yields.firstsFilled` — a request is filled where its path comes first.
* `Sources.Yields.ordered` — what a request leads to stands before what follows the request.
* `Sources.expand_spliced` — **all of it, for the result of an expansion.**
-/

namespace SchemaLang

open Relation

/-! ### Trees -/

/-- An expanded source, statement by statement. -/
inductive Splice where
  /-- No more statements. -/
  | nil : Splice
  /-- A statement that asks for nothing, and the rest. -/
  | plain (statement : Node) (rest : Splice) : Splice
  /-- A request alone, and the rest. -/
  | bare (statement : Use) (path : String) (rest : Splice) : Splice
  /-- A request with the source it asks for after it, and the rest. -/
  | filled (statement : Use) (path : String) (body rest : Splice) : Splice
  deriving Repr, Inhabited

/-- A statement with the path of the source it comes from; the schema itself has none. -/
abbrev Entry : Type := Option String × Node

namespace Splice

/-- The statements in order, each with its source; `owner` is that of the outermost ones. -/
def entries (owner : Option String) : Splice → List Entry
  | .nil => []
  | .plain n rest => (owner, n) :: entries owner rest
  | .bare u _ rest => (owner, .use u) :: entries owner rest
  | .filled u p body rest => (owner, .use u) :: (entries (some p) body ++ entries owner rest)

/-- The statements in order. -/
def nodes : Splice → List Node
  | .nil => []
  | .plain n rest => n :: nodes rest
  | .bare u _ rest => .use u :: nodes rest
  | .filled u _ body rest => .use u :: (nodes body ++ nodes rest)

/-- The paths asked for in order, each with whether its source stands after the request. -/
def requests : Splice → List (String × Bool)
  | .nil => []
  | .plain _ rest => requests rest
  | .bare _ p rest => (p, false) :: requests rest
  | .filled _ p body rest => (p, true) :: (requests body ++ requests rest)

theorem map_entries (owner : Option String) (t : Splice) :
    (t.entries owner).map (·.2) = t.nodes := by
  induction t generalizing owner with
  | nil => rfl
  | plain n rest ih => simp only [entries, nodes, List.map_cons, ih]
  | bare u p rest ih => simp only [entries, nodes, List.map_cons, ih]
  | filled u p body rest ihbody ihrest =>
    simp only [entries, nodes, List.map_cons, List.map_append, ihbody, ihrest]

end Splice

/-- Those of some entries that come from a source. -/
def statementsOf (owner : Option String) (es : List Entry) : List Node :=
  (es.filter (·.1 = owner)).map (·.2)

theorem statementsOf_cons_self (owner : Option String) (n : Node) (es : List Entry) :
    statementsOf owner ((owner, n) :: es) = n :: statementsOf owner es := by
  simp [statementsOf]

theorem statementsOf_cons_of_ne {owner other : Option String} (h : owner ≠ other) (n : Node)
    (es : List Entry) : statementsOf other ((owner, n) :: es) = statementsOf other es := by
  simp [statementsOf, h]

/-- A statement of the outermost source in front of the others. -/
theorem statementsOf_cons_ite {owner other : Option String} {es : List Entry} {ns others : List Node}
    (h : statementsOf other es = if other = owner then ns else others) (n : Node) :
    statementsOf other ((owner, n) :: es) = if other = owner then n :: ns else others := by
  by_cases ho : other = owner
  · subst ho
    rw [if_pos rfl] at h ⊢
    rw [statementsOf_cons_self, h]
  · rw [if_neg ho] at h ⊢
    rw [statementsOf_cons_of_ne (Ne.symm ho), h]

theorem statementsOf_append (owner : Option String) (es fs : List Entry) :
    statementsOf owner (es ++ fs) = statementsOf owner es ++ statementsOf owner fs := by
  simp [statementsOf]

/-! ### Requests that are filled -/

/-- A request is filled exactly where its path comes first, and is none of those in `done`. -/
def FirstsFilled (done : List String) (rs : List (String × Bool)) : Prop :=
  ∀ pre p filled post, rs = pre ++ (p, filled) :: post →
    (filled = true ↔ p ∉ done ∧ p ∉ pre.map (·.1))

namespace FirstsFilled

variable {done done' : List String} {p : String} {filled : Bool} {rs rs' : List (String × Bool)}

theorem nil (done : List String) : FirstsFilled done [] := by
  intro pre p filled post h
  simp at h

/-- A request that was passed counts as one of those in `done`. -/
theorem cons (hp : filled = true ↔ p ∉ done) (h : FirstsFilled (p :: done) rs) :
    FirstsFilled done ((p, filled) :: rs) := by
  intro pre q b post hrs
  cases pre with
  | nil =>
    cases hrs
    simpa using hp
  | cons first pre =>
    cases hrs
    rw [h pre q b post rfl]
    simp only [List.mem_cons, List.map_cons, not_or]
    tauto

/-- Only which paths are in `done` matters. -/
theorem congr (hdone : ∀ q, q ∈ done ↔ q ∈ done') (h : FirstsFilled done rs) :
    FirstsFilled done' rs := by
  intro pre p filled post hrs
  rw [h pre p filled post hrs, hdone]

theorem append (h : FirstsFilled done rs) (h' : FirstsFilled (rs.map (·.1) ++ done) rs') :
    FirstsFilled done (rs ++ rs') := by
  induction rs generalizing done with
  | nil => exact h'
  | cons r rs ih =>
    obtain ⟨p, filled⟩ := r
    have hp := h [] p filled rs rfl
    refine cons (by simpa using hp) (ih ?_ (h'.congr ?_))
    · intro pre q b post hrs
      rw [h ((p, filled) :: pre) q b post (by rw [hrs, List.cons_append])]
      simp only [List.mem_cons, List.map_cons, not_or]
      tauto
    · intro q
      simp only [List.mem_append, List.map_cons, List.mem_cons]
      tauto

end FirstsFilled

namespace Sources

variable {sources : Sources} {opened done done' : List String} {owner : Option String}
  {ns : List Node} {t : Splice} {p : String}

theorem requested_use {u : Use} (h : u.path = .string p) (ns : List Node) :
    requested (.use u :: ns) = p :: requested ns := by
  obtain ⟨path, pathSpan, span⟩ := u
  cases h
  rfl

/-! ### How trees grow -/

/-- The statements of the source at a path; none if it cannot be read. -/
def statements (sources : Sources) (p : String) : List Node :=
  match (Entries.get? sources p).map fun text => parseSchema text.toList with
  | some (.ok s) => s.body
  | _ => []

theorem Loads.statements_eq {s : Schema} (h : sources.Loads p s) :
    sources.statements p = s.body := by
  obtain ⟨text, ht, hs⟩ := h
  simp only [statements, ht, Option.map_some, hs]

/-- Where the sources in `done` are in already, statements become a tree, and then the sources
in the second list are in.  A request for a source that is in stands alone; any other is
followed by its source, which is in when all its statements are. -/
inductive Yields (sources : Sources) : List String → List Node → Splice → List String → Prop where
  | nil {done : List String} : Yields sources done [] .nil done
  | plain {done done' : List String} {n : Node} {ns : List Node} {rest : Splice}
    (other : ∀ u, n ≠ .use u) (tail : Yields sources done ns rest done') :
    Yields sources done (n :: ns) (.plain n rest) done'
  | bare {done done' : List String} {u : Use} {p : String} {ns : List Node} {rest : Splice}
    (asks : u.path = .string p) (known : p ∈ done) (tail : Yields sources done ns rest done') :
    Yields sources done (.use u :: ns) (.bare u p rest) done'
  | filled {done inner done' : List String} {u : Use} {p : String} {s : Schema} {ns : List Node}
    {body rest : Splice} (asks : u.path = .string p) (new : p ∉ done) (loads : sources.Loads p s)
    (inside : Yields sources done s.body body inner) (fresh : p ∉ inner)
    (tail : Yields sources (p :: inner) ns rest done') :
    Yields sources done (.use u :: ns) (.filled u p body rest) done'

/-- What a request comes to where it succeeds. -/
inductive Answers (sources : Sources) (done : List String) (u : Use) :
    List Node × List String → Prop where
  | bare {p : String} (asks : u.path = .string p) (known : p ∈ done) :
    Answers sources done u ([], done)
  | filled {p : String} {s : Schema} {body : Splice} {inner : List String}
    (asks : u.path = .string p) (new : p ∉ done) (loads : sources.Loads p s)
    (inside : sources.Yields done s.body body inner) (fresh : p ∉ inner) :
    Answers sources done u (body.nodes, p :: inner)

/-- Statements become a tree when their requests are answered. -/
theorem exists_yields_of_nodes {r : List Node × List String}
    (h : ∀ u, .use u ∈ ns → ∀ done r, sources.Sound opened done →
      sources.follow opened u done = .ok r → sources.Answers done u r)
    (hsound : sources.Sound opened done)
    (hr : expandNodes (sources.follow opened) ns done = .ok r) :
    ∃ t, sources.Yields done ns t r.2 ∧ t.nodes = r.1 := by
  induction ns using nodes_induction generalizing done r with
  | nil =>
    cases hr
    exact ⟨.nil, .nil, rfl⟩
  | use u ns ih =>
    rw [expandNodes_use] at hr
    cases hfirst : sources.follow opened u done with
    | error e =>
      rw [hfirst] at hr
      cases hr
    | ok r₁ =>
      rw [hfirst] at hr
      obtain ⟨r₂, hrest, rfl⟩ := Except.map_eq_ok_iff.mp hr
      have hsound₁ := (sources.grows_follow opened u done r₁ hsound hfirst).1
      have hns := fun v hv => h v (List.mem_cons_of_mem _ hv)
      obtain ⟨rest, htail, hnodes⟩ := ih hns hsound₁ hrest
      cases h u List.mem_cons_self done r₁ hsound hfirst with
      | @bare p asks known =>
        refine ⟨.bare u p rest, .bare asks known htail, ?_⟩
        rw [Splice.nodes, hnodes]
        rfl
      | @filled p s body inner asks new loads inside fresh =>
        refine ⟨.filled u p body rest, .filled asks new loads inside fresh htail, ?_⟩
        rw [Splice.nodes, hnodes]
        rfl
  | other n ns hn ih =>
    rw [expandNodes_of_ne hn] at hr
    obtain ⟨r₁, hrest, rfl⟩ := Except.map_eq_ok_iff.mp hr
    obtain ⟨rest, htail, hnodes⟩ := ih (fun v hv => h v (List.mem_cons_of_mem _ hv)) hsound hrest
    exact ⟨.plain n rest, .plain hn htail, by rw [Splice.nodes, hnodes]⟩

/-- A request that succeeds is answered. -/
theorem answers_of_follow {u : Use} {r : List Node × List String}
    (hsound : sources.Sound opened done) (hr : sources.follow opened u done = .ok r) :
    sources.Answers done u r := by
  induction opened using sources.opened_induction generalizing u done r with
  | step opened ih =>
  by_cases hu : ∃ p, u.path = .string p
  · obtain ⟨p, hu⟩ := hu
    cases sources.situation opened done p with
    | opened h =>
      rw [follow_of_opened hu h] at hr
      cases hr
    | done fresh h =>
      rw [follow_of_done hu fresh h] at hr
      cases hr
      exact .bare hu h
    | missing fresh new h =>
      rw [follow_of_missing hu fresh new h] at hr
      cases hr
    | unreadable fresh new text e ht he =>
      rw [follow_of_unreadable hu fresh new ht he] at hr
      cases hr
    | loads fresh new text s ht hs =>
      rw [follow_of_loads hu fresh new ht hs] at hr
      obtain ⟨r₁, hr₁, rfl⟩ := Except.map_eq_ok_iff.mp hr
      have hopen := hsound.open new
      obtain ⟨body, inside, hnodes⟩ := exists_yields_of_nodes
        (fun v _ done r hsound hr => ih p text fresh ht hsound hr) hopen hr₁
      -- A path that is open is not among those that are finished meanwhile.
      have hbody := (Grows.nodes s.body fun v _ => sources.grows_follow (opened ++ [p]) v)
        done r₁ hopen hr₁
      have hfresh : p ∉ r₁.2 := hbody.1.apart p (by simp)
      have hanswer := Answers.filled hu new ⟨text, ht, hs⟩ inside hfresh
      rwa [hnodes] at hanswer
  · have hne : ∀ p, u.path ≠ .string p := fun p hp => hu ⟨p, hp⟩
    rw [follow_of_not_string hne] at hr
    cases hr

/-- The result of an expansion is a tree. -/
theorem yields_of_expand {root result : Schema} (h : sources.expand root = .ok result) :
    ∃ paths t, sources.Yields [] root.body t paths ∧ t.nodes = result.body := by
  rw [expand_eq_follow] at h
  obtain ⟨r, hr, rfl⟩ := Except.map_eq_ok_iff.mp h
  obtain ⟨t, hyields, hnodes⟩ := exists_yields_of_nodes
    (fun u _ done r hsound hr => answers_of_follow hsound hr) ⟨.nil, by simp⟩ hr
  exact ⟨r.2, t, hyields, hnodes⟩

/-! ### Which sources are in -/

namespace Yields

/-- A statement of the tree is one of those given, or one of a source. -/
theorem source_of_node (h : sources.Yields done ns t done') {n : Node} (hn : n ∈ t.nodes) :
    n ∈ ns ∨ ∃ q s, sources.Loads q s ∧ n ∈ s.body := by
  induction h with
  | nil => cases hn
  | plain _ _ ih =>
    rcases List.mem_cons.mp hn with rfl | hn
    · exact .inl List.mem_cons_self
    · exact (ih hn).imp_left (List.mem_cons_of_mem _)
  | bare _ _ _ ih =>
    rcases List.mem_cons.mp hn with rfl | hn
    · exact .inl List.mem_cons_self
    · exact (ih hn).imp_left (List.mem_cons_of_mem _)
  | @filled _ _ _ _ p s _ _ _ _ _ loads _ _ _ ihbody ihrest =>
    rcases List.mem_cons.mp hn with rfl | hn
    · exact .inl List.mem_cons_self
    · rcases List.mem_append.mp hn with hn | hn
      · exact .inr ((ihbody hn).elim (fun hs => ⟨p, s, loads, hs⟩) id)
      · exact (ihrest hn).imp_left (List.mem_cons_of_mem _)

theorem subset (h : sources.Yields done ns t done') : done ⊆ done' := by
  induction h with
  | nil => exact List.Subset.refl _
  | plain _ _ ih => exact ih
  | bare _ _ _ ih => exact ih
  | filled _ _ _ _ _ _ ihbody ihrest =>
    exact List.Subset.trans ihbody (List.Subset.trans (List.subset_cons_self ..) ihrest)

/-- A source that is in was so before, or is asked for. -/
theorem mem_iff (h : sources.Yields done ns t done') (q : String) :
    q ∈ done' ↔ q ∈ done ∨ q ∈ t.requests.map (·.1) := by
  induction h with
  | nil => simp [Splice.requests]
  | plain _ _ ih => rw [ih, Splice.requests]
  | bare _ known _ ih =>
    rw [ih, Splice.requests, List.map_cons, List.mem_cons]
    constructor
    · tauto
    · rintro (hq | rfl | hq)
      · exact .inl hq
      · exact .inl known
      · exact .inr hq
  | filled _ _ _ _ _ _ ihbody ihrest =>
    rw [ihrest, List.mem_cons, ihbody, Splice.requests, List.map_cons, List.map_append,
      List.mem_cons, List.mem_append]
    tauto

theorem map_requests (h : sources.Yields done ns t done') :
    t.requests.map (·.1) = requested t.nodes := by
  induction h with
  | nil => rfl
  | plain other _ ih => rw [Splice.requests, Splice.nodes, requested_of_ne other, ih]
  | bare asks _ _ ih => rw [Splice.requests, Splice.nodes, List.map_cons, requested_use asks, ih]
  | filled asks _ _ _ _ _ ihbody ihrest =>
    rw [Splice.requests, Splice.nodes, List.map_cons, List.map_append, requested_use asks, ihbody,
      ihrest, requested, requested, requested, List.filterMap_append]

theorem requested_subset (h : sources.Yields done ns t done') : requested ns ⊆ done' := by
  induction h with
  | nil => exact List.nil_subset _
  | plain other _ ih =>
    rw [requested_of_ne other]
    exact ih
  | bare asks known tail ih =>
    rw [requested_use asks]
    exact List.cons_subset.mpr ⟨tail.subset known, ih⟩
  | filled asks _ _ _ _ tail _ ihrest =>
    rw [requested_use asks]
    exact List.cons_subset.mpr ⟨tail.subset List.mem_cons_self, ihrest⟩

/-- Sources are in one after the other, each behind those that it asks for. -/
theorem settled (h : sources.Yields done ns t done') (hdone : sources.Settled done) :
    sources.Settled done' := by
  induction h with
  | nil => exact hdone
  | plain _ _ ih => exact ih hdone
  | bare _ _ _ ih => exact ih hdone
  | filled _ _ loads inside fresh _ ihbody ihrest =>
    exact ihrest (.cons loads fresh inside.requested_subset (ihbody hdone))

/-- Only what the statements lead to is put in. -/
theorem reachable (h : sources.Yields done ns t done') {q : String} (hq : q ∈ done')
    (hnew : q ∉ done) : ∃ r ∈ requested ns, ReflTransGen sources.Edge r q := by
  induction h with
  | nil => exact absurd hq hnew
  | plain other _ ih =>
    rw [requested_of_ne other]
    exact ih hq hnew
  | bare asks _ _ ih =>
    obtain ⟨r, hr, hreach⟩ := ih hq hnew
    rw [requested_use asks]
    exact ⟨r, List.mem_cons_of_mem _ hr, hreach⟩
  | @filled _ inner _ u p _ _ _ _ asks _ loads _ _ _ ihbody ihrest =>
    rw [requested_use asks]
    by_cases hqp : q ∈ p :: inner
    · -- It was put in with the source that is asked for first.
      refine ⟨p, List.mem_cons_self, ?_⟩
      rcases List.mem_cons.mp hqp with rfl | hqp
      · exact .refl
      · obtain ⟨r, hr, hreach⟩ := ihbody hqp hnew
        exact hreach.head ⟨_, loads, hr⟩
    · obtain ⟨r, hr, hreach⟩ := ihrest hq hqp
      exact ⟨r, List.mem_cons_of_mem _ hr, hreach⟩

theorem firstsFilled (h : sources.Yields done ns t done') : FirstsFilled done t.requests := by
  induction h with
  | nil => exact .nil _
  | plain _ _ ih => exact ih
  | bare _ known _ ih =>
    refine .cons (by simp [known]) (ih.congr fun q => ?_)
    rw [List.mem_cons]
    constructor
    · exact .inr
    · rintro (rfl | hq)
      · exact known
      · exact hq
  | @filled _ inner _ _ p _ _ body _ _ new _ inside fresh _ ihbody ihrest =>
    refine .cons (by simp [new]) (.append ?_ (ihrest.congr fun q => ?_))
    · -- The source does not ask for itself, so its path does not matter inside it.
      intro pre q filled post hrs
      have hqinner : q ∈ inner := by
        rw [inside.mem_iff, hrs]
        simp
      have hqp : q ≠ p := fun hqp => fresh (hqp ▸ hqinner)
      rw [ihbody pre q filled post hrs, List.mem_cons]
      simp [hqp]
    · rw [List.mem_cons, inside.mem_iff, List.mem_append, List.mem_cons]
      tauto

/-! ### Each source once -/

/-- What is put in of a source while the sources that are in become more. -/
def added (sources : Sources) (done done' : List String) : Option String → List Node
  | none => []
  | some q => if q ∈ done' ∧ q ∉ done then sources.statements q else []

theorem added_self (sources : Sources) (done : List String) (owner : Option String) :
    added sources done done owner = [] := by
  cases owner with
  | none => rfl
  | some q => simp [added]

theorem added_of_fresh (howner : ∀ q, owner = some q → q ∉ done') :
    added sources done done' owner = [] := by
  cases owner with
  | none => rfl
  | some q => simp [added, howner q rfl]

/-- What is put in by and by is put in at last. -/
theorem added_append {middle : List String} (h : done ⊆ middle) (h' : middle ⊆ done')
    (owner : Option String) :
    added sources done middle owner ++ added sources middle done' owner =
      added sources done done' owner := by
  cases owner with
  | none => rfl
  | some q =>
    by_cases hq : q ∈ middle
    · simp [added, hq, h' hq]
    · have hdone : q ∉ done := fun hmem => hq (h hmem)
      simp [added, hq, hdone]

/-- One more source that is finished. -/
theorem added_cons {inner : List String} (hsub : done ⊆ inner) (fresh : p ∉ inner)
    (owner : Option String) :
    added sources done (p :: inner) owner =
      if owner = some p then sources.statements p else added sources done inner owner := by
  cases owner with
  | none => simp [added]
  | some q =>
    by_cases hq : q = p
    · subst hq
      have hdone : q ∉ done := fun hmem => fresh (hsub hmem)
      simp [added, hdone]
    · simp [added, hq]

/-- The statements of each source in the tree: those of the outermost one are all there, and
of the others those that are put in. -/
theorem statementsOf_entries (h : sources.Yields done ns t done')
    (howner : ∀ q, owner = some q → q ∉ done') (other : Option String) :
    statementsOf other (t.entries owner) =
      if other = owner then ns else added sources done done' other := by
  induction h generalizing owner with
  | nil =>
    rw [Splice.entries, added_self, ite_self]
    rfl
  | plain _ _ ih => exact statementsOf_cons_ite (ih howner) _
  | bare _ _ _ ih => exact statementsOf_cons_ite (ih howner) _
  | @filled done inner _ _ p _ _ _ _ _ _ loads inside fresh tail ihbody ihrest =>
    have hinner : ∀ q, some p = some q → q ∉ inner := by
      rintro q ⟨⟩
      exact fresh
    have hpowner : owner ≠ some p := fun ho => howner p ho (tail.subset List.mem_cons_self)
    refine statementsOf_cons_ite ?_ _
    rw [statementsOf_append, ihbody hinner, ihrest howner]
    by_cases ho : other = owner
    · have hnone : added sources done inner other = [] := by
        refine added_of_fresh fun q hq hmem => ?_
        exact howner q (ho ▸ hq) (tail.subset (List.mem_cons_of_mem _ hmem))
      have hpother : other ≠ some p := ho ▸ hpowner
      rw [if_pos ho, if_pos ho, if_neg hpother, hnone, List.nil_append]
    · have hsub : done ⊆ p :: inner := List.subset_cons_of_subset _ inside.subset
      rw [if_neg ho, if_neg ho, ← added_append hsub tail.subset, added_cons inside.subset fresh,
        loads.statements_eq]

/-- The statements of the tree are those given and those of the sources put in. -/
theorem length_nodes (h : sources.Yields done ns t done') :
    t.nodes.length + (done.map fun q => (sources.statements q).length).sum =
      ns.length + (done'.map fun q => (sources.statements q).length).sum := by
  induction h with
  | nil => rfl
  | plain _ _ ih =>
    simp only [Splice.nodes, List.length_cons]
    omega
  | bare _ _ _ ih =>
    simp only [Splice.nodes, List.length_cons]
    omega
  | filled _ _ loads _ _ _ ihbody ihrest =>
    simp only [List.map_cons, List.sum_cons, loads.statements_eq] at ihrest
    simp only [Splice.nodes, List.length_cons, List.length_append]
    omega

/-- An entry comes from the outermost source or from one that is put in. -/
theorem source_of_mem (h : sources.Yields done ns t done')
    (howner : ∀ q, owner = some q → q ∉ done') {e : Entry} (he : e ∈ t.entries owner)
    (hne : e.1 ≠ owner) : ∃ q, e.1 = some q ∧ q ∈ done' ∧ q ∉ done := by
  have hmem : e.2 ∈ statementsOf e.1 (t.entries owner) :=
    List.mem_map_of_mem (List.mem_filter.mpr ⟨he, by simp⟩)
  rw [h.statementsOf_entries howner, if_neg hne] at hmem
  cases hsource : e.1 with
  | none =>
    rw [hsource] at hmem
    cases hmem
  | some q =>
    rw [hsource, added] at hmem
    split at hmem
    · rename_i hq
      exact ⟨q, rfl, hq⟩
    · cases hmem

/-- What is put in now was not in before. -/
theorem not_mem_of_mem (h : sources.Yields done ns t done')
    (howner : ∀ q, owner = some q → q ∉ done') {e : Entry} (he : e ∈ t.entries owner) {q : String}
    (hq : e.1 = some q) : q ∉ done := by
  by_cases hsource : e.1 = owner
  · exact fun hmem => howner q (hsource ▸ hq) (h.subset hmem)
  · obtain ⟨q', hq', -, hnew⟩ := h.source_of_mem howner he hsource
    rw [hq] at hq'
    cases hq'
    exact hnew

/-- What an entry asks for is in. -/
theorem requested_of_mem (h : sources.Yields done ns t done') {e : Entry}
    (he : e ∈ t.entries owner) : requested [e.2] ⊆ done' := by
  intro q hq
  have hnode : e.2 ∈ t.nodes := by
    rw [← Splice.map_entries owner]
    exact List.mem_map_of_mem he
  obtain ⟨u, hu, hpath⟩ := mem_requested_iff.mp hq
  rw [← List.mem_singleton.mp hu] at hnode
  rw [h.mem_iff, h.map_requests]
  exact .inr (mem_requested_iff.mpr ⟨u, hnode, hpath⟩)

end Yields

/-! ### What stands before what -/

/-- A statement asks for a path that leads to a source. -/
def LeadsTo (sources : Sources) (n : Node) (owner : Option String) : Prop :=
  ∃ p ∈ requested [n], ∃ q, ReflTransGen sources.Edge p q ∧ owner = some q

theorem not_leadsTo_of_ne {n : Node} (hn : ∀ u, n ≠ .use u) : ¬ sources.LeadsTo n owner := by
  rintro ⟨p, hp, -⟩
  rw [requested_of_ne hn] at hp
  cases hp

/-- When all that a statement asks for is finished, it leads to nothing that is not. -/
theorem Settled.not_leadsTo (h : sources.Settled done) {n : Node} (hn : requested [n] ⊆ done)
    (howner : ∀ q, owner = some q → q ∉ done) : ¬ sources.LeadsTo n owner := by
  rintro ⟨p, hp, q, hreach, hq⟩
  exact howner q hq (h.reaches (hn hp) hreach)

/-- When a statement and later one of the same source have been passed, nothing follows that
the first one leads to. -/
def Ordered (sources : Sources) (es : List Entry) : Prop :=
  ∀ pre b post, es = pre ++ b :: post → ∀ a ∈ pre, a.1 = b.1 →
    ∀ e ∈ b :: post, ¬ sources.LeadsTo a.2 e.1

namespace Ordered

variable {es fs : List Entry} {a : Entry}

theorem nil : sources.Ordered [] := by
  intro pre b post h
  simp at h

theorem append (h : sources.Ordered es) (h' : sources.Ordered fs)
    (hpast : ∀ a ∈ es, ∀ e ∈ fs, ¬ sources.LeadsTo a.2 e.1) : sources.Ordered (es ++ fs) := by
  intro pre b post hsplit a ha hsame e he
  rcases List.append_eq_append_iff.mp hsplit with ⟨middle, rfl, rfl⟩ | ⟨middle, rfl, hpost⟩
  · -- The second statement stands in the second part.
    have hefs : e ∈ middle ++ b :: post := List.mem_append_right _ he
    rcases List.mem_append.mp ha with ha | ha
    · exact hpast a ha e hefs
    · exact h' middle b post rfl a ha hsame e he
  · rw [hpost] at he
    rcases List.mem_append.mp he with he | he
    · cases middle with
      | nil => cases he
      | cons first middle =>
        cases hpost
        exact h pre b middle rfl a ha hsame e he
    · exact hpast a (List.mem_append_left _ ha) e he

/-- A statement in front of others that come from other sources. -/
theorem cons_of_ne (h : sources.Ordered es) (hne : ∀ b ∈ es, a.1 ≠ b.1) :
    sources.Ordered (a :: es) := by
  intro pre b post hsplit c hc hsame
  cases pre with
  | nil => cases hc
  | cons first pre =>
    cases hsplit
    rcases List.mem_cons.mp hc with rfl | hc
    · exact absurd hsame (hne b (by simp))
    · exact h pre b post rfl c hc hsame

/-- A statement in front that leads to nothing that follows. -/
theorem cons (h : sources.Ordered es) (hpast : ∀ e ∈ es, ¬ sources.LeadsTo a.2 e.1) :
    sources.Ordered (a :: es) := by
  have hfirst : sources.Ordered [a] := cons_of_ne nil (by simp)
  refine hfirst.append h fun c hc => ?_
  rw [List.mem_singleton.mp hc]
  exact hpast

end Ordered

/-- The statements after a request stand behind all that the request leads to. -/
theorem Yields.ordered (h : sources.Yields done ns t done') (hdone : sources.Settled done)
    (howner : ∀ q, owner = some q → q ∉ done') : sources.Ordered (t.entries owner) := by
  induction h generalizing owner with
  | nil => exact .nil
  | plain other _ ih => exact (ih hdone howner).cons fun e _ => not_leadsTo_of_ne other
  | bare asks known tail ih =>
    refine (ih hdone howner).cons fun e he => ?_
    refine hdone.not_leadsTo ?_ fun q => tail.not_mem_of_mem howner he
    rw [requested_use asks]
    exact List.cons_subset.mpr ⟨known, List.nil_subset _⟩
  | @filled _ inner _ _ p _ _ body _ asks _ loads inside fresh tail ihbody ihrest =>
    have hinner : ∀ q, some p = some q → q ∉ inner := by
      rintro q ⟨⟩
      exact fresh
    have hsettled : sources.Settled (p :: inner) :=
      .cons loads fresh inside.requested_subset (inside.settled hdone)
    -- The source that is put in is finished, so its statements do not come from the outermost one
    -- and lead to nothing that comes later, and neither does the request.
    have hapart : ∀ b ∈ body.entries (some p), owner ≠ b.1 := by
      rintro b hb rfl
      by_cases hsource : b.1 = some p
      · exact howner p hsource (tail.subset List.mem_cons_self)
      · obtain ⟨q, hq, hmem, -⟩ := inside.source_of_mem hinner hb hsource
        exact howner q hq (tail.subset (List.mem_cons_of_mem _ hmem))
    refine ((ihbody hdone hinner).cons_of_ne hapart).append (ihrest hsettled howner) ?_
    intro a ha e he
    refine hsettled.not_leadsTo ?_ fun q => tail.not_mem_of_mem howner he
    rcases List.mem_cons.mp ha with rfl | ha
    · rw [requested_use asks]
      exact List.cons_subset.mpr ⟨List.mem_cons_self, List.nil_subset _⟩
    · exact List.subset_cons_of_subset _ (inside.requested_of_mem ha)

theorem Settled.nodup (h : sources.Settled done) : done.Nodup := by
  induction h with
  | nil => exact List.nodup_nil
  | cons _ fresh _ _ ih => exact List.nodup_cons.mpr ⟨fresh, ih⟩

/-- **What an expansion puts where.**  The result is a tree of sources.  Each path that can be
reached is in it once; of the statements in it, those of the schema are the schema's, those of
a path are the path's, each list in its order, and there are no others.  The requests of the
result are those of the tree, and one is followed by its source exactly where its path comes
first.  When a statement is reached, all that earlier requests of its source lead to has been
passed. -/
theorem expand_spliced (sources : Sources) (root result : Schema)
    (h : sources.expand root = .ok result) :
    ∃ paths t, sources.Yields [] root.body t paths ∧
      (t.entries none).map (·.2) = result.body ∧
      paths.Nodup ∧ (∀ p, p ∈ paths ↔ sources.Reachable root p) ∧
      statementsOf none (t.entries none) = root.body ∧
      (∀ p ∈ paths, ∃ s, sources.Loads p s ∧ statementsOf (some p) (t.entries none) = s.body) ∧
      (∀ p ∉ paths, statementsOf (some p) (t.entries none) = []) ∧
      result.body.length =
        root.body.length + (paths.map fun p => (sources.statements p).length).sum ∧
      t.requests.map (·.1) = requested result.body ∧
      FirstsFilled [] t.requests ∧
      sources.Ordered (t.entries none) := by
  obtain ⟨paths, t, hyields, hnodes⟩ := yields_of_expand h
  have hsettled : sources.Settled paths := hyields.settled .nil
  have hnone : ∀ q, (none : Option String) = some q → q ∉ paths := by
    rintro q ⟨⟩
  have hstatements := hyields.statementsOf_entries hnone
  refine ⟨paths, t, hyields, ?_, hsettled.nodup, fun p => ⟨?_, ?_⟩, ?_, ?_, ?_, ?_, ?_,
    hyields.firstsFilled, hyields.ordered .nil hnone⟩
  · rw [Splice.map_entries, hnodes]
  · intro hp
    exact hyields.reachable hp List.not_mem_nil
  · rintro ⟨r, hr, hreach⟩
    exact hsettled.reaches (hyields.requested_subset hr) hreach
  · rw [hstatements, if_pos rfl]
  · intro p hp
    obtain ⟨s, hs⟩ := hsettled.loads hp
    refine ⟨s, hs, ?_⟩
    rw [hstatements, if_neg (by simp), Yields.added, if_pos ⟨hp, List.not_mem_nil⟩,
      hs.statements_eq]
  · intro p hp
    rw [hstatements, if_neg (by simp), Yields.added, if_neg fun hmem => hp hmem.1]
  · rw [← hnodes]
    simpa using hyields.length_nodes
  · rw [hyields.map_requests, hnodes]

theorem expand_spliced_diamond :
    let sources : Sources :=
      [("l", "use \"d\" enum L \x7b K \"l\" \x7d"), ("r", "use \"d\" use \"l\""),
        ("d", "enum D \x7b K \"d\" \x7d")]
    let source := "use \"r\" use \"d\" enum R \x7b K \"r\" \x7d".toList
    ∃ root result paths t, parseSchema source = .ok root ∧
      sources.expand root = .ok result ∧
      sources.Yields [] root.body t paths ∧
      (t.entries none).map (·.2) = result.body ∧
      statementsOf none (t.entries none) = root.body ∧
      FirstsFilled [] t.requests ∧
      sources.Ordered (t.entries none) := by
  intro sources source
  have hok : ((parseSchema source).toOption.any
      fun root => (sources.expand root).isOk) := by decide +kernel
  cases hroot : parseSchema source with
  | error e =>
    rw [hroot] at hok
    cases hok
  | ok root =>
    rw [hroot] at hok
    cases hs : sources.expand root with
    | error e => simp [Except.toOption, hs, Except.isOk, Except.toBool] at hok
    | ok result =>
      obtain ⟨paths, t, hyields, hbody, -, -, hown, -, -, -, -, hfilled, hordered⟩ :=
        expand_spliced sources root result hs
      exact ⟨root, result, paths, t, rfl, hs, hyields, hbody, hown, hfilled, hordered⟩

end Sources

end SchemaLang
