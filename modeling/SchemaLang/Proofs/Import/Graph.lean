import SchemaLang.Import
import SchemaLang.Proofs.Grammar.Schema
import Mathlib.Logic.Relation

/-!
# The graph of sources

A source leads to the paths that its statements ask for.  What a schema needs are the paths
that can be reached from those it asks for itself.

Sources are put in one after the other.  When one is finished, all that it asks for has been
finished before it.  So the paths that are finished, the last one first, are a list in which
nothing leads to a path in front of it: all that can be reached from them is among them, and
none of them leads back to itself.

## Main definitions

* `requested` — the paths that statements ask for.
* `Sources.Loads` — a path stands for a source that can be read.
* `Sources.Edge`, `Sources.Reachable` — the graph of sources.
* `Sources.Settled` — paths in the order in which they are finished.

## Main results

* `exists_string_of_use` — a source that was read asks by strings.
* `Sources.Settled.reaches`, `Sources.Settled.acyclic` — what can be said of finished paths.
-/

namespace SchemaLang

open Relation

/-- The paths that statements ask for, in order. -/
def requested (ns : List Node) : List String :=
  ns.filterMap fun
    | .use ⟨.string path, _, _⟩ => some path
    | _ => none

theorem mem_requested_iff {ns : List Node} {p : String} :
    p ∈ requested ns ↔ ∃ u, .use u ∈ ns ∧ u.path = .string p := by
  rw [requested, List.mem_filterMap]
  constructor
  · rintro ⟨n, hn, hp⟩
    split at hp
    · cases hp
      exact ⟨_, hn, rfl⟩
    · cases hp
  · rintro ⟨⟨path, pathSpan, span⟩, hu, rfl⟩
    exact ⟨_, hu, rfl⟩

theorem requested_cons (n : Node) (ns : List Node) :
    requested (n :: ns) = requested [n] ++ requested ns :=
  List.filterMap_append (l := [n])

theorem requested_of_ne {n : Node} (hn : ∀ u, n ≠ .use u) (ns : List Node) :
    requested (n :: ns) = requested ns := by
  cases n with
  | use u => exact absurd rfl (hn u)
  | declaration d => rfl
  | schema body span => rfl

/-! ### Requests in sources that were read -/

theorem Derivation.exists_use_path (d : Derivation) : ∃ p, d.use.path = .string p := by
  unfold Derivation.use
  split
  · exact ⟨_, rfl⟩
  · exact ⟨_, rfl⟩

theorem Derivation.exists_string_of_node {d : Derivation} {u : Use} (h : d.node = .use u) :
    ∃ p, u.path = .string p := by
  unfold Derivation.node at h
  split at h
  · rename_i d'
    cases h
    exact d'.exists_use_path
  · cases h

/-- A source that was read asks for others by strings. -/
theorem exists_string_of_use {source : List Char} {s : Schema} (h : parseSchema source = .ok s)
    {u : Use} (hu : .use u ∈ s.body) : ∃ p, u.path = .string p := by
  obtain ⟨d, -, htree, -⟩ := derives_of_parseSchema h
  have hmem : .use (u.mapSpans Span.forget) ∈ d.schema.body := by
    rw [← htree]
    exact List.mem_map.mpr ⟨_, hu, Node.mapSpans_use ..⟩
  unfold Derivation.schema at hmem
  split at hmem
  · obtain ⟨d', -, hd'⟩ := List.mem_map.mp hmem
    obtain ⟨p, hp⟩ := Derivation.exists_string_of_node hd'
    exact ⟨p, hp⟩
  · cases hmem

namespace Sources

variable {sources others : Sources} {p q : String} {s : Schema} {done : List String}

/-! ### The graph -/

/-- A path stands for a source that can be read. -/
def Loads (sources : Sources) (p : String) (s : Schema) : Prop :=
  ∃ text, Entries.get? sources p = some text ∧ parseSchema text.toList = .ok s

theorem Loads.unique {s' : Schema} (h : sources.Loads p s) (h' : sources.Loads p s') : s = s' := by
  obtain ⟨text, ht, hs⟩ := h
  obtain ⟨text', ht', hs'⟩ := h'
  rw [ht] at ht'
  cases ht'
  rw [hs] at hs'
  cases hs'
  rfl

/-- A path leads to those that its source asks for. -/
def Edge (sources : Sources) (p q : String) : Prop :=
  ∃ s, sources.Loads p s ∧ q ∈ requested s.body

theorem Edge.mem (h : sources.Edge p q) (hs : sources.Loads p s) : q ∈ requested s.body := by
  obtain ⟨s', hs', hq⟩ := h
  rw [hs.unique hs']
  exact hq

/-- A path can be reached from those that a schema asks for. -/
def Reachable (sources : Sources) (root : Schema) (p : String) : Prop :=
  ∃ r ∈ requested root.body, ReflTransGen sources.Edge r p

/-! ### Finished paths -/

/-- Paths in the order in which they are finished, the last one first: each one can be read,
and what it asks for was finished before it. -/
inductive Settled (sources : Sources) : List String → Prop where
  | nil : Settled sources []
  | cons {p : String} {s : Schema} {done : List String} (loads : sources.Loads p s)
    (fresh : p ∉ done) (asked : requested s.body ⊆ done) (before : Settled sources done) :
    Settled sources (p :: done)

namespace Settled

theorem loads (h : sources.Settled done) (hp : p ∈ done) : ∃ s, sources.Loads p s := by
  induction h with
  | nil => cases hp
  | cons hs _ _ _ ih =>
    rcases List.mem_cons.mp hp with rfl | hp
    · exact ⟨_, hs⟩
    · exact ih hp

theorem closed (h : sources.Settled done) (hp : p ∈ done) (he : sources.Edge p q) : q ∈ done := by
  induction h with
  | nil => cases hp
  | cons hs _ asked _ ih =>
    rcases List.mem_cons.mp hp with rfl | hp
    · exact List.mem_cons_of_mem _ (asked (he.mem hs))
    · exact List.mem_cons_of_mem _ (ih hp)

/-- What can be reached from a finished path is finished. -/
theorem reaches (h : sources.Settled done) (hp : p ∈ done)
    (hq : ReflTransGen sources.Edge p q) : q ∈ done := by
  induction hq with
  | refl => exact hp
  | tail _ he ih => exact h.closed ih he

/-- A finished path does not lead back to itself. -/
theorem acyclic (h : sources.Settled done) (hp : p ∈ done) : ¬ TransGen sources.Edge p p := by
  induction h with
  | nil => cases hp
  | cons hs fresh asked before ih =>
    rcases List.mem_cons.mp hp with rfl | hp
    · -- All that the last path asks for was finished before it, and so is all that can be
      -- reached from there; the path itself was not.
      intro hcircle
      obtain ⟨q, he, hback⟩ := TransGen.head'_iff.mp hcircle
      exact fresh (before.reaches (asked (he.mem hs)) hback)
    · exact ih hp

end Settled

end Sources

end SchemaLang
