import SchemaLang.Proofs.Resolve.Memo

/-!
# When resolving fails

The final form of a configuration exists exactly when every name that can be reached from
its types, models, enums and plugins is defined, and none of them lies on a circle.  What
only props refer to is not looked at: a prop that nothing reaches may refer to nothing, or to
itself.

An error names what is wrong: a name that can be reached and is not defined, or the path that
was followed from a reference in one of these sections until it met itself.

## Main definitions

* `Config.Reachable` — names that can be reached from the sections of the final form.

## Main results

* `Config.resolve_ok_iff` — when there is a final form.
* `Config.obstacle_of_resolve` — what an error says.
* `Config.resolve_exact` — **both together.**
-/

namespace SchemaLang

open Relation

namespace Config

variable {c : Config} {n : String}

/-- A name can be reached from a reference in types, models, enums or plugins. -/
def Reachable (c : Config) (n : String) : Prop := ∃ r ∈ c.roots, ReflTransGen c.Edge r n

/-- There is a final form exactly when the way is clear from every reference. -/
theorem resolve_ok_iff_clear (c : Config) :
    (∃ f, c.resolve = .ok f) ↔ ∀ r ∈ c.roots, c.Clear [] r := by
  rw [resolve_eq_resolvePlain, resolvePlain, c.consults_inline.ok_iff]
  constructor
  · intro h r hr
    exact (c.plain_ok_iff [] r).mp (h r hr)
  · intro h r hr
    exact (c.plain_ok_iff [] r).mpr (h r hr)

/-- There is a final form exactly when all that can be reached is defined and there is no
circle in it. -/
theorem resolve_ok_iff (c : Config) :
    (∃ f, c.resolve = .ok f) ↔
      (∀ n, c.Reachable n → n ∈ c.names) ∧
      ¬ ∃ n, c.Reachable n ∧ TransGen c.Edge n n := by
  rw [resolve_ok_iff_clear]
  constructor
  · intro h
    constructor
    · rintro n ⟨r, hr, hn⟩
      exact (h r hr).defined n hn
    · rintro ⟨n, ⟨r, hr, hn⟩, hcircle⟩
      exact (h r hr).acyclic n hn hcircle
  · rintro ⟨hdefined, hacyclic⟩ r hr
    exact {
      defined := fun n hn => hdefined n ⟨r, hr, hn⟩
      fresh := fun n _ => List.not_mem_nil
      acyclic := fun n hn hcircle => hacyclic ⟨n, ⟨r, hr, hn⟩, hcircle⟩ }

/-- An error names what is in the way of one of the references. -/
theorem obstacle_of_resolve {e : CompileError} (h : c.resolve = .error e) :
    ∃ r ∈ c.roots, c.Obstacle [] r e := by
  rw [resolve_eq_resolvePlain] at h
  obtain ⟨r, hr, he⟩ := c.consults_inline.failed h
  exact ⟨r, hr, obstacle_of_plain he⟩

/-- **When there is a final form, and what an error says otherwise.**  Which names are defined, and
where the edges of the graph lead, is read off the props, the enums and the types, in this order of
precedence.  The chain of a circular reference is a path of distinct names that starts at a
reference in types, models, enums or plugins, and one more step back to one of them. -/
theorem resolve_exact (c : Config) :
    ((∃ f, c.resolve = .ok f) ↔
      (∀ n, c.Reachable n → n ∈ c.names) ∧
      ¬ ∃ n, c.Reachable n ∧ TransGen c.Edge n n) ∧
    ∀ e, c.resolve = .error e →
      (∃ n, e = .unknownReference n none ∧ c.Reachable n ∧ n ∉ c.names) ∨
      ∃ path m, e = .circularReference (path ++ [m]) ∧ (∃ r ∈ c.roots, path.head? = some r) ∧
        (path ++ [m]).IsChain c.Edge ∧ path.Nodup ∧ m ∈ path := by
  refine ⟨c.resolve_ok_iff, fun e he => ?_⟩
  obtain ⟨r, hr, hobstacle⟩ := obstacle_of_resolve he
  cases hobstacle with
  | undefined n hn hundefined => exact .inl ⟨n, rfl, ⟨r, hr, hn⟩, hundefined⟩
  | circle path m starts leads distinct fresh back =>
    rw [List.nil_append] at back ⊢
    refine .inr ⟨path, m, rfl, ⟨r, hr, ?_⟩, leads, distinct, back⟩
    -- The path is not empty, since it holds the name it leads back to.
    rwa [List.head?_append_of_ne_nil path (List.ne_nil_of_mem back)] at starts

end Config

end SchemaLang
