import SchemaLang.Proofs.Resolve.Plain

/-!
# The memory of the resolver

A name that was resolved once is not looked at again: its value is taken from the memory,
before it is asked whether the name is open.  No result shows this.  The memory only holds
what resolving without a memory gives, and a name that is open leads to the name that comes
up next; so a name that is found in the memory leads to none that is open, else it would lie
on a circle and could not have been resolved.

## Main definitions

* `Resolving.Follows` — a computation with a memory does what one without it does.
* `Config.Remembers` — the memory holds resolved values.
* `Config.resolved` — what a name stands for, resolved.
* `Config.Reached` — a memory that resolving may leave behind.

## Main results

* `Target.follows_substitute` — replacing references, when each name is followed.
* `Config.follows_resolveWithin` — names are resolved as without a memory.
* `Config.follows_resolving`, `Config.resolve_eq_resolvePlain` — so are configurations.
* `Config.resolve_memoryless` — **remembering changes neither a result nor an error.**
-/

namespace SchemaLang

open Relation

namespace Resolving

variable {α β γ : Type} {I : Memo → Prop}

/-! ### Following a computation without a memory -/

/-- From a memory that satisfies `I`, the computation has the result or the error `x`, and
it leaves a memory that satisfies `I`. -/
def Follows (I : Memo → Prop) (p : Resolving α) (x : Except CompileError α) : Prop :=
  ∀ memo, I memo →
    match p memo with
    | .ok (a, memo') => x = .ok a ∧ I memo'
    | .error e => x = .error e

/-- The result is the one that is followed. -/
theorem Follows.result {p : Resolving α} {x : Except CompileError α} (h : Follows I p x)
    {memo : Memo} (hm : I memo) : (p memo).map (·.1) = x := by
  have hp := h memo hm
  cases hr : p memo with
  | error e =>
    rw [hr] at hp
    exact hp.symm
  | ok r =>
    rw [hr] at hp
    exact hp.1.symm

theorem follows_ok (a : α) : Follows I (ok a) (.ok a) := fun _ hm => ⟨rfl, hm⟩

/-- One computation after the other, where the first one is followed through `f`. -/
theorem Follows.andThen_map {p : Resolving α} {f : α → β} {x : Except CompileError β}
    {q : α → Resolving γ} {g : β → Except CompileError γ} (hp : Follows I (p.map f) x)
    (hq : ∀ a, x = .ok (f a) → Follows I (q a) (g (f a))) : Follows I (p.andThen q) (x.bind g) := by
  intro memo hm
  have h := hp memo hm
  unfold map andThen ok at h
  unfold andThen
  cases hr : p memo with
  | error e =>
    rw [hr] at h
    rw [show x = .error e from h]
    rfl
  | ok r =>
    obtain ⟨a, memo'⟩ := r
    rw [hr] at h
    obtain ⟨hx, hm'⟩ := h
    rw [show x = .ok (f a) from hx]
    exact hq a hx memo' hm'

theorem map_id (p : Resolving α) : p.map (fun a => a) = p := by
  funext memo
  unfold map andThen ok
  cases p memo <;> rfl

/-- One computation after the other. -/
theorem Follows.andThen {p : Resolving α} {x : Except CompileError α} {q : α → Resolving β}
    {g : α → Except CompileError β} (hp : Follows I p x)
    (hq : ∀ a, x = .ok a → Follows I (q a) (g a)) : Follows I (p.andThen q) (x.bind g) := by
  rw [← map_id p] at hp
  exact hp.andThen_map hq

theorem Follows.map {p : Resolving α} {x : Except CompileError α} (hp : Follows I p x) (f : α → β) :
    Follows I (p.map f) (x.map f) :=
  hp.andThen fun a _ => follows_ok (f a)

/-- The elements of a list one after the other. -/
theorem follows_each {f : α → Resolving β} {g : α → Except CompileError β} :
    ∀ {as : List α}, (∀ a ∈ as, Follows I (f a) (g a)) → Follows I (each f as) (as.mapM g)
  | [], _ => follows_ok []
  | a :: as, h => by
    rw [List.mapM_cons]
    exact (h a List.mem_cons_self).andThen fun b _ =>
      (follows_each fun a' ha' => h a' (List.mem_cons_of_mem _ ha')).map (b :: ·)

/-- The entries of a section one after the other. -/
theorem follows_eachEntry (f : α → Resolving β) (g : α → Except CompileError β) :
    ∀ {es : Entries α}, (∀ e ∈ es, Follows I (f e.2) (g e.2)) →
      Follows I (eachEntry f es) (es.mapM fun e => (g e.2).map (e.1, ·))
  | [], _ => follows_ok []
  | (k, a) :: es, h => by
    rw [List.mapM_cons]
    have hrest : Follows I (eachEntry f es) (es.mapM fun e => (g e.2).map (e.1, ·)) :=
      follows_eachEntry f g fun e he => h e (List.mem_cons_of_mem _ he)
    have hfirst : Follows I (f a) (g a) := h (k, a) List.mem_cons_self
    have hboth := hfirst.andThen fun b _ => hrest.map ((k, b) :: ·)
    cases hg : g a with
    | error e =>
      rw [hg] at hboth
      exact hboth
    | ok b =>
      rw [hg] at hboth
      exact hboth

/-- The entry with a name alone. -/
theorem follows_atKey {f : α → Resolving α} {g : α → Except CompileError α} (key : String) :
    ∀ {es : Entries α}, (∀ a, Entries.get? es key = some a → Follows I (f a) (g a)) →
      Follows I (atKey f key es) (Entries.changeAt g key es)
  | [], _ => follows_ok []
  | (k, a) :: es, h => by
    rw [atKey]
    by_cases hk : k = key
    · subst hk
      have ha : Follows I (f a) (g a) := h a (by rw [Entries.get?_cons, if_pos rfl])
      rw [if_pos rfl, Entries.changeAt_cons_self]
      exact ha.map fun b => (k, b) :: es
    · have hes : ∀ a', Entries.get? es key = some a' → Follows I (f a') (g a') := by
        intro a' ha'
        exact h a' (by rw [Entries.get?_cons, if_neg hk, ha'])
      rw [if_neg hk, Entries.changeAt_cons_of_ne g hk]
      exact (follows_atKey key hes).map ((k, a) :: ·)

end Resolving

/-! ### Replacing references -/

open Resolving

variable {I : Memo → Prop} {resolve : String → Resolving Value}
  {find : String → Except CompileError Value}

/-- Every reference among some strings is followed. -/
def FollowsAll (I : Memo → Prop) (resolve : String → Resolving Value)
    (find : String → Except CompileError Value) (strings : List String) : Prop :=
  ∀ n ∈ strings.filterMap referenceName?, Follows I (resolve n) (find n)

theorem FollowsAll.left {ss ts : List String} (h : FollowsAll I resolve find (ss ++ ts)) :
    FollowsAll I resolve find ss := by
  intro n hn
  rw [FollowsAll, List.filterMap_append] at h
  exact h n (List.mem_append_left _ hn)

theorem FollowsAll.right {ss ts : List String} (h : FollowsAll I resolve find (ss ++ ts)) :
    FollowsAll I resolve find ts := by
  intro n hn
  rw [FollowsAll, List.filterMap_append] at h
  exact h n (List.mem_append_right _ hn)

namespace Value

mutual

theorem follows_substitute : ∀ v : Value, FollowsAll I resolve find v.strings →
    Follows I (v.substitute resolve) (v.inline find)
  | .str s, h => by
    rw [substitute, inline]
    cases hs : referenceName? s with
    | some n =>
      have hn : n ∈ [s].filterMap referenceName? := by
        rw [List.filterMap_cons_some hs]
        exact List.mem_cons_self
      exact h n hn
    | none => exact follows_ok (Value.str (unescape s))
  | .arr xs, h => (follows_substituteElements xs h).map Value.arr
  | .obj ms, h => (follows_substituteMembers ms h).map Value.obj
  | .null, _ => follows_ok Value.null
  | .bool b, _ => follows_ok (Value.bool b)
  | .int n, _ => follows_ok (Value.int n)
  | .float x, _ => follows_ok (Value.float x)

theorem follows_substituteElements : ∀ xs : List Value,
    FollowsAll I resolve find (elementStrings xs) →
    Follows I (substituteElements resolve xs) (inlineElements find xs)
  | [], _ => follows_ok []
  | x :: xs, h => (follows_substitute x h.left).andThen fun y _ =>
      (follows_substituteElements xs h.right).map (y :: ·)

theorem follows_substituteMembers : ∀ ms : List (String × Value),
    FollowsAll I resolve find (memberStrings ms) →
    Follows I (substituteMembers resolve ms) (inlineMembers find ms)
  | [], _ => follows_ok []
  | (k, v) :: ms, h => (follows_substitute v h.left).andThen fun w _ =>
      (follows_substituteMembers ms h.right).map ((k, w) :: ·)

end

theorem follows_substituteAttributes (v : Value) (h : FollowsAll I resolve find v.attributeStrings) :
    Follows I (v.substituteAttributes resolve) (v.inlineAttributes find) := by
  cases v with
  | obj ms =>
    refine (follows_atKey "attributes" fun a ha => follows_substitute a ?_).map Value.obj
    rw [attributeStrings, get?, ha] at h
    exact h
  | _ => exact follows_ok _

theorem follows_substituteColumns (v : Value) (h : FollowsAll I resolve find v.columnStrings) :
    Follows I (v.substituteColumns resolve) (v.inlineColumns find) := by
  cases v with
  | arr cs =>
    refine (follows_each fun col hcol => follows_substituteAttributes col ?_).map Value.arr
    intro n hn
    rw [FollowsAll, columnStrings, List.filterMap_flatMap] at h
    exact h n (List.mem_flatMap.mpr ⟨col, hcol, hn⟩)
  | _ => exact follows_ok _

theorem follows_substituteColumned (v : Value) (h : FollowsAll I resolve find v.columnedStrings) :
    Follows I (v.substituteColumned resolve) (v.inlineColumned find) := by
  cases v with
  | obj ms =>
    refine (follows_substituteAttributes (.obj ms) h.left).andThen_map fun ms' hms' => ?_
    refine (follows_atKey "columns" fun a ha => follows_substituteColumns a ?_).map Value.obj
    -- The columns are those from before: only the attributes have changed.
    have hcols : (Value.obj ms).get? "columns" = some a := by
      rw [← get?_of_changeAt hms' (by decide)]
      exact ha
    have hright := h.right
    rw [hcols] at hright
    exact hright
  | _ => exact follows_ok _

end Value

/-- Replacing references follows what is followed by its names. -/
theorem Target.follows_substitute (t : Target)
    (h : ∀ n ∈ t.references, Follows I (resolve n) (find n)) :
    Follows I (t.substitute resolve) (t.inline find) := by
  cases t with
  | whole v => exact v.follows_substitute h
  | columned v => exact v.follows_substituteColumned h

/-! ### Names -/

namespace Config

variable {c : Config} {memo : Memo} {opened : List String} {n : String} {v : Value}

/-- The memory holds nothing but resolved values. -/
def Remembers (c : Config) (memo : Memo) : Prop :=
  ∀ n v, Entries.get? memo n = some v → c.plain [] n = .ok v

theorem remembers_nil (c : Config) : c.Remembers [] := by
  intro n v h
  cases h

theorem Remembers.insert (hm : c.Remembers memo) (hv : c.plain [] n = .ok v) :
    c.Remembers (Entries.insert memo n v) := by
  intro m w hw
  rw [Entries.get?_insert] at hw
  by_cases hnm : n = m
  · rw [if_pos hnm] at hw
    cases hw
    rw [← hnm]
    exact hv
  · rw [if_neg hnm] at hw
    exact hm m w hw

/-- A name in the memory may be taken from there while other names are open, if these lead
to it: none of them can be reached from it, for it lies on no circle. -/
theorem Remembers.plain (hm : c.Remembers memo) (hv : Entries.get? memo n = some v)
    (ho : ∀ k ∈ opened, TransGen c.Edge k n) : c.plain opened n = .ok v := by
  have hplain : c.plain [] n = .ok v := hm n v hv
  have hclear : c.Clear [] n := (c.plain_ok_iff [] n).mp ⟨v, hplain⟩
  have hopen : c.Clear opened n := hclear.reopen fun k hk hmem =>
    hclear.acyclic k hk ((ho k hmem).trans_left hk)
  rw [plain_eq_of_clear hopen hclear]
  exact hplain

/-- Names are resolved as without a memory.  Each open name leads to the one that comes up,
and there is room for all names that are not open. -/
theorem follows_resolveWithin (c : Config) (opened : List String) (name : String) (room : Nat)
    (ho : ∀ k ∈ opened, TransGen c.Edge k name) (hroom : (c.unopened opened).length ≤ room) :
    Follows c.Remembers (c.resolveWithin room opened name) (c.plain opened name) := by
  induction opened, name using c.plain_induction generalizing room with
  | circle opened name h =>
    intro memo hm
    unfold resolveWithin
    cases hv : Entries.get? memo name with
    | some v => exact ⟨hm.plain hv ho, hm⟩
    | none =>
      simp only [if_pos h]
      exact plain_of_mem h
  | undefined opened name h ht =>
    intro memo hm
    unfold resolveWithin
    cases hv : Entries.get? memo name with
    | some v => exact ⟨hm.plain hv ho, hm⟩
    | none =>
      simp only [if_neg h, ht]
      exact plain_of_undefined h ht
  | target opened name t h ht ih =>
    -- The name is not open yet, so there is room for it.
    have hlt := length_unopened_lt h ht
    obtain ⟨room, rfl⟩ : ∃ r, room = r + 1 := ⟨room - 1, by omega⟩
    -- Opening the name keeps the invariant for its references.
    have hrefs : Follows c.Remembers (t.substitute (c.resolveWithin room (opened ++ [name])))
        (t.inline (c.plain (opened ++ [name]))) := by
      refine t.follows_substitute fun m hm => ih m hm room (fun k hk => ?_) (by omega)
      have he : c.Edge name m := (edge_iff ht).mpr hm
      rcases List.mem_append.mp hk with hk | hk
      · exact (ho k hk).tail he
      · rw [List.mem_singleton.mp hk]
        exact .single he
    intro memo hm
    unfold resolveWithin
    cases hv : Entries.get? memo name with
    | some v => exact ⟨hm.plain hv ho, hm⟩
    | none =>
      simp only [if_neg h, ht]
      have hsub := hrefs memo hm
      rw [← plain_of_target h ht] at hsub
      cases hr : t.substitute (c.resolveWithin room (opened ++ [name])) memo with
      | error e =>
        rw [hr] at hsub
        exact hsub
      | ok r =>
        obtain ⟨v, memo'⟩ := r
        rw [hr] at hsub
        obtain ⟨hplain, hm'⟩ := hsub
        -- The value was found with names open; it is the same with none.
        exact ⟨hplain, hm'.insert (plain_nil_of_plain hplain)⟩

theorem follows_resolveName (c : Config) (name : String) :
    Follows c.Remembers (c.resolveName name) (c.plain [] name) := by
  refine c.follows_resolveWithin [] name c.room (fun k hk => nomatch hk) ?_
  rw [unopened_nil, length_names]

/-! ### Configurations -/

/-- What stands in a configuration is resolved as without a memory. -/
theorem follows_substitute (c : Config) (t : Target) :
    Follows c.Remembers (t.substitute c.resolveName) (t.inline (c.plain [])) :=
  t.follows_substitute fun n _ => c.follows_resolveName n

/-- What a name stands for, resolved from nothing. -/
def resolved (c : Config) (name : String) : Except CompileError Value :=
  (c.resolveName name []).map (·.1)

theorem resolved_eq_plain (c : Config) : c.resolved = c.plain [] := by
  funext name
  exact (c.follows_resolveName name).result c.remembers_nil

/-- Values are resolved in turn as without a memory. -/
theorem follows_each (c : Config) (ts : List Target) :
    Follows c.Remembers (each (Target.substitute c.resolveName) ts)
      (ts.mapM fun t => t.inline (c.plain [])) :=
  Resolving.follows_each fun t _ => c.follows_substitute t

/-- A memory that is left behind when values are resolved in turn. -/
def Reached (c : Config) (memo : Memo) : Prop :=
  ∃ ts vs, each (Target.substitute c.resolveName) ts [] = .ok (vs, memo)

theorem reached_nil (c : Config) : c.Reached [] := ⟨[], [], rfl⟩

theorem Reached.remembers (h : c.Reached memo) : c.Remembers memo := by
  obtain ⟨ts, vs, hrun⟩ := h
  have hend := c.follows_each ts [] c.remembers_nil
  rw [hrun] at hend
  exact hend.2

theorem follows_eachEntry (c : Config) (form : Value → Target) (es : Entries Value) :
    Follows c.Remembers (eachEntry (fun v => (form v).substitute c.resolveName) es)
      (Target.inlineEntries form (c.plain []) es) :=
  Resolving.follows_eachEntry _ (fun v => (form v).inline (c.plain [])) fun e _ =>
    c.follows_substitute (form e.2)

theorem follows_resolving (c : Config) : Follows c.Remembers c.resolving c.resolvePlain :=
  (c.follows_eachEntry .columned c.types).andThen fun _ _ =>
  (c.follows_eachEntry .columned c.models).andThen fun _ _ =>
  (c.follows_eachEntry .whole c.enums).andThen fun _ _ =>
  (c.follows_eachEntry .whole c.plugins).map _

theorem resolve_eq_resolvePlain (c : Config) : c.resolve = c.resolvePlain :=
  c.follows_resolving.result c.remembers_nil

/-- **Remembering changes neither a result nor an error.**  A configuration is resolved as
without a memory, and of any list of values resolved in turn, in whatever order, each comes
to what it comes to alone. -/
theorem resolve_memoryless (c : Config) :
    c.resolve = c.resolvePlain ∧
    ∀ ts : List Target, (each (Target.substitute c.resolveName) ts []).map (·.1) =
      ts.mapM fun t => (t.substitute c.resolveName []).map (·.1) := by
  refine ⟨c.resolve_eq_resolvePlain, fun ts => ?_⟩
  have halone : ∀ t : Target,
      (t.substitute c.resolveName []).map (·.1) = t.inline (c.plain []) :=
    fun t => (c.follows_substitute t).result c.remembers_nil
  simp only [halone]
  exact (c.follows_each ts).result c.remembers_nil

end Config

end SchemaLang
