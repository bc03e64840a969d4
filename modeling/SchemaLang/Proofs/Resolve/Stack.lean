import SchemaLang.Proofs.Resolve.Plain
import SchemaLang.Proofs.Value.Equality
import Mathlib.Data.List.Dedup

/-!
# The stack of the resolver

Resolving is run here as it changes its state: a name is put on a stack before what it stands for is
looked at and taken off again afterwards, also when that has failed, and then its value is
remembered.  All states that a run goes through are kept.  How deep names may be opened is bounded
from outside, and meeting the bound is an outcome of its own.

The names on the stack are defined, distinct and not yet remembered.  So there are never more of
them than defined names, a bound as large as their number is never met, and the run comes to what
the configuration resolves to.

## Main definitions

* `Resolver` — the state: the names that are open, and what is resolved.
* `Tracked` — computations that keep all states they go through.
* `Config.trackName`, `Config.track` — resolving a name, and a whole configuration.
* `Resolver.Sound` — the invariant of the state.
* `Tracked.Kept` — what a call keeps.
* `Tracked.Tracks` — a run keeps the invariant and agrees with a computation without a stack.

## Main results

* `Resolver.Sound.length_le` — there are no more names on the stack than are defined.
* `Tracked.Tracks.andThen`, `Target.tracks` — replacing references, when each name is tracked.
* `Config.tracks_trackName`, `Config.tracks_track` — names and configurations.
* `stack_discipline` — **the stack is kept in order, and resolving ends.**
-/

namespace SchemaLang

/-! ### States and runs -/

/-- The state of resolving. -/
structure Resolver where
  /-- The names whose values are being resolved, the last one on top. -/
  stack : List String
  /-- What has been resolved. -/
  resolved : Memo

/-- How a computation ends. -/
inductive Ending (α : Type) where
  /-- With a result. -/
  | ok (a : α) : Ending α
  /-- With an error. -/
  | failed (e : CompileError) : Ending α
  /-- Because names would have to be opened deeper than the bound allows. -/
  | exhausted : Ending α

/-- What a computation comes to. -/
structure Ran (α : Type) where
  /-- How it ends. -/
  ending : Ending α
  /-- The state it leaves. -/
  final : Resolver
  /-- The states it has gone through, one after each change. -/
  moments : List Resolver

/-- A computation that keeps all states it goes through. -/
abbrev Tracked (α : Type) : Type := Resolver → Ran α

namespace Tracked

variable {α β : Type}

/-- A result that changes nothing. -/
def ok (a : α) : Tracked α := fun s => ⟨.ok a, s, []⟩

/-- One computation after the other. -/
def andThen (p : Tracked α) (f : α → Tracked β) : Tracked β := fun s =>
  match p s with
  | ⟨.ok a, s', ms⟩ => { f a s' with moments := ms ++ (f a s').moments }
  | ⟨.failed e, s', ms⟩ => ⟨.failed e, s', ms⟩
  | ⟨.exhausted, s', ms⟩ => ⟨.exhausted, s', ms⟩

/-- The result of a computation, changed. -/
def map (f : α → β) (p : Tracked α) : Tracked β := p.andThen fun a => ok (f a)

/-- A computation on every element in order. -/
def each (f : α → Tracked β) : List α → Tracked (List β)
  | [] => ok []
  | a :: as => (f a).andThen fun b => (each f as).map (b :: ·)

/-- A computation on every entry in order; names stay. -/
def eachEntry (f : α → Tracked β) : Entries α → Tracked (Entries β)
  | [] => ok []
  | (k, a) :: es => (f a).andThen fun b => (eachEntry f es).map ((k, b) :: ·)

/-- A computation on the entry with a name, if there is one. -/
def atKey (f : α → Tracked α) (key : String) : Entries α → Tracked (Entries α)
  | [] => ok []
  | (k, a) :: es =>
    if k = key then (f a).map fun b => (k, b) :: es else (atKey f key es).map ((k, a) :: ·)

end Tracked

/-! ### Resolving with a stack -/

namespace Value

variable (resolve : String → Tracked Value)

mutual

/-- Replaces every reference in a value. -/
def track : Value → Tracked Value
  | .str s =>
    match referenceName? s with
    | some name => resolve name
    | none => Tracked.ok (.str (unescape s))
  | .arr xs => (trackElements xs).map .arr
  | .obj ms => (trackMembers ms).map .obj
  | .null => Tracked.ok .null
  | .bool b => Tracked.ok (.bool b)
  | .int n => Tracked.ok (.int n)
  | .float x => Tracked.ok (.float x)

/-- Replaces every reference in the elements of an array. -/
def trackElements : List Value → Tracked (List Value)
  | [] => Tracked.ok []
  | x :: xs => (track x).andThen fun y => (trackElements xs).map (y :: ·)

/-- Replaces every reference in the members of an object. -/
def trackMembers : List (String × Value) → Tracked (List (String × Value))
  | [] => Tracked.ok []
  | (k, v) :: ms => (track v).andThen fun w => (trackMembers ms).map ((k, w) :: ·)

end

/-- Replaces every reference in the attributes of an object. -/
def trackAttributes : Value → Tracked Value
  | .obj ms => (Tracked.atKey (track resolve) "attributes" ms).map .obj
  | v => Tracked.ok v

/-- Replaces every reference in the attributes of each column. -/
def trackColumns : Value → Tracked Value
  | .arr cs => (Tracked.each (trackAttributes resolve) cs).map .arr
  | v => Tracked.ok v

/-- Replaces every reference in the attributes of a type or a model, then in those of its
columns. -/
def trackColumned : Value → Tracked Value
  | .obj ms =>
    (Tracked.atKey (track resolve) "attributes" ms).andThen fun ms' =>
      (Tracked.atKey (trackColumns resolve) "columns" ms').map .obj
  | v => Tracked.ok v

end Value

/-- Replaces every reference in what a name stands for. -/
def Target.track (resolve : String → Tracked Value) : Target → Tracked Value
  | .whole v => v.track resolve
  | .columned v => v.trackColumned resolve

namespace Resolver

/-- No name is open, and nothing is resolved. -/
def start : Resolver := ⟨[], []⟩

/-- Puts a name on the stack. -/
def push (s : Resolver) (name : String) : Resolver := { s with stack := s.stack ++ [name] }

/-- Takes the last name off the stack. -/
def pop (s : Resolver) : Resolver := { s with stack := s.stack.dropLast }

/-- Remembers what a name is resolved to. -/
def remember (s : Resolver) (name : String) (v : Value) : Resolver :=
  { s with resolved := Entries.insert s.resolved name v }

end Resolver

namespace Config

/-- Resolves a name, where at most `depth` names may be opened one inside the other.  The name is on
the stack while its references are replaced, and is taken off however that ends. -/
def trackName (c : Config) : Nat → String → Tracked Value
  | depth, name => fun s =>
    match Entries.get? s.resolved name with
    | some v => ⟨.ok v, s, []⟩
    | none =>
      if name ∈ s.stack then ⟨.failed (.circularReference (s.stack ++ [name])), s, []⟩
      else
        match c.target? name with
        | none => ⟨.failed (.unknownReference name none), s, []⟩
        | some target =>
          match depth with
          | 0 => ⟨.exhausted, s, []⟩
          | depth + 1 =>
            match target.track (trackName c depth) (s.push name) with
            | ⟨.ok v, t, ms⟩ =>
              ⟨.ok v, t.pop.remember name v,
                (s.push name :: ms ++ [t.pop]) ++ [t.pop.remember name v]⟩
            | ⟨.failed e, t, ms⟩ => ⟨.failed e, t.pop, s.push name :: ms ++ [t.pop]⟩
            | ⟨.exhausted, t, ms⟩ => ⟨.exhausted, t.pop, s.push name :: ms ++ [t.pop]⟩

/-- Resolves a configuration. -/
def track (c : Config) (depth : Nat) : Tracked FinalConfig :=
  let whole := Value.track (c.trackName depth)
  let columned := Value.trackColumned (c.trackName depth)
  (Tracked.eachEntry columned c.types).andThen fun types =>
  (Tracked.eachEntry columned c.models).andThen fun models =>
  (Tracked.eachEntry whole c.enums).andThen fun enums =>
  (Tracked.eachEntry whole c.plugins).map fun plugins => ⟨plugins, enums, types, models⟩

end Config

/-! ### The invariant -/

/-- The names on the stack are distinct, defined, and not yet resolved. -/
structure Resolver.Sound (c : Config) (s : Resolver) : Prop where
  /-- No name is on the stack twice. -/
  distinct : s.stack.Nodup
  /-- Each name on the stack is defined. -/
  defined : ∀ n ∈ s.stack, (c.target? n).isSome = true
  /-- No name on the stack is resolved. -/
  unresolved : ∀ n ∈ s.stack, n ∉ Entries.keys s.resolved

/-- What a call keeps, whether it has a result or an error. -/
structure Tracked.Kept {α : Type} (c : Config) (s : Resolver) (r : Ran α) : Prop where
  /-- The bound was not met. -/
  ended : r.ending ≠ .exhausted
  /-- The stack is as it was before. -/
  stack : r.final.stack = s.stack
  /-- What was resolved before has stayed, and other names have come behind it. -/
  resolved : s.resolved <+: r.final.resolved
  /-- The invariant has held all the time. -/
  moments : ∀ m ∈ r.moments, m.Sound c
  /-- The invariant holds in the end. -/
  final : r.final.Sound c

/-- How the result of resolving is the ending of a run. -/
def Ending.ofExcept {α : Type} : Except CompileError α → Ending α
  | .ok a => .ok a
  | .error e => .failed e

namespace Resolver

variable {c : Config} {s : Resolver} {name : String} {v : Value}

theorem sound_start (c : Config) : start.Sound c := ⟨.nil, by simp [start], by simp [start]⟩

/-- There are never more names on the stack than are defined. -/
theorem Sound.length_le (h : s.Sound c) : s.stack.length ≤ c.names.dedup.length := by
  have hsub : s.stack ⊆ c.names.dedup := by
    intro n hn
    obtain ⟨t, ht⟩ := Option.isSome_iff_exists.mp (h.defined n hn)
    exact List.mem_dedup.mpr (Config.mem_names_of_target? ht)
  exact (List.subperm_of_subset h.distinct hsub).length_le

theorem Sound.push (h : s.Sound c) (hresolved : Entries.get? s.resolved name = none)
    (hfresh : name ∉ s.stack) (hdefined : (c.target? name).isSome = true) :
    (s.push name).Sound c where
  distinct := List.nodup_append.mpr ⟨h.distinct, List.nodup_singleton name, by
    rintro n hn m hm rfl
    rw [List.mem_singleton.mp hm] at hn
    exact hfresh hn⟩
  defined := by
    intro n hn
    rcases List.mem_append.mp hn with hn | hn
    · exact h.defined n hn
    · rw [List.mem_singleton.mp hn]
      exact hdefined
  unresolved := by
    intro n hn
    rcases List.mem_append.mp hn with hn | hn
    · exact h.unresolved n hn
    · rw [List.mem_singleton.mp hn]
      exact Entries.get?_eq_none_iff.mp hresolved

theorem Sound.pop (h : s.Sound c) : s.pop.Sound c where
  distinct := h.distinct.sublist (List.dropLast_sublist _)
  defined n hn := h.defined n (List.dropLast_subset _ hn)
  unresolved n hn := h.unresolved n (List.dropLast_subset _ hn)

theorem Sound.remember (h : s.Sound c) (hfresh : name ∉ s.stack) (v : Value) :
    (s.remember name v).Sound c where
  distinct := h.distinct
  defined := h.defined
  unresolved := by
    intro n hn
    -- What is remembered now has left the stack before.
    have hne : name ≠ n := fun heq => hfresh (heq ▸ hn)
    rw [← Entries.get?_eq_none_iff, Resolver.remember, Entries.get?_insert, if_neg hne]
    exact Entries.get?_eq_none_iff.mpr (h.unresolved n hn)

end Resolver

/-! ### Computations with a stack and without -/

/-- A run ends as a computation without a stack does, with the same names resolved. -/
def Ran.Agrees {α : Type} (r : Ran α) : Except CompileError (α × Memo) → Prop
  | .ok (a, memo) => r.ending = .ok a ∧ r.final.resolved = memo
  | .error e => r.ending = .failed e

namespace Tracked

variable {α β : Type} {c : Config} {opened : List String}

/-- From any state in which the names `opened` are on the stack, the run keeps the invariant and
agrees with the computation that is told these names. -/
def Tracks (c : Config) (opened : List String) (p : Tracked α) (q : Resolving α) : Prop :=
  ∀ s, s.Sound c → s.stack = opened → Kept c s (p s) ∧ (p s).Agrees (q s.resolved)

/-- What changes nothing keeps everything. -/
theorem Kept.unchanged {s : Resolver} {e : Ending α} (hs : s.Sound c) (he : e ≠ .exhausted) :
    Kept c s ⟨e, s, []⟩ where
  ended := he
  stack := rfl
  resolved := List.prefix_rfl
  moments _ hm := nomatch hm
  final := hs

/-- A second run goes on from where the first has come to. -/
theorem Kept.trans {s s' : Resolver} {e : Ending α} {ms : List Resolver} {r : Ran β}
    (h : Kept c s ⟨e, s', ms⟩) (hr : Kept c s' r) :
    Kept c s { r with moments := ms ++ r.moments } where
  ended := hr.ended
  stack := hr.stack.trans h.stack
  resolved := h.resolved.trans hr.resolved
  moments m hm := (List.mem_append.mp hm).elim (h.moments m) (hr.moments m)
  final := hr.final

theorem tracks_ok (a : α) : Tracks c opened (ok a) (Resolving.ok a) :=
  fun _ hs _ => ⟨.unchanged hs nofun, rfl, rfl⟩

theorem Tracks.andThen {p : Tracked α} {q : Resolving α} {f : α → Tracked β}
    {g : α → Resolving β} (hp : Tracks c opened p q) (hf : ∀ a, Tracks c opened (f a) (g a)) :
    Tracks c opened (p.andThen f) (q.andThen g) := by
  intro s hs ho
  obtain ⟨hkept, hagrees⟩ := hp s hs ho
  unfold Tracked.andThen Resolving.andThen
  generalize p s = r at hkept hagrees ⊢
  obtain ⟨ending, s', ms⟩ := r
  cases hq : q s.resolved with
  | error e =>
    rw [hq] at hagrees
    obtain rfl : ending = .failed e := hagrees
    exact ⟨⟨nofun, hkept.stack, hkept.resolved, hkept.moments, hkept.final⟩, rfl⟩
  | ok x =>
    obtain ⟨a, memo⟩ := x
    rw [hq] at hagrees
    obtain ⟨rfl, rfl⟩ : ending = .ok a ∧ s'.resolved = memo := hagrees
    -- The second computation starts with the stack the first one found.
    obtain ⟨hkept', hagrees'⟩ := hf a s' hkept.final (hkept.stack.trans ho)
    exact ⟨hkept.trans hkept', hagrees'⟩

theorem Tracks.map {p : Tracked α} {q : Resolving α} (hp : Tracks c opened p q) (f : α → β) :
    Tracks c opened (p.map f) (q.map f) :=
  hp.andThen fun a => tracks_ok (f a)

theorem tracks_each {f : α → Tracked β} {g : α → Resolving β}
    (h : ∀ a, Tracks c opened (f a) (g a)) :
    ∀ as : List α, Tracks c opened (each f as) (Resolving.each g as)
  | [] => tracks_ok []
  | a :: as => (h a).andThen fun b => (tracks_each h as).map (b :: ·)

theorem tracks_eachEntry {f : α → Tracked β} {g : α → Resolving β}
    (h : ∀ a, Tracks c opened (f a) (g a)) :
    ∀ es : Entries α, Tracks c opened (eachEntry f es) (Resolving.eachEntry g es)
  | [] => tracks_ok []
  | (k, a) :: es => (h a).andThen fun b => (tracks_eachEntry h es).map ((k, b) :: ·)

theorem tracks_atKey {f : α → Tracked α} {g : α → Resolving α}
    (h : ∀ a, Tracks c opened (f a) (g a)) (key : String) :
    ∀ es : Entries α, Tracks c opened (atKey f key es) (Resolving.atKey g key es)
  | [] => tracks_ok []
  | (k, a) :: es => by
    rw [atKey, Resolving.atKey]
    by_cases hk : k = key
    · rw [if_pos hk, if_pos hk]
      exact (h a).map fun b => (k, b) :: es
    · rw [if_neg hk, if_neg hk]
      exact (tracks_atKey h key es).map ((k, a) :: ·)

end Tracked

/-! ### Replacing references -/

section

open Tracked

variable {c : Config} {opened : List String} {track : String → Tracked Value}
  {resolve : String → Resolving Value}

namespace Value

mutual

theorem tracks_track (h : ∀ n, Tracks c opened (track n) (resolve n)) :
    ∀ v : Value, Tracks c opened (v.track track) (v.substitute resolve)
  | .str s => by
    rw [Value.track, substitute]
    cases referenceName? s with
    | some n => exact h n
    | none => exact tracks_ok _
  | .arr xs => (tracks_trackElements h xs).map Value.arr
  | .obj ms => (tracks_trackMembers h ms).map Value.obj
  | .null => tracks_ok Value.null
  | .bool b => tracks_ok (Value.bool b)
  | .int n => tracks_ok (Value.int n)
  | .float x => tracks_ok (Value.float x)

theorem tracks_trackElements (h : ∀ n, Tracks c opened (track n) (resolve n)) :
    ∀ xs : List Value, Tracks c opened (trackElements track xs) (substituteElements resolve xs)
  | [] => tracks_ok []
  | x :: xs => (tracks_track h x).andThen fun y => (tracks_trackElements h xs).map (y :: ·)

theorem tracks_trackMembers (h : ∀ n, Tracks c opened (track n) (resolve n)) :
    ∀ ms : List (String × Value),
      Tracks c opened (trackMembers track ms) (substituteMembers resolve ms)
  | [] => tracks_ok []
  | (k, v) :: ms =>
    (tracks_track h v).andThen fun w => (tracks_trackMembers h ms).map ((k, w) :: ·)

end

theorem tracks_trackAttributes (h : ∀ n, Tracks c opened (track n) (resolve n)) (v : Value) :
    Tracks c opened (v.trackAttributes track) (v.substituteAttributes resolve) := by
  cases v with
  | obj ms => exact (tracks_atKey (tracks_track h) "attributes" ms).map Value.obj
  | _ => exact tracks_ok _

theorem tracks_trackColumns (h : ∀ n, Tracks c opened (track n) (resolve n)) (v : Value) :
    Tracks c opened (v.trackColumns track) (v.substituteColumns resolve) := by
  cases v with
  | arr cs => exact (tracks_each (tracks_trackAttributes h) cs).map Value.arr
  | _ => exact tracks_ok _

theorem tracks_trackColumned (h : ∀ n, Tracks c opened (track n) (resolve n)) (v : Value) :
    Tracks c opened (v.trackColumned track) (v.substituteColumned resolve) := by
  cases v with
  | obj ms =>
    exact (tracks_atKey (tracks_track h) "attributes" ms).andThen fun ms' =>
      (tracks_atKey (tracks_trackColumns h) "columns" ms').map Value.obj
  | _ => exact tracks_ok _

end Value

/-- Replacing references agrees when resolving each name does. -/
theorem Target.tracks (h : ∀ n, Tracks c opened (track n) (resolve n)) (t : Target) :
    Tracks c opened (t.track track) (t.substitute resolve) := by
  cases t with
  | whole v => exact v.tracks_track h
  | columned v => exact v.tracks_trackColumned h

end

/-! ### Names and configurations -/

namespace Tracked.Kept

variable {c : Config} {s t : Resolver} {name : String} {v : Value} {e : Ending Value}
  {ms : List Resolver}

/-- A run with a name on the stack, seen from before it was put there to after it is taken off. -/
theorem close (hpush : (s.push name).Sound c) (h : Kept c (s.push name) ⟨e, t, ms⟩) :
    Kept c s ⟨e, t.pop, s.push name :: ms ++ [t.pop]⟩ where
  ended := h.ended
  stack := by
    show t.stack.dropLast = s.stack
    rw [show t.stack = s.stack ++ [name] from h.stack, List.dropLast_concat]
  resolved := h.resolved
  moments m hm := by
    rcases List.mem_append.mp hm with hm | hm
    · rcases List.mem_cons.mp hm with rfl | hm
      · exact hpush
      · exact h.moments m hm
    · rw [List.mem_singleton.mp hm]
      exact h.final.pop
  final := h.final.pop

/-- Remembering a name that is neither resolved nor on the stack. -/
theorem remember (hs : s.Sound c) (hname : name ∉ Entries.keys s.resolved)
    (hfresh : name ∉ s.stack) (v : Value) :
    Kept c s ⟨.ok v, s.remember name v, [s.remember name v]⟩ where
  ended := nofun
  stack := rfl
  resolved := by
    show s.resolved <+: Entries.insert s.resolved name v
    rw [Entries.insert_eq_append hname]
    exact List.prefix_append ..
  moments m hm := by
    rw [List.mem_singleton.mp hm]
    exact hs.remember hfresh v
  final := hs.remember hfresh v

end Tracked.Kept

namespace Config

open Tracked

/-- Resolving a name agrees, when `depth` and `room` leave place for the names that are not on the
stack. -/
theorem tracks_trackName (c : Config) {depth room : Nat} {opened : List String}
    (hdepth : c.names.dedup.length ≤ depth + opened.length)
    (hroom : c.names.dedup.length ≤ room + opened.length) (name : String) :
    Tracks c opened (c.trackName depth name) (c.resolveWithin room opened name) := by
  -- Each name that is opened takes one from the depth and adds one to the stack, so that both
  -- bounds stay as they are.
  induction depth using Nat.strong_induction_on generalizing room opened name with
  | _ depth ih =>
  rintro s hs rfl
  unfold trackName resolveWithin
  cases hv : Entries.get? s.resolved name with
  | some v => exact ⟨.unchanged hs nofun, rfl, rfl⟩
  | none =>
    by_cases hmem : name ∈ s.stack
    · simp only [if_pos hmem]
      exact ⟨.unchanged hs nofun, rfl⟩
    · simp only [if_neg hmem]
      cases ht : c.target? name with
      | none => exact ⟨.unchanged hs nofun, rfl⟩
      | some target =>
        have hpush : (s.push name).Sound c := hs.push hv hmem (by rw [ht]; rfl)
        -- With the name on it the stack is still no longer than the list of names.
        have hlength : (s.push name).stack.length = s.stack.length + 1 := List.length_append
        have hle := hpush.length_le
        obtain ⟨depth, rfl⟩ : ∃ d, depth = d + 1 := ⟨depth - 1, by omega⟩
        obtain ⟨room, rfl⟩ : ∃ r, room = r + 1 := ⟨room - 1, by omega⟩
        have hrun : Tracks c (s.push name).stack (target.track (c.trackName depth))
            (target.substitute (c.resolveWithin room (s.stack ++ [name]))) :=
          target.tracks fun n => ih depth (Nat.lt_succ_self depth) (by omega) (by omega) n
        obtain ⟨hkept, hagrees⟩ := hrun (s.push name) hpush rfl
        dsimp only
        generalize target.track (c.trackName depth) (s.push name) = r at hkept hagrees ⊢
        obtain ⟨ending, t, ms⟩ := r
        cases hq : target.substitute (c.resolveWithin room (s.stack ++ [name])) s.resolved with
        | error e =>
          rw [show (s.push name).resolved = s.resolved from rfl, hq] at hagrees
          obtain rfl : ending = .failed e := hagrees
          exact ⟨hkept.close hpush, rfl⟩
        | ok x =>
          obtain ⟨v, memo⟩ := x
          rw [show (s.push name).resolved = s.resolved from rfl, hq] at hagrees
          obtain ⟨rfl, rfl⟩ : ending = .ok v ∧ t.resolved = memo := hagrees
          -- The name was on the stack until now, so it has not been resolved meanwhile.
          have hname : name ∉ Entries.keys t.resolved := by
            refine hkept.final.unresolved name ?_
            rw [show t.stack = s.stack ++ [name] from hkept.stack]
            exact List.mem_append_right _ (List.mem_singleton_self name)
          have hclosed := hkept.close hpush
          have hfresh : name ∉ t.pop.stack := by
            rw [show t.pop.stack = s.stack from hclosed.stack]
            exact hmem
          exact ⟨hclosed.trans (.remember hclosed.final hname hfresh v), rfl, rfl⟩

/-- There is room for all names. -/
theorem length_dedup_names_le (c : Config) : c.names.dedup.length ≤ c.room := by
  rw [← length_names]
  exact (List.dedup_sublist _).length_le

/-- Resolving a configuration agrees. -/
theorem tracks_track (c : Config) {depth : Nat} (hdepth : c.names.dedup.length ≤ depth) :
    Tracks c [] (c.track depth) c.resolving := by
  have hname : ∀ n, Tracks c [] (c.trackName depth n) (c.resolveName n) :=
    c.tracks_trackName hdepth c.length_dedup_names_le
  have hwhole := Value.tracks_track hname
  have hcolumned := Value.tracks_trackColumned hname
  exact (tracks_eachEntry hcolumned c.types).andThen fun types =>
    (tracks_eachEntry hcolumned c.models).andThen fun models =>
    (tracks_eachEntry hwhole c.enums).andThen fun enums =>
    (tracks_eachEntry hwhole c.plugins).map (FinalConfig.mk · enums types models)

end Config

/-! ### The discipline -/

open Tracked

/-- **The stack is kept in order, and resolving ends.**  When as many names may be opened one inside
the other as are defined, a configuration is resolved with its result or its error; on the way the
names on the stack are distinct, defined and not resolved, so there are never more of them than
defined names.  Every call from such a state, with place for the names that are not on the stack,
ends as well, leaves the stack and all that was resolved as they were, and has the result of the
computation without a stack. -/
theorem stack_discipline (c : Config) {depth : Nat} (hdepth : c.names.dedup.length ≤ depth) :
    (c.track depth .start).ending = .ofExcept c.resolve ∧
    (∀ s ∈ .start :: (c.track depth .start).moments,
      s.Sound c ∧ s.stack.length ≤ c.names.dedup.length) ∧
    ∀ s d, s.Sound c → c.names.dedup.length ≤ d + s.stack.length →
      (∀ v, let r := Value.track (c.trackName d) v s
        Kept c s r ∧ r.Agrees (v.substitute (c.resolveWithin d s.stack) s.resolved)) ∧
      (∀ v, let r := Value.trackColumned (c.trackName d) v s
        Kept c s r ∧ r.Agrees (v.substituteColumned (c.resolveWithin d s.stack) s.resolved)) ∧
      ∀ n, let r := c.trackName d n s
        Kept c s r ∧ r.Agrees (c.resolveWithin d s.stack n s.resolved) := by
  refine ⟨?_, ?_, ?_⟩
  · obtain ⟨-, hagrees⟩ := c.tracks_track hdepth .start (Resolver.sound_start c) rfl
    rw [show Resolver.start.resolved = [] from rfl] at hagrees
    unfold Config.resolve
    cases hr : c.resolving [] with
    | error e =>
      rw [hr] at hagrees
      exact hagrees
    | ok x =>
      rw [hr] at hagrees
      exact hagrees.1
  · intro s hs
    have hsound : s.Sound c := by
      rcases List.mem_cons.mp hs with rfl | hs
      · exact Resolver.sound_start c
      · exact (c.tracks_track hdepth .start (Resolver.sound_start c) rfl).1.moments s hs
    exact ⟨hsound, hsound.length_le⟩
  · intro s d hs hd
    -- What is left of the depth is room enough for the computation without a stack as well.
    have hname : ∀ n, Tracks c s.stack (c.trackName d n) (c.resolveWithin d s.stack n) :=
      c.tracks_trackName hd hd
    exact ⟨fun v => v.tracks_track hname s hs rfl, fun v => v.tracks_trackColumned hname s hs rfl,
      fun n => hname n s hs rfl⟩

/-- A type is resolved and then remembered; a prop and an enum lead to each other. -/
theorem stack_discipline_circle :
    let c : Config := { Config.empty with
      props := [("A", .str "$\x7bB\x7d")]
      enums := [("B", .arr [.str "$\x7bC\x7d", .str "$\x7bA\x7d"])]
      types := [("A", .null), ("C", .obj [])] }
    let s : Resolver := ⟨["A"], [("C", .obj [])]⟩
    c.names.dedup.length = 3 ∧
    (c.track 3 .start).ending = .ofExcept c.resolve ∧
    c.resolve = .error (.circularReference ["A", "B", "A"]) ∧
    (c.track 3 .start).moments.map (·.stack) = [["C"], [], [], ["A"], ["A", "B"], ["A"], []] ∧
    (∀ s ∈ (c.track 3 .start).moments, s.Sound c) ∧
    Kept c s (c.trackName 2 "B" s) := by
  intro c s
  have hnames : c.names.dedup.length = 3 := by decide
  have hs : s.Sound c := ⟨by decide, by decide, by decide⟩
  obtain ⟨hending, hmoments, hcalls⟩ := stack_discipline c (Nat.le_of_eq hnames)
  refine ⟨hnames, hending, ?_, ?_, ?_, ?_⟩
  · have herror : (match c.resolve with | .error e => some e | .ok _ => none) =
        some (.circularReference ["A", "B", "A"]) := by decide +kernel
    cases hr : c.resolve with
    | error e =>
      rw [hr] at herror
      cases herror
      rfl
    | ok f =>
      rw [hr] at herror
      cases herror
  · decide +kernel
  · exact fun m hm => (hmoments m (List.mem_cons_of_mem _ hm)).1
  · exact ((hcalls s 2 hs (Nat.le_of_eq hnames)).2.2 "B").1

end SchemaLang
