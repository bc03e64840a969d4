import SchemaLang.Proofs.Ledger.Standing
import Mathlib.Data.List.Induction

/-!
# What a ledger holds

A ledger is built by calls: declarations are entered and paths are noted, in any number and
order, and each call is answered.  What the calls come to can be read off the list of calls,
one kind and name at a time: declarations of other kinds and names do not matter.

A declaration that does not merge takes the place of all others of its name.  Those that came
before it have been merged by then, so a contradiction among them has been answered with an
error; those that come after it are not looked at.

## Main definitions

* `Ledger.Entered` — what entering a declaration changes.
* `Ledger.Call`, `Ledger.calls` — calls and their answers.
* `Ledger.Records` — a ledger holds what the calls come to.

## Main results

* `Ledger.enter_of_onto` — one call.
* `Ledger.calls_records` — many calls.
* `Ledger.calls_exact` — **when no call is refused, and what the ledger holds then.**
-/

namespace SchemaLang

variable {d : Declared}

/-! ### One call -/

/-- Names with one more, unless it is among them. -/
def noteName (names : List String) (name : String) : List String :=
  if name ∈ names then names else names ++ [name]

theorem eraseDups_concat (names : List String) (name : String) :
    (names ++ [name]).eraseDups = noteName names.eraseDups name := by
  rw [List.eraseDups_append, noteName]
  by_cases h : name ∈ names
  · simp [List.removeAll, h]
  · simp [List.removeAll, h, List.eraseDups_cons]

namespace Ledger

variable {l : Ledger}

@[simp] theorem uses_put (l : Ledger) (kind : Kind) (name : String) (v : Value) :
    (l.put kind name v).config.uses = l.config.uses := Config.uses_withSection ..

@[simp] theorem config_fix (l : Ledger) (kind : Kind) (name : String) :
    (l.fix kind name).config = l.config := rfl

@[simp] theorem isFixed_put (l : Ledger) (kind : Kind) (name : String) (v : Value) :
    (l.put kind name v).isFixed = l.isFixed := rfl

theorem get?_put (l : Ledger) (kind : Kind) (name : String) (v : Value) (kind' : Kind)
    (name' : String) : Entries.get? ((l.put kind name v).config.sectionOf kind') name' =
      if kind = kind' ∧ name = name' then some v
      else Entries.get? (l.config.sectionOf kind') name' := by
  rw [put, Config.sectionOf_withSection]
  by_cases hk : kind = kind'
  · subst hk
    simp [Entries.get?_insert]
  · simp [hk]

theorem keys_put (l : Ledger) (kind : Kind) (name : String) (v : Value) (kind' : Kind) :
    Entries.keys ((l.put kind name v).config.sectionOf kind') =
      if kind = kind' then noteName (Entries.keys (l.config.sectionOf kind')) name
      else Entries.keys (l.config.sectionOf kind') := by
  rw [put, Config.sectionOf_withSection]
  by_cases hk : kind = kind'
  · subst hk
    simp [Entries.keys_insert, noteName]
  · simp [hk]

theorem isFixed_fix (l : Ledger) (kind : Kind) (name : String) (kind' : Kind) (name' : String) :
    (l.fix kind name).isFixed kind' name' = (decide (kind = kind' ∧ name = name') ||
      l.isFixed kind' name') := by
  simp [isFixed, fix, eq_comm]

/-- A declaration has been entered, and `v` stands for its kind and name. -/
structure Entered (l : Ledger) (d : Declared) (v : Value) (l' : Ledger) : Prop where
  keys : ∀ kind, Entries.keys (l'.config.sectionOf kind) =
    if d.kind = kind then noteName (Entries.keys (l.config.sectionOf kind)) d.name
    else Entries.keys (l.config.sectionOf kind)
  values : ∀ kind name, Entries.get? (l'.config.sectionOf kind) name =
    if d.isFor kind name then some v else Entries.get? (l.config.sectionOf kind) name
  fixed : ∀ kind name, l'.isFixed kind name =
    (d.isFor kind name && !d.mergeable || l.isFixed kind name)
  uses : l'.config.uses = l.config.uses

theorem entered_put_of_mergeable (l : Ledger) (hm : d.mergeable) (v : Value) :
    Entered l d v (l.put d.kind d.name v) where
  keys := keys_put l d.kind d.name v
  values kind name := by simp [get?_put, Declared.isFor]
  fixed kind name := by simp [hm]
  uses := uses_put ..

theorem entered_put_fix (l : Ledger) (hm : ¬ d.mergeable) (v : Value) :
    Entered l d v ((l.put d.kind d.name v).fix d.kind d.name) where
  keys := keys_put l d.kind d.name v
  values kind name := by simp [get?_put, Declared.isFor]
  fixed kind name := by
    rw [isFixed_fix]
    simp [hm, Declared.isFor]
  uses := uses_put ..

theorem entered_self (hm : d.mergeable) {v : Value}
    (hv : Entries.get? (l.config.sectionOf d.kind) d.name = some v) : Entered l d v l where
  keys kind := by
    by_cases hk : d.kind = kind
    · subst hk
      simp [noteName, Entries.mem_keys_of_get? hv]
    · simp [hk]
  values kind name := by
    by_cases hfor : d.isFor kind name
    · obtain ⟨rfl, rfl⟩ : d.kind = kind ∧ d.name = name := by simpa [Declared.isFor] using hfor
      simp [hfor, hv]
    · simp [hfor]
  fixed kind name := by simp [hm]
  uses := rfl

/-- A declaration is refused when nothing comes of it and of what stands for its name, else
what comes of them stands for it. -/
theorem enter_of_onto (l : Ledger) (d : Declared) :
    match d.onto (Entries.get? (l.config.sectionOf d.kind) d.name) (l.isFixed d.kind d.name) with
    | some v => (l.enter d).1 = .ok () ∧ Entered l d v (l.enter d).2
    | none => (l.enter d).1 ≠ .ok () := by
  unfold enter
  cases hv : Entries.get? (l.config.sectionOf d.kind) d.name with
  | none =>
    cases hm : d.mergeable with
    | true => exact ⟨rfl, entered_put_of_mergeable l hm d.value⟩
    | false => exact ⟨rfl, entered_put_fix l (by simp [hm]) d.value⟩
  | some e =>
    cases hf : l.isFixed d.kind d.name with
    | true =>
      cases hm : d.mergeable with
      | true =>
        simp only [Declared.onto, hm, true_and]
        exact entered_self hm hv
      | false => simp [Declared.onto, hm]
    | false =>
      cases hm : d.mergeable with
      | true =>
        simp only [Declared.onto, hm, Merged.agreed]
        cases (mergeDeclared d.kind e d.value).agrees with
        | true => exact ⟨rfl, entered_put_of_mergeable l hm _⟩
        | false => simp
      | false =>
        simp only [Declared.onto, hm, true_and]
        exact entered_put_fix l (by simp [hm]) d.value

/-! ### Many calls -/

/-- A call to a ledger. -/
inductive Call where
  | enter (d : Declared) : Call
  | addUse (path : String) : Call

/-- One call, with its answer. -/
def call (l : Ledger) : Call → Except CompileError Unit × Ledger
  | .enter d => l.enter d
  | .addUse path => (.ok (), l.addUse path)

/-- Calls one after the other, with their answers; a call that is refused does not keep the
next one from being made. -/
def calls (l : Ledger) : List Call → List (Except CompileError Unit) × Ledger
  | [] => ([], l)
  | c :: cs => ((l.call c).1 :: ((l.call c).2.calls cs).1, ((l.call c).2.calls cs).2)

/-- No call is refused. -/
def Accepts (l : Ledger) (cs : List Call) : Prop := ∀ r ∈ (l.calls cs).1, r = .ok ()

namespace Call

/-- The declarations that are entered. -/
def declarations (cs : List Call) : List Declared :=
  cs.filterMap fun
    | .enter d => some d
    | .addUse _ => none

/-- The paths that are noted. -/
def paths (cs : List Call) : List String :=
  cs.filterMap fun
    | .enter _ => none
    | .addUse path => some path

/-- The declarations that are entered for a kind and name. -/
def entries (cs : List Call) (kind : Kind) (name : String) : List Declared :=
  (declarations cs).filter (Declared.isFor kind name)

/-- The names that are declared of a kind. -/
def names (cs : List Call) (kind : Kind) : List String :=
  ((declarations cs).filter (·.kind = kind)).map (·.name)

end Call

open Call

theorem calls_concat (l : Ledger) (cs : List Call) (c : Call) :
    l.calls (cs ++ [c]) =
      ((l.calls cs).1 ++ [((l.calls cs).2.call c).1], ((l.calls cs).2.call c).2) := by
  induction cs generalizing l with
  | nil => rfl
  | cons first cs ih => simp only [List.cons_append, calls, ih]

theorem accepts_concat {cs : List Call} {c : Call} :
    l.Accepts (cs ++ [c]) ↔ l.Accepts cs ∧ ((l.calls cs).2.call c).1 = .ok () := by
  rw [Accepts, Accepts, calls_concat, List.forall_mem_append, List.forall_mem_singleton]

/-- A ledger holds what the calls come to. -/
structure Records (cs : List Call) (l : Ledger) : Prop where
  keys : ∀ kind, Entries.keys (l.config.sectionOf kind) = (names cs kind).eraseDups
  values : ∀ kind name,
    Entries.get? (l.config.sectionOf kind) name = standing kind (entries cs kind name)
  fixed : ∀ kind name, l.isFixed kind name = (entries cs kind name).any (!·.mergeable)
  uses : l.config.uses = (paths cs).eraseDups

theorem entries_concat_enter (cs : List Call) (d : Declared) (kind : Kind) (name : String) :
    entries (cs ++ [.enter d]) kind name =
      entries cs kind name ++ if d.isFor kind name then [d] else [] := by
  simp [entries, declarations, List.filter_cons]

theorem names_concat_enter (cs : List Call) (d : Declared) (kind : Kind) :
    names (cs ++ [.enter d]) kind = names cs kind ++ if d.kind = kind then [d.name] else [] := by
  simp only [names, declarations, List.filterMap_append, List.filter_append, List.map_append]
  by_cases hk : d.kind = kind <;> simp [hk]

theorem records_empty : Records [] empty where
  keys kind := by cases kind <;> rfl
  values kind name := by cases kind <;> rfl
  fixed kind name := rfl
  uses := rfl

/-- A path is noted once, and nothing else is touched. -/
theorem Records.addUse {cs : List Call} (h : Records cs l) (path : String) :
    Records (cs ++ [.addUse path]) (l.addUse path) := by
  have hdeclared : declarations (cs ++ [.addUse path]) = declarations cs := by simp [declarations]
  have hpaths : paths (cs ++ [.addUse path]) = paths cs ++ [path] := by simp [paths]
  have hsections : ∀ kind, (l.addUse path).config.sectionOf kind = l.config.sectionOf kind := by
    intro kind
    unfold Ledger.addUse
    split
    · rfl
    · cases kind <;> rfl
  have hfixed : (l.addUse path).fixed = l.fixed := by
    unfold Ledger.addUse
    split <;> rfl
  constructor
  · intro kind
    rw [hsections, names, hdeclared]
    exact h.keys kind
  · intro kind name
    rw [hsections, entries, hdeclared]
    exact h.values kind name
  · intro kind name
    rw [isFixed, hfixed, entries, hdeclared]
    exact h.fixed kind name
  · rw [hpaths, eraseDups_concat, ← h.uses, noteName]
    unfold Ledger.addUse
    split <;> rfl

/-- A declaration that is not refused is merged with those of its kind and name. -/
theorem Records.enter {cs : List Call} (h : Records cs l) {v : Value} {l' : Ledger}
    (he : Entered l d v l') (hv : standing d.kind (entries cs d.kind d.name ++ [d]) = some v) :
    Records (cs ++ [.enter d]) l' := by
  constructor
  · intro kind
    rw [he.keys, names_concat_enter, h.keys]
    by_cases hk : d.kind = kind
    · rw [if_pos hk, if_pos hk, eraseDups_concat]
    · rw [if_neg hk, if_neg hk, List.append_nil]
  · intro kind name
    rw [he.values, entries_concat_enter, h.values]
    by_cases hfor : d.isFor kind name
    · obtain ⟨rfl, rfl⟩ : d.kind = kind ∧ d.name = name := by simpa [Declared.isFor] using hfor
      rw [if_pos hfor, if_pos hfor, hv]
    · rw [if_neg hfor, if_neg hfor, List.append_nil]
  · intro kind name
    rw [he.fixed, entries_concat_enter, h.fixed]
    by_cases hfor : d.isFor kind name
    · simp [hfor, Bool.or_comm]
    · simp [hfor]
  · have hpaths : paths (cs ++ [.enter d]) = paths cs := by simp [paths]
    rw [he.uses, hpaths, h.uses]

/-- What a declaration makes of those of its kind and name that were entered before. -/
def Call.next (cs : List Call) (d : Declared) : Option Value :=
  d.onto (standing d.kind (entries cs d.kind d.name))
    ((entries cs d.kind d.name).any (!·.mergeable))

theorem forall_compatible_concat (cs : List Call) (d : Declared) :
    (∀ kind name, Compatible kind (entries (cs ++ [.enter d]) kind name)) ↔
      (∀ kind name, Compatible kind (entries cs kind name)) ∧ (next cs d).isSome := by
  have hown : entries (cs ++ [.enter d]) d.kind d.name = entries cs d.kind d.name ++ [d] := by
    simp [entries_concat_enter, Declared.isFor]
  have hother : ∀ kind name, ¬ d.isFor kind name →
      entries (cs ++ [.enter d]) kind name = entries cs kind name := by
    intro kind name hfor
    rw [entries_concat_enter, if_neg hfor, List.append_nil]
  constructor
  · intro h
    have hd := (compatible_concat rfl).mp (hown ▸ h d.kind d.name)
    refine ⟨fun kind name => ?_, hd.2⟩
    by_cases hfor : d.isFor kind name
    · obtain ⟨rfl, rfl⟩ : d.kind = kind ∧ d.name = name := by simpa [Declared.isFor] using hfor
      exact hd.1
    · rw [← hother kind name hfor]
      exact h kind name
  · rintro ⟨h, hd⟩ kind name
    by_cases hfor : d.isFor kind name
    · obtain ⟨rfl, rfl⟩ : d.kind = kind ∧ d.name = name := by simpa [Declared.isFor] using hfor
      rw [hown]
      exact (compatible_concat rfl).mpr ⟨h d.kind d.name, hd⟩
    · rw [hother kind name hfor]
      exact h kind name

/-- From a ledger that records the calls so far, a declaration is answered as the calls say. -/
theorem Records.enter_next {cs : List Call} (h : Records cs l) (d : Declared) :
    match next cs d with
    | some v => (l.enter d).1 = .ok () ∧ Entered l d v (l.enter d).2
    | none => (l.enter d).1 ≠ .ok () := by
  have honto := l.enter_of_onto d
  rw [h.values, h.fixed] at honto
  exact honto

/-- Calls are all accepted when the declarations of each kind and name go together, and the
ledger then holds what they come to. -/
theorem calls_records (cs : List Call) :
    (empty.Accepts cs ↔ ∀ kind name, Compatible kind (entries cs kind name)) ∧
    (empty.Accepts cs → Records cs (empty.calls cs).2) := by
  induction cs using List.reverseRecOn with
  | nil =>
    have hcompatible : ∀ kind name, Compatible kind (entries [] kind name) := by
      intro kind name
      exact ⟨by simp [entries, declarations], .inl rfl⟩
    have hnil : empty.Accepts [] := by simp [Accepts, calls]
    exact ⟨iff_of_true hnil hcompatible, fun _ => records_empty⟩
  | append_singleton cs c ih =>
    obtain ⟨hiff, hrecords⟩ := ih
    rw [accepts_concat, calls_concat]
    cases c with
    | addUse path =>
      have hentries : ∀ kind name, entries (cs ++ [.addUse path]) kind name = entries cs kind name := by
        simp [entries, declarations]
      simp only [call, and_true, hentries]
      exact ⟨hiff, fun h => (hrecords h).addUse path⟩
    | enter d =>
      simp only [call]
      rw [forall_compatible_concat, ← hiff]
      constructor
      · refine and_congr_right fun h => ?_
        have hnext := (hrecords h).enter_next d
        cases hv : next cs d with
        | none =>
          rw [hv] at hnext
          simpa using hnext
        | some v =>
          rw [hv] at hnext
          simpa using hnext.1
      · rintro ⟨h, hok⟩
        have hnext := (hrecords h).enter_next d
        cases hv : next cs d with
        | none =>
          rw [hv] at hnext
          exact absurd hok hnext
        | some v =>
          rw [hv] at hnext
          refine (hrecords h).enter hnext.2 ?_
          have hcompatible : Compatible d.kind (entries cs d.kind d.name ++ [d]) :=
            (compatible_concat rfl).mpr ⟨hiff.mp h d.kind d.name, Option.isSome_of_eq_some hv⟩
          rw [standing_concat rfl hcompatible]
          exact hv

/-- **What a ledger holds.**  No call is refused exactly when of each kind and name at most
one declaration does not merge, and those entered before it merge from left to right.  Then
each section has the names that were declared, in the order in which they came first; a
declaration that does not merge stands for its name as it is, and where there is none the
declarations of the name are merged; and each path is noted once, where it came first. -/
theorem calls_exact (cs : List Call) :
    ((∀ r ∈ (empty.calls cs).1, r = .ok ()) ↔ ∀ kind name,
      (entries cs kind name).countP (!·.mergeable) ≤ 1 ∧
      Agree kind (((entries cs kind name).takeWhile (·.mergeable)).map (·.value))) ∧
    ((∀ r ∈ (empty.calls cs).1, r = .ok ()) →
      let config := (empty.calls cs).2.config
      (∀ kind, Entries.keys (config.sectionOf kind) = (names cs kind).eraseDups) ∧
      (∀ kind name, ∀ d ∈ entries cs kind name, d.mergeable = false →
        Entries.get? (config.sectionOf kind) name = some d.value) ∧
      (∀ kind name, (∀ d ∈ entries cs kind name, d.mergeable = true) →
        Entries.get? (config.sectionOf kind) name =
          mergeAll kind ((entries cs kind name).map (·.value))) ∧
      config.uses = (paths cs).eraseDups) := by
  obtain ⟨hiff, hrecords⟩ := calls_records cs
  refine ⟨hiff, fun h => ⟨(hrecords h).keys, ?_, ?_, (hrecords h).uses⟩⟩
  · intro kind name d hd hm
    rw [(hrecords h).values, standing_of_held (find?_of_compatible (hiff.mp h kind name) hd hm)]
  · intro kind name hfree
    rw [(hrecords h).values, standing_of_free hfree]

end Ledger

end SchemaLang
