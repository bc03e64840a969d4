import SchemaLang.Proofs.Ledger.History

/-!
# Declarations that are refused

A declaration that does not merge is refused before anything is changed.  One that merges is
refused when its merge meets a contradiction, and by then what stands before the contradiction
has been merged.  So the ledger is as if the declaration had ended there: it has taken in a
start of it, which by itself would not have been refused.

Nothing else is touched, and later calls do not carry the difference further: whoever goes on
after a refusal has, but for the one name, what the calls without the refused one come to.

## Main definitions

* `Value.Starts` — a value that another one starts with.
* `Value.CutShort` — a merge that stops at a contradiction has merged a start.
* `Ledger.DifferAt` — ledgers that differ in what stands for one name.

## Main results

* `cutShort_mergeDeclared` — what a failed merge of declarations leaves behind.
* `Ledger.DifferAt.calls` — later calls keep ledgers together.
* `Ledger.enter_refused` — **what a refused declaration leaves behind.**
-/

namespace SchemaLang

/-! ### Merges that stop -/

namespace Value

/-- The second value starts with the first: an array with its first elements, or an object with
its first members, of which the last may itself be a start. -/
inductive Starts : Value → Value → Prop where
  | elements (pre post : List Value) : Starts (.arr pre) (.arr (pre ++ post))
  | members (pre post : List (String × Value)) : Starts (.obj pre) (.obj (pre ++ post))
  | last {w v : Value} (pre : List (String × Value)) (k : String) (post : List (String × Value))
    (start : Starts w v) : Starts (.obj (pre ++ [(k, w)])) (.obj (pre ++ (k, v) :: post))

theorem Starts.cons {js is : List (String × Value)} (h : (obj js).Starts (obj is))
    (m : String × Value) : (obj (m :: js)).Starts (obj (m :: is)) := by
  cases h with
  | members _ post => exact .members (m :: js) post
  | last pre k post start => exact .last (m :: pre) k post start

/-- Merging `i` into `e` by `g`, if it meets a contradiction, has changed nothing or has merged
a start of `i`. -/
def CutShort (g : Value → Merged Value) (e i : Value) : Prop :=
  ¬ (g i).agrees → (g i).value = e ∨ ∃ w, w.Starts i ∧ g w = ⟨(g i).value, true⟩

end Value

open Value

/-- Entries that meet a contradiction have been merged with a start of what came in. -/
theorem Entries.mergeWith_cutShort {f : String → Value → Value → Merged Value}
    {es is : Entries Value} (hf : ∀ k i, (k, i) ∈ is → ∀ e, CutShort (f k e) e i)
    (h : ¬ (mergeWith f es is).agrees) :
    ∃ js, (obj js).Starts (obj is) ∧ mergeWith f es js = ⟨(mergeWith f es is).value, true⟩ := by
  induction is generalizing es with
  | nil => exact absurd rfl h
  | cons first is ih =>
    obtain ⟨k, i⟩ := first
    have hlater := fun k i hmem => hf k i (List.mem_cons_of_mem _ hmem)
    cases hk : get? es k with
    | none =>
      rw [mergeWith_of_none hk] at h ⊢
      obtain ⟨js, hjs, hmerge⟩ := ih hlater h
      exact ⟨(k, i) :: js, hjs.cons _, by rw [mergeWith_of_none hk, hmerge]⟩
    | some e =>
      by_cases hagrees : (f k e i).agrees
      · rw [mergeWith_of_agrees hk hagrees] at h ⊢
        obtain ⟨js, hjs, hmerge⟩ := ih hlater h
        exact ⟨(k, i) :: js, hjs.cons _, by rw [mergeWith_of_agrees hk hagrees, hmerge]⟩
      · -- Here it stops: the start ends before this member, or within it.
        rw [mergeWith_of_clash hk hagrees]
        rcases hf k i List.mem_cons_self e hagrees with hsame | ⟨w, hw, hmerge⟩
        · refine ⟨[], .members [] _, ?_⟩
          rw [hsame, insert_self hk]
          rfl
        · refine ⟨[(k, w)], .last [] k is hw, ?_⟩
          rw [mergeWith_of_agrees hk (by rw [hmerge]), hmerge]
          rfl

theorem Value.cutShort_merge (e i : Value) : CutShort e.merge e i := by
  induction e, i using merge_induction with
  | objects es is ih =>
    intro h
    rw [merge_obj] at h ⊢
    obtain ⟨js, hjs, hmerge⟩ := Entries.mergeWith_cutShort ih h
    exact .inr ⟨obj js, hjs, by rw [merge_obj, hmerge]; rfl⟩
  | others e i apart =>
    intro _
    rw [merge_eq_of_not_obj apart]
    exact .inl rfl

/-- Columns that meet a contradiction have been merged with the first of those that came in. -/
theorem mergeColumns_cutShort {es is : List Value} (h : ¬ (mergeColumns es is).agrees) :
    ∃ pre post, is = pre ++ post ∧ mergeColumns es pre = ⟨(mergeColumns es is).value, true⟩ := by
  induction is generalizing es with
  | nil => exact absurd rfl h
  | cons c cs ih =>
    rw [mergeColumns] at h ⊢
    cases hfind : es.find? (mergeColumns.sameName c) with
    | none =>
      simp only [hfind] at h ⊢
      obtain ⟨pre, post, rfl, hmerge⟩ := ih h
      exact ⟨c :: pre, post, rfl, by rw [mergeColumns, hfind]; exact hmerge⟩
    | some e =>
      by_cases hsame : e.same c
      · simp only [hfind, if_pos hsame] at h ⊢
        obtain ⟨pre, post, rfl, hmerge⟩ := ih h
        exact ⟨c :: pre, post, rfl, by simp only [mergeColumns, hfind, if_pos hsame, hmerge]⟩
      · simp only [if_neg hsame]
        exact ⟨[], c :: cs, rfl, rfl⟩

theorem cutShort_mergeColumnedMember (key : String) (e i : Value) :
    CutShort (mergeColumnedMember key e) e i := by
  intro h
  cases e with
  | arr es =>
    by_cases hkey : key = "columns"
    · cases i with
      | arr is =>
        simp only [mergeColumnedMember, if_pos hkey] at h ⊢
        obtain ⟨pre, post, rfl, hmerge⟩ := mergeColumns_cutShort h
        refine .inr ⟨arr pre, .elements pre post, ?_⟩
        simp only [hmerge]
        rfl
      | _ =>
        refine .inl ?_
        simp only [mergeColumnedMember, if_pos hkey]
    · simp only [mergeColumnedMember, if_neg hkey] at h ⊢
      exact cutShort_merge _ i h
  | _ => exact cutShort_merge _ i h

theorem cutShort_mergeDeclared (kind : Kind) (e i : Value) :
    CutShort (mergeDeclared kind e) e i := by
  by_cases hkind : kind.isColumned
  · intro h
    cases e with
    | obj es =>
      cases i with
      | obj is =>
        have hmerge : ∀ js, mergeDeclared kind (obj es) (obj js) =
            (Entries.mergeWith mergeColumnedMember es js).map .obj := by
          intro js
          rw [mergeDeclared, if_pos hkind, mergeColumned_eq_mergeWith]
        rw [hmerge] at h ⊢
        obtain ⟨js, hjs, hjoined⟩ :=
          Entries.mergeWith_cutShort (fun k i _ e => cutShort_mergeColumnedMember k e i) h
        exact .inr ⟨obj js, hjs, by rw [hmerge, hjoined]; rfl⟩
      | _ => exact .inl rfl
    | _ => exact cutShort_merge _ i h
  · have hmerge : mergeDeclared kind e = e.merge := by
      funext i
      unfold mergeDeclared
      split
      · rw [if_neg hkind]
      · rfl
    rw [hmerge]
    exact cutShort_merge e i

/-! ### One refusal -/

theorem Config.withSection_sectionOf (c : Config) (kind : Kind) :
    c.withSection kind (c.sectionOf kind) = c := by
  cases kind <;> rfl

namespace Ledger

variable {l l' : Ledger} {d : Declared} {kind : Kind} {name : String}

theorem put_self {v : Value} (h : Entries.get? (l.config.sectionOf kind) name = some v) :
    l.put kind name v = l := by
  rw [put, Entries.insert_self h, Config.withSection_sectionOf]

/-- How a declaration is refused: another one that does not merge holds its name, or its merge
with what stands for its name meets a contradiction. -/
theorem enter_eq_error {e : CompileError} (h : (l.enter d).1 = .error e) :
    e = .duplicate d.name d.span ∧
      (d.mergeable = false ∧ (l.enter d).2 = l ∨
        d.mergeable = true ∧ l.isFixed d.kind d.name = false ∧
        ∃ v, Entries.get? (l.config.sectionOf d.kind) d.name = some v ∧
          ¬ (mergeDeclared d.kind v d.value).agrees ∧
          (l.enter d).2 = l.put d.kind d.name (mergeDeclared d.kind v d.value).value) := by
  unfold enter at h ⊢
  cases hv : Entries.get? (l.config.sectionOf d.kind) d.name with
  | none =>
    rw [hv] at h
    cases h
  | some v =>
    rw [hv] at h
    cases hf : l.isFixed d.kind d.name with
    | true =>
      cases hm : d.mergeable with
      | true =>
        rw [hf, hm] at h
        cases h
      | false =>
        rw [hf, hm] at h
        cases h
        exact ⟨rfl, .inl ⟨rfl, rfl⟩⟩
    | false =>
      cases hm : d.mergeable with
      | true =>
        simp only [hf, hm] at h
        by_cases hagrees : (mergeDeclared d.kind v d.value).agrees
        · rw [if_pos hagrees] at h
          cases h
        · rw [if_neg hagrees] at h
          cases h
          exact ⟨rfl, .inr ⟨rfl, rfl, v, rfl, hagrees, rfl⟩⟩
      | false =>
        rw [hf, hm] at h
        cases h

/-- A declaration that merges with what stands for its name. -/
theorem enter_of_agrees (hf : l.isFixed d.kind d.name = false) (hm : d.mergeable = true) {v u : Value}
    (hv : Entries.get? (l.config.sectionOf d.kind) d.name = some v)
    (h : mergeDeclared d.kind v d.value = ⟨u, true⟩) :
    l.enter d = (.ok (), l.put d.kind d.name u) := by
  unfold enter
  simp only [hv, hf, hm, h, if_true]

/-! ### Going on -/

/-- Two ledgers that differ at most in what stands for a kind and name. -/
structure DifferAt (kind : Kind) (name : String) (l l' : Ledger) : Prop where
  keys : ∀ k, Entries.keys (l'.config.sectionOf k) = Entries.keys (l.config.sectionOf k)
  values : ∀ k n, ¬ (k = kind ∧ n = name) →
    Entries.get? (l'.config.sectionOf k) n = Entries.get? (l.config.sectionOf k) n
  fixed : l'.fixed = l.fixed
  uses : l'.config.uses = l.config.uses

namespace DifferAt

theorem refl (kind : Kind) (name : String) (l : Ledger) : DifferAt kind name l l :=
  ⟨fun _ => rfl, fun _ _ _ => rfl, rfl, rfl⟩

/-- Another value for a name that has one. -/
theorem put_right {v : Value} (h : Entries.get? (l.config.sectionOf kind) name = some v) (u : Value) :
    DifferAt kind name l (l.put kind name u) where
  keys k := by
    rw [keys_put]
    by_cases hk : kind = k
    · subst hk
      rw [if_pos rfl, noteName, if_pos (Entries.mem_keys_of_get? h)]
    · rw [if_neg hk]
  values k n hn := by
    rw [get?_put, if_neg]
    rintro ⟨rfl, rfl⟩
    exact hn ⟨rfl, rfl⟩
  fixed := rfl
  uses := uses_put ..

variable (h : DifferAt kind name l l')

include h

theorem isFixed_eq : l'.isFixed = l.isFixed := by
  unfold isFixed
  rw [h.fixed]

/-- Either both ledgers have something for a name, or none has. -/
theorem isSome_eq (k : Kind) (n : String) :
    (Entries.get? (l'.config.sectionOf k) n).isSome =
      (Entries.get? (l.config.sectionOf k) n).isSome := by
  rw [Bool.eq_iff_iff, Option.isSome_iff_exists, Option.isSome_iff_exists, ← Entries.mem_keys_iff,
    ← Entries.mem_keys_iff, h.keys]

theorem put (k : Kind) (n : String) {v v' : Value} (hv : ¬ (k = kind ∧ n = name) → v' = v) :
    DifferAt kind name (l.put k n v) (l'.put k n v') where
  keys k' := by rw [keys_put, keys_put, h.keys]
  values k' n' hn := by
    rw [get?_put, get?_put, h.values k' n' hn]
    by_cases heq : k = k' ∧ n = n'
    · obtain ⟨rfl, rfl⟩ := heq
      rw [if_pos ⟨rfl, rfl⟩, if_pos ⟨rfl, rfl⟩, hv hn]
    · rw [if_neg heq, if_neg heq]
  fixed := h.fixed
  uses := by rw [uses_put, uses_put, h.uses]

theorem fix (k : Kind) (n : String) : DifferAt kind name (l.fix k n) (l'.fix k n) :=
  ⟨h.keys, h.values, congrArg ((k, n) :: ·) h.fixed, h.uses⟩

theorem addUse (path : String) : DifferAt kind name (l.addUse path) (l'.addUse path) := by
  unfold Ledger.addUse
  rw [h.uses]
  by_cases hpath : path ∈ l.config.uses
  · rw [if_pos hpath, if_pos hpath]
    exact h
  · rw [if_neg hpath, if_neg hpath]
    have hsections : ∀ (c : Config) (us : List String) (k : Kind),
        { c with uses := us }.sectionOf k = c.sectionOf k := by
      intro c us k
      cases k <;> rfl
    refine ⟨fun k => ?_, fun k n hn => ?_, h.fixed, rfl⟩
    · rw [hsections, hsections]
      exact h.keys k
    · rw [hsections, hsections]
      exact h.values k n hn

/-- Entering one more declaration. -/
theorem enter (d : Declared) : DifferAt kind name (l.enter d).2 (l'.enter d).2 := by
  have hsome := h.isSome_eq d.kind d.name
  have hvalues := h.values d.kind d.name
  -- What is held and which names have values is the same, so both ledgers take the same branch.
  unfold Ledger.enter
  rw [h.isFixed_eq]
  cases hv : Entries.get? (l.config.sectionOf d.kind) d.name with
  | none =>
    rw [hv, Option.isSome_none, Option.isSome_eq_false_iff, Option.isNone_iff_eq_none] at hsome
    rw [hsome]
    cases d.mergeable with
    | true => exact h.put _ _ fun _ => rfl
    | false => exact (h.put _ _ fun _ => rfl).fix _ _
  | some v =>
    rw [hv, Option.isSome_some] at hsome
    obtain ⟨v', hv'⟩ := Option.isSome_iff_exists.mp hsome
    rw [hv'] at hvalues ⊢
    rw [hv] at hvalues
    cases l.isFixed d.kind d.name with
    | true =>
      cases d.mergeable with
      | true => exact h
      | false => exact h
    | false =>
      cases d.mergeable with
      | true =>
        refine h.put _ _ fun hn => ?_
        rw [Option.some.inj (hvalues hn)]
      | false => exact (h.put _ _ fun _ => rfl).fix _ _

theorem call (c : Call) : DifferAt kind name (l.call c).2 (l'.call c).2 := by
  cases c with
  | enter d => exact h.enter d
  | addUse path => exact h.addUse path

omit h in
/-- Later calls keep two ledgers together. -/
theorem calls (cs : List Call) {l l' : Ledger} (h : DifferAt kind name l l') :
    DifferAt kind name (l.calls cs).2 (l'.calls cs).2 := by
  induction cs generalizing l l' with
  | nil => exact h
  | cons c cs ih => exact ih (h.call c)

end DifferAt

/-- **What a refused declaration leaves behind.**  The answer is a duplicate with the name and
place of the declaration.  One that does not merge leaves the ledger as it was.  One that merges
leaves it as it was, or as a start of it does, which would not have been refused.  In either case
only the value of its kind and name may have changed: whatever is called later, the names, their
order, what the others stand for, what is held and what is used are as if it had not been
entered. -/
theorem enter_refused (l : Ledger) (d : Declared) (e : CompileError)
    (h : (l.enter d).1 = .error e) :
    e = .duplicate d.name d.span ∧
    (d.mergeable = false → (l.enter d).2 = l) ∧
    ((l.enter d).2 = l ∨
      ∃ w, w.Starts d.value ∧ l.enter { d with value := w } = (.ok (), (l.enter d).2)) ∧
    ∀ later, DifferAt d.kind d.name (l.calls later).2 ((l.enter d).2.calls later).2 := by
  obtain ⟨herror, hcases⟩ := enter_eq_error h
  refine ⟨herror, ?_⟩
  rcases hcases with ⟨-, hsame⟩ | ⟨hm, hf, v, hv, hclash, hput⟩
  · rw [hsame]
    exact ⟨fun _ => rfl, .inl rfl, fun later => (DifferAt.refl ..).calls later⟩
  · rw [hput]
    refine ⟨fun hm' => ?_, ?_, fun later => (DifferAt.put_right hv _).calls later⟩
    · rw [hm] at hm'
      cases hm'
    · rcases cutShort_mergeDeclared d.kind v d.value hclash with hvalue | ⟨w, hw, hmerge⟩
      · rw [hvalue]
        exact .inl (put_self hv)
      · exact .inr ⟨w, hw, enter_of_agrees (d := { d with value := w }) hf hm hv hmerge⟩

/-- A model whose second column contradicts what is known of it.  The first one stays. -/
theorem enter_refused_column :
    let column (name type : String) : Value := .obj [("type", .str type), ("name", .str name)]
    let model (columns : List Value) : Declared :=
      ⟨.model, "U", .obj [("name", .str "U"), ("columns", .arr columns)], true, none⟩
    let l := (empty.calls [.addUse "a", .enter (model [column "id" "String"])]).2
    let d := model [column "mail" "String", column "id" "Int", column "age" "Int"]
    (l.enter d).1 = .error (.duplicate "U" none) ∧
    (l.enter d).2.config.models =
      [("U", (model [column "id" "String", column "mail" "String"]).value)] ∧
    (∃ w, w.Starts d.value ∧ l.enter { d with value := w } = (.ok (), (l.enter d).2)) ∧
    ∀ later, DifferAt .model "U" (l.calls later).2 ((l.enter d).2.calls later).2 := by
  intro column model l d
  have herror : (l.enter d).1 = .error (.duplicate "U" none) := by rfl
  have hmodels : (l.enter d).2.config.models =
      [("U", (model [column "id" "String", column "mail" "String"]).value)] := by rfl
  obtain ⟨-, -, hleft, hlater⟩ := enter_refused l d _ herror
  refine ⟨herror, hmodels, hleft.resolve_left fun hsame => ?_, hlater⟩
  -- If nothing had been left behind, there would be one column as before.
  rw [hsame] at hmodels
  have hcolumns : (model [column "id" "String"]).value =
      (model [column "id" "String", column "mail" "String"]).value :=
    (Prod.mk.inj (List.cons.inj hmodels).1).2
  simp [model] at hcolumns

/-- It is not so that a refused declaration always leaves the ledger as it was: here a new
constant stands before the one that contradicts. -/
theorem enter_refused_changes :
    ¬ ∀ (cs : List Call) (d : Declared) (e : CompileError),
      ((empty.calls cs).2.enter d).1 = .error e →
        ((empty.calls cs).2.enter d).2 = (empty.calls cs).2 := by
  intro h
  have hsame := h [.enter ⟨.enum, "A", .obj [("X", .str "x")], true, none⟩]
    ⟨.enum, "A", .obj [("Y", .str "y"), ("X", .str "z")], true, none⟩ (.duplicate "A" none) rfl
  have henums : [("A", obj [("X", str "x"), ("Y", str "y")])] = [("A", obj [("X", str "x")])] :=
    congrArg (·.config.enums) hsame
  simp at henums

end Ledger

end SchemaLang
