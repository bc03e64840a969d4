import SchemaLang.Proofs.Compile.Form
import SchemaLang.Proofs.Ledger.Order
import Mathlib.Data.List.Permutation

/-!
# The order of declarations in a schema

A schema is compiled statement by statement, and each one that compiles makes a call to the
ledger.  So what is known of the order of calls holds for the order of statements.

Declarations that merge may stand in any order.  A declaration that does not merge has its
value wherever it stands.  But it does not keep a schema from failing: those of its name that
stand before it are merged before it is reached, so if they contradict each other the schema
has no configuration, though it would have one with the declaration in front of them.

## Main definitions

* `Context.call?` — the call that a statement makes.
* `Context.valuesOf` — what the declarations of a kind and name come to, one by one.

## Main results

* `Context.schema_eq_ok_iff` — a schema compiles when its statements do and their calls are
  accepted.
* `Context.schema_perm` — **declarations that merge may stand in any order.**
* `Context.schema_moved` — **where a declaration that does not merge may stand.**
-/

namespace SchemaLang

open Ledger Ledger.Call

theorem forall₂_append_left_iff {α β : Type} {r : α → β → Prop} {as as' : List α} {bs : List β} :
    List.Forall₂ r (as ++ as') bs ↔
      ∃ cs cs', bs = cs ++ cs' ∧ List.Forall₂ r as cs ∧ List.Forall₂ r as' cs' := by
  constructor
  · intro h
    refine ⟨bs.take as.length, bs.drop as.length, (List.take_append_drop _ _).symm, ?_, ?_⟩
    · simpa using List.forall₂_take as.length h
    · simpa using List.forall₂_drop as.length h
  · rintro ⟨cs, cs', rfl, h, h'⟩
    exact List.rel_append h h'

namespace Context

variable {ctx : Context}

/-! ### Statements as calls -/

/-- The call that a statement makes, if it compiles. -/
def call? (ctx : Context) : Node → Except CompileError Call
  | .declaration d =>
    (ctx.declaration d).map fun r => .enter ⟨d.kind, r.1, r.2, d.mergeable, some d.span⟩
  | .use u => (usePath (.use u)).map .addUse
  | .schema _ span => .error (.invalidSchema span)

theorem enter_eq_bind (ctx : Context) (l : Ledger) (n : Node) :
    ctx.enter l n = (ctx.call? n).bind fun c => (l.call c).1.map fun _ => (l.call c).2 := by
  cases n with
  | declaration d =>
    rw [enter, call?]
    cases ctx.declaration d <;> rfl
  | use u =>
    rw [enter, call?]
    cases usePath (.use u) <;> rfl
  | schema body span => rfl

theorem enter_eq_ok_iff {l l' : Ledger} {n : Node} :
    ctx.enter l n = .ok l' ↔
      ∃ c, ctx.call? n = .ok c ∧ (l.call c).1 = .ok () ∧ (l.call c).2 = l' := by
  rw [enter_eq_bind]
  cases hc : ctx.call? n with
  | error e => simp [Except.bind]
  | ok c =>
    have hbind : ((Except.ok c : Except CompileError Call).bind fun c =>
        (l.call c).1.map fun _ => (l.call c).2) = (l.call c).1.map fun _ => (l.call c).2 := rfl
    rw [hbind, Except.map_eq_ok_iff]
    constructor
    · rintro ⟨⟨⟩, hok, rfl⟩
      exact ⟨c, rfl, hok, rfl⟩
    · rintro ⟨c', hc', hok, rfl⟩
      cases hc'
      exact ⟨(), hok, rfl⟩

/-- Statements are compiled when each one makes a call and no call is refused. -/
theorem foldlM_enter_eq_ok_iff {ns : List Node} {l l' : Ledger} :
    ns.foldlM ctx.enter l = .ok l' ↔
      ∃ cs, List.Forall₂ (fun n c => ctx.call? n = .ok c) ns cs ∧ l.Accepts cs ∧
        (l.calls cs).2 = l' := by
  induction ns generalizing l with
  | nil =>
    have hnil : ([] : List Node).foldlM ctx.enter l = .ok l' ↔ l = l' := by
      rw [List.foldlM_nil]
      exact ⟨Except.ok.inj, congrArg _⟩
    rw [hnil]
    simp [Accepts, calls]
  | cons n ns ih =>
    have hcons : (n :: ns).foldlM ctx.enter l = .ok l' ↔
        ∃ l₁, ctx.enter l n = .ok l₁ ∧ ns.foldlM ctx.enter l₁ = .ok l' := by
      rw [List.foldlM_cons]
      cases hn : ctx.enter l n with
      | error e => simp [bind, Except.bind]
      | ok l₁ => simp [bind, Except.bind]
    rw [hcons]
    constructor
    · rintro ⟨l₁, hn, hns⟩
      obtain ⟨c, hc, hok, rfl⟩ := enter_eq_ok_iff.mp hn
      obtain ⟨cs, hcs, haccepts, rfl⟩ := ih.mp hns
      exact ⟨c :: cs, .cons hc hcs, List.forall_mem_cons.mpr ⟨hok, haccepts⟩, rfl⟩
    · rintro ⟨cs, hcs, haccepts, rfl⟩
      cases hcs with
      | cons hc hcs =>
        obtain ⟨hok, haccepts⟩ := List.forall_mem_cons.mp haccepts
        exact ⟨_, enter_eq_ok_iff.mpr ⟨_, hc, hok, rfl⟩, ih.mpr ⟨_, hcs, haccepts, rfl⟩⟩

/-- A schema compiles when its statements do and their calls are accepted. -/
theorem schema_eq_ok_iff {s : Schema} {c : Config} :
    ctx.schema s = .ok c ↔
      ∃ cs, List.Forall₂ (fun n c => ctx.call? n = .ok c) s.body cs ∧ Ledger.empty.Accepts cs ∧
        (Ledger.empty.calls cs).2.config = c := by
  have hschema : ctx.schema s = .ok c ↔
      ∃ l, s.body.foldlM ctx.enter .empty = .ok l ∧ l.config = c := by
    unfold schema
    cases s.body.foldlM ctx.enter .empty with
    | error e => simp [bind, Except.bind]
    | ok l => simp [bind, Except.bind, pure, Except.pure]
  rw [hschema]
  constructor
  · rintro ⟨l, hl, rfl⟩
    obtain ⟨cs, hcs, haccepts, rfl⟩ := foldlM_enter_eq_ok_iff.mp hl
    exact ⟨cs, hcs, haccepts, rfl⟩
  · rintro ⟨cs, hcs, haccepts, rfl⟩
    exact ⟨_, foldlM_enter_eq_ok_iff.mpr ⟨cs, hcs, haccepts, rfl⟩, rfl⟩

theorem call?_eq_enter {n : Node} {x : Declared} (h : ctx.call? n = .ok (.enter x)) :
    ∃ d r, n = .declaration d ∧ ctx.declaration d = .ok r ∧
      x = ⟨d.kind, r.1, r.2, d.mergeable, some d.span⟩ := by
  cases n with
  | declaration d =>
    obtain ⟨r, hr, hx⟩ := Except.map_eq_ok_iff.mp h
    cases hx
    exact ⟨d, r, rfl, hr, rfl⟩
  | use u =>
    obtain ⟨path, -, hx⟩ := Except.map_eq_ok_iff.mp h
    cases hx
  | schema body span => cases h

theorem exists_of_forall₂ {α β : Type} {r : α → β → Prop} {as : List α} {bs : List β}
    (h : List.Forall₂ r as bs) {b : β} (hb : b ∈ bs) : ∃ a ∈ as, r a b := by
  induction h with
  | nil => cases hb
  | cons hab _ ih =>
    rcases List.mem_cons.mp hb with rfl | hb
    · exact ⟨_, List.mem_cons_self, hab⟩
    · obtain ⟨a, ha, har⟩ := ih hb
      exact ⟨a, List.mem_cons_of_mem _ ha, har⟩

/-- What is entered comes from a declaration among the statements. -/
theorem exists_declaration {ns : List Node} {cs : List Call}
    (h : List.Forall₂ (fun n c => ctx.call? n = .ok c) ns cs) {x : Declared}
    (hx : x ∈ declarations cs) : ∃ d r, .declaration d ∈ ns ∧ ctx.declaration d = .ok r ∧
      x = ⟨d.kind, r.1, r.2, d.mergeable, some d.span⟩ := by
  obtain ⟨c, hc, hcx⟩ := List.mem_filterMap.mp hx
  cases c with
  | addUse path => cases hcx
  | enter y =>
    cases hcx
    obtain ⟨n, hn, hcall⟩ := exists_of_forall₂ h hc
    obtain ⟨d, r, rfl, hr, hy⟩ := call?_eq_enter hcall
    exact ⟨d, r, hn, hr, hy⟩

/-! ### Declarations that merge -/

/-- Declarations that merge compile in any order when they compile in one. -/
theorem schema_perm_ok {environment : Entries String} {ds ds' : List Declaration} {span : Span}
    (hm : ∀ d ∈ ds, d.mergeable = true) (hperm : ds.Perm ds') {c : Config}
    (h : schema ⟨environment, none⟩ ⟨ds.map .declaration, span⟩ = .ok c) (span' : Span) :
    ∃ c', schema ⟨environment, none⟩ ⟨ds'.map .declaration, span'⟩ = .ok c' ∧ c.Alike c' := by
  obtain ⟨cs, hcs, haccepts, rfl⟩ := schema_eq_ok_iff.mp h
  obtain ⟨cs', hcs', hperm'⟩ := List.perm_comp_forall₂ (hperm.symm.map Node.declaration) hcs
  have hentered : ∀ x ∈ declarations cs, x.kind.inclusion.valid x.value ∧ x.mergeable := by
    intro x hx
    obtain ⟨d, r, hd, hr, rfl⟩ := exists_declaration hcs hx
    have hmem : d ∈ ds := by simpa using hd
    exact ⟨valid_of_declaration hr, hm d hmem⟩
  have hvalid := fun x hx => (hentered x hx).1
  have hmerge := fun x hx => (hentered x hx).2
  exact ⟨_, schema_eq_ok_iff.mpr ⟨cs', hcs', accepts_perm hperm'.symm hvalid hmerge haccepts, rfl⟩,
    alike_perm hperm'.symm hvalid hmerge haccepts⟩

/-- **Declarations that merge may stand in any order.**  A schema of such declarations has a
configuration in both orders or in none, and the two configurations have the same names, which
stand for equal declarations. -/
theorem schema_perm (environment : Entries String) (ds ds' : List Declaration) (span span' : Span)
    (hm : ∀ d ∈ ds, d.mergeable = true) (hperm : ds.Perm ds') :
    (∃ c c', schema ⟨environment, none⟩ ⟨ds.map .declaration, span⟩ = .ok c ∧
      schema ⟨environment, none⟩ ⟨ds'.map .declaration, span'⟩ = .ok c' ∧ c.Alike c') ∨
    ∃ e e', schema ⟨environment, none⟩ ⟨ds.map .declaration, span⟩ = .error e ∧
      schema ⟨environment, none⟩ ⟨ds'.map .declaration, span'⟩ = .error e' := by
  have hm' : ∀ d ∈ ds', d.mergeable = true := fun d hd => hm d (hperm.mem_iff.mpr hd)
  cases h : schema ⟨environment, none⟩ ⟨ds.map .declaration, span⟩ with
  | ok c =>
    obtain ⟨c', hc', halike⟩ := schema_perm_ok hm hperm h span'
    exact .inl ⟨c, c', rfl, hc', halike⟩
  | error e =>
    cases h' : schema ⟨environment, none⟩ ⟨ds'.map .declaration, span'⟩ with
    | ok c' =>
      obtain ⟨c, hc, -⟩ := schema_perm_ok hm' hperm.symm h' span
      rw [h] at hc
      cases hc
    | error e' => exact .inr ⟨e, e', rfl, rfl⟩

theorem schema_perm_nested :
    let prop (ps : List Property) : Declaration :=
      ⟨.prop, true, ⟨"P", default⟩, ⟨ps, default⟩, default⟩
    let number (n : Int) : Data := .literal (.integer n) default
    let zero (bits : UInt64) : Data := .literal (.float ⟨bits⟩) default
    let one := prop [(⟨"a", default⟩, .object [(⟨"x", default⟩, number 1)] default)]
    let two := prop [(⟨"a", default⟩, .object [(⟨"y", default⟩, number 2)] default),
      (⟨"b", default⟩, zero 0)]
    let three := prop [(⟨"b", default⟩, zero 0x8000000000000000)]
    let c : Config := { Config.empty with props := [("P", .obj [
      ("a", .obj [("x", .int 1), ("y", .int 2)]), ("b", .float ⟨0⟩)])] }
    let c' : Config := { Config.empty with props := [("P", .obj [
      ("b", .float ⟨0x8000000000000000⟩), ("a", .obj [("y", .int 2), ("x", .int 1)])])] }
    (∀ d ∈ [one, two, three], d.mergeable = true) ∧
      [one, two, three].Perm [three, two, one] ∧
      schema ⟨[], none⟩ ⟨[one, two, three].map .declaration, default⟩ = .ok c ∧
      schema ⟨[], none⟩ ⟨[three, two, one].map .declaration, default⟩ = .ok c' ∧ c.Alike c' := by
  intro prop number zero one two three c c'
  have hm : ∀ d ∈ [one, two, three], d.mergeable = true := by simp [one, two, three, prop]
  have hperm : [one, two, three].Perm [three, two, one] := (List.reverse_perm [three, two, one])
  have h : schema ⟨[], none⟩ ⟨[one, two, three].map .declaration, default⟩ = .ok c := rfl
  have h' : schema ⟨[], none⟩ ⟨[three, two, one].map .declaration, default⟩ = .ok c' := rfl
  refine ⟨hm, hperm, h, h', ?_⟩
  obtain ⟨_, _, hc, hc', halike⟩ | ⟨e, _, he, -⟩ :=
    schema_perm [] [one, two, three] [three, two, one] default default hm hperm
  · cases h.symm.trans hc
    cases h'.symm.trans hc'
    exact halike
  · cases h.symm.trans he

/-! ### A declaration that does not merge -/

/-- What the declarations of a kind and name among statements come to one by one, where they
compile. -/
def valuesOf (ctx : Context) (kind : Kind) (name : String) (ns : List Node) : List Value :=
  ns.filterMap fun
    | .declaration d =>
      if d.kind = kind ∧ d.id.name = name then (ctx.declaration d).toOption.map (·.2) else none
    | _ => none

theorem valuesOf_cons (ctx : Context) (kind : Kind) (name : String) (n : Node) (ns : List Node) :
    ctx.valuesOf kind name (n :: ns) = ctx.valuesOf kind name [n] ++ ctx.valuesOf kind name ns :=
  List.filterMap_append (l := [n])

theorem valuesOf_eq {ns : List Node} {cs : List Call}
    (h : List.Forall₂ (fun n c => ctx.call? n = .ok c) ns cs) (kind : Kind) (name : String) :
    ctx.valuesOf kind name ns = (entries cs kind name).map (·.value) := by
  induction h with
  | nil => rfl
  | @cons n c ns cs hc _ ih =>
    have hcons : entries (c :: cs) kind name = entries [c] kind name ++ entries cs kind name := by
      rw [← List.singleton_append, entries_append]
    rw [valuesOf_cons, ih, hcons, List.map_append]
    congr 1
    cases n with
    | declaration d =>
      obtain ⟨r, hr, rfl⟩ := Except.map_eq_ok_iff.mp hc
      have hname := (declaration_eq_ok hr).1
      by_cases hfor : d.kind = kind ∧ d.id.name = name
      · simp [valuesOf, entries, declarations, Declared.isFor, hfor, hr, hname, Except.toOption]
      · simp [valuesOf, entries, declarations, Declared.isFor, hfor, hname]
    | use u =>
      obtain ⟨path, -, rfl⟩ := Except.map_eq_ok_iff.mp hc
      rfl
    | schema body span => cases hc

variable {d : Declaration} {pre post : List Node}

theorem forall₂_call_around {cs : List Call} :
    List.Forall₂ (fun n c => ctx.call? n = .ok c) (pre ++ .declaration d :: post) cs ↔
      ∃ xs r ys, cs = xs ++ .enter ⟨d.kind, d.id.name, r, d.mergeable, some d.span⟩ :: ys ∧
        ctx.declaration d = .ok (d.id.name, r) ∧
        List.Forall₂ (fun n c => ctx.call? n = .ok c) pre xs ∧
        List.Forall₂ (fun n c => ctx.call? n = .ok c) post ys := by
  rw [forall₂_append_left_iff]
  constructor
  · rintro ⟨xs, ys, rfl, hxs, hys⟩
    obtain _ | ⟨hd, hys⟩ := hys
    obtain ⟨⟨name, r⟩, hr, rfl⟩ := Except.map_eq_ok_iff.mp hd
    obtain rfl : name = d.id.name := (declaration_eq_ok hr).1
    exact ⟨xs, r, _, rfl, hr, hxs, hys⟩
  · rintro ⟨xs, r, ys, rfl, hr, hxs, hys⟩
    exact ⟨xs, _, rfl, hxs, .cons (Except.map_eq_ok_iff.mpr ⟨_, hr, rfl⟩) hys⟩

/-- A schema with a declaration that does not merge compiles when it does with the declaration
in front, and those of its name that stand before it merge with each other. -/
theorem schema_around_iff (ctx : Context) (hm : d.mergeable = false) (pre post : List Node)
    (span span' : Span) :
    (∃ c, ctx.schema ⟨pre ++ .declaration d :: post, span⟩ = .ok c) ↔
      (∃ c, ctx.schema ⟨.declaration d :: (pre ++ post), span'⟩ = .ok c) ∧
      Agree d.kind (ctx.valuesOf d.kind d.id.name pre) := by
  simp only [schema_eq_ok_iff]
  constructor
  · rintro ⟨c, cs, hcs, haccepts, -⟩
    obtain ⟨xs, r, ys, rfl, hr, hxs, hys⟩ := forall₂_call_around.mp hcs
    obtain ⟨hfront, hagree⟩ := (accepts_around_iff (by exact hm)).mp haccepts
    rw [valuesOf_eq hxs]
    refine ⟨⟨_, _, ?_, hfront, rfl⟩, hagree⟩
    exact .cons (Except.map_eq_ok_iff.mpr ⟨_, hr, rfl⟩) (List.rel_append hxs hys)
  · rintro ⟨⟨c, cs, hcs, haccepts, -⟩, hagree⟩
    obtain ⟨xs, r, ys, rfl, hr, hxs, hys⟩ := (@forall₂_call_around ctx d [] _ _).mp hcs
    cases hxs
    obtain ⟨xs, ys, rfl, hxs, hys⟩ := forall₂_append_left_iff.mp hys
    rw [valuesOf_eq hxs] at hagree
    exact ⟨_, _, forall₂_call_around.mpr ⟨xs, r, ys, rfl, hr, hxs, hys⟩,
      (accepts_around_iff (by exact hm)).mpr ⟨haccepts, hagree⟩, rfl⟩

/-- Wherever it stands, its value stands for its name. -/
theorem get?_schema_around (hm : d.mergeable = false) {span : Span} {c : Config}
    (h : ctx.schema ⟨pre ++ .declaration d :: post, span⟩ = .ok c) :
    ∃ v, ctx.declaration d = .ok (d.id.name, v) ∧
      Entries.get? (c.sectionOf d.kind) d.id.name = some v := by
  obtain ⟨cs, hcs, haccepts, rfl⟩ := schema_eq_ok_iff.mp h
  obtain ⟨xs, r, ys, rfl, hr, -, -⟩ := forall₂_call_around.mp hcs
  exact ⟨r, hr, get?_around hm haccepts⟩

/-- **Where a declaration that does not merge may stand.**  Two places for it are as good as
each other when the declarations of its name before the one merge exactly if those before the
other do: the schema has a configuration for both places, in which the declaration has its own
value, or for none.  But if those before it do not merge with each other, the schema has no
configuration. -/
theorem schema_moved (ctx : Context) (d : Declaration) (hm : d.mergeable = false)
    (pre post pre' post' : List Node) (hmoved : pre ++ post = pre' ++ post') (span span' : Span) :
    ((Agree d.kind (ctx.valuesOf d.kind d.id.name pre) ↔
        Agree d.kind (ctx.valuesOf d.kind d.id.name pre')) →
      (∃ c c' v, ctx.schema ⟨pre ++ .declaration d :: post, span⟩ = .ok c ∧
        ctx.schema ⟨pre' ++ .declaration d :: post', span'⟩ = .ok c' ∧
        ctx.declaration d = .ok (d.id.name, v) ∧
        Entries.get? (c.sectionOf d.kind) d.id.name = some v ∧
        Entries.get? (c'.sectionOf d.kind) d.id.name = some v) ∨
      ∃ e e', ctx.schema ⟨pre ++ .declaration d :: post, span⟩ = .error e ∧
        ctx.schema ⟨pre' ++ .declaration d :: post', span'⟩ = .error e') ∧
    (¬ Agree d.kind (ctx.valuesOf d.kind d.id.name pre) →
      ∃ e, ctx.schema ⟨pre ++ .declaration d :: post, span⟩ = .error e) := by
  have hiff := schema_around_iff ctx hm pre post span span
  have hiff' := schema_around_iff ctx hm pre' post' span' span
  rw [← hmoved] at hiff'
  constructor
  · intro hagree
    rw [hagree, ← hiff'] at hiff
    cases h : ctx.schema ⟨pre ++ .declaration d :: post, span⟩ with
    | ok c =>
      obtain ⟨c', hc'⟩ := hiff.mp ⟨c, h⟩
      obtain ⟨v, hv, hget⟩ := get?_schema_around hm h
      obtain ⟨v', hv', hget'⟩ := get?_schema_around hm hc'
      rw [hv] at hv'
      cases hv'
      exact .inl ⟨c, c', v, rfl, hc', hv, hget, hget'⟩
    | error e =>
      cases h' : ctx.schema ⟨pre' ++ .declaration d :: post', span'⟩ with
      | ok c' =>
        obtain ⟨c, hc⟩ := hiff.mpr ⟨c', h'⟩
        rw [h] at hc
        cases hc
      | error e' => exact .inr ⟨e, e', rfl, rfl⟩
  · intro hagree
    cases h : ctx.schema ⟨pre ++ .declaration d :: post, span⟩ with
    | ok c => exact absurd (hiff.mp ⟨c, h⟩).2 hagree
    | error e => exact ⟨e, rfl⟩

theorem schema_moved_between :
    let enum (mergeable : Bool) (k v : String) : Declaration := ⟨.enum, mergeable, ⟨"A", default⟩,
      ⟨[(⟨k, default⟩, .literal (.string v) default)], default⟩, default⟩
    let first : Node := .declaration (enum true "X" "x")
    let second : Node := .declaration (enum true "X" "y")
    let fixed := enum false "Z" "z"
    let z : Value := .obj [("Z", .str "z")]
    fixed.mergeable = false ∧ [first] ++ [second] = [] ++ [first, second] ∧
      (∃ c c', schema ⟨[], none⟩ ⟨[first, .declaration fixed, second], default⟩ = .ok c ∧
        schema ⟨[], none⟩ ⟨[.declaration fixed, first, second], default⟩ = .ok c' ∧
        Entries.get? (c.sectionOf .enum) "A" = some z ∧
        Entries.get? (c'.sectionOf .enum) "A" = some z) ∧
      ∃ e, schema ⟨[], none⟩ ⟨[first, second, .declaration fixed], default⟩ = .error e := by
  intro enum first second fixed z
  have hone : Agree .enum (valuesOf ⟨[], none⟩ .enum "A" [first]) := .inr rfl
  have hnone : Agree .enum (valuesOf ⟨[], none⟩ .enum "A" []) := .inl rfl
  have htwo : ¬ Agree .enum (valuesOf ⟨[], none⟩ .enum "A" [first, second]) := by
    rintro (h | h) <;> cases h
  refine ⟨rfl, rfl, ?_, ?_⟩
  · have hmoved := (schema_moved ⟨[], none⟩ fixed rfl [first] [second] [] [first, second] rfl
      default default).1 (iff_of_true hone hnone)
    obtain ⟨c, c', v, hc, hc', hv, hget, hget'⟩ | ⟨e, e', he, -⟩ := hmoved
    · cases hv
      exact ⟨c, c', hc, hc', hget, hget'⟩
    · cases he
  · exact (schema_moved ⟨[], none⟩ fixed rfl [first, second] [] [] [first, second] rfl
      default default).2 htwo

/-- Behind declarations that contradict each other it comes too late. -/
theorem schema_moved_behind :
    let enum (mergeable : Bool) (k v : String) : Declaration := ⟨.enum, mergeable, ⟨"A", default⟩,
      ⟨[(⟨k, default⟩, .literal (.string v) default)], default⟩, default⟩
    let others : List Node := [.declaration (enum true "X" "x"), .declaration (enum true "X" "y")]
    let fixed := enum false "Z" "z"
    schema ⟨[], none⟩ ⟨others ++ [.declaration fixed], default⟩ =
        .error (.duplicate "A" (some default)) ∧
      schema ⟨[], none⟩ ⟨.declaration fixed :: others, default⟩ =
        .ok { Config.empty with enums := [("A", .obj [("Z", .str "z")])] } := by
  intro enum others fixed
  constructor
  · cbv
  · cbv

end Context

end SchemaLang
