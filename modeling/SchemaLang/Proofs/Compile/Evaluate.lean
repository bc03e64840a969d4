import SchemaLang.Compile
import SchemaLang.Proofs.Reference
import SchemaLang.Proofs.Resolve.Memo

/-!
# Data comes out as it was written

Data becomes a value in two steps: first references become strings, and strings are written
out so that none of them looks like a reference; then references are replaced and strings are
read back.  Together the steps do what could be done at once: a string stands for itself, a
variable for its content, and a name for what it is resolved to.

In between, the strings that are read as references stand exactly where the names stood.  A
place in data or in a value is told by a path: at each step the number of an element, or of
a member.

## Main definitions

* `Data.identifiers` — the names that data refers to.
* `Data.evaluate` — the value of data in one step.
* `Data.at?`, `Value.at?` — what stands at a place.

## Main results

* `Context.inline_of_data` — the two steps come to the one.
* `Context.placeholder_at_iff` — where references stand in between.
* `Context.data_faithful` — **both, for what the resolver does.**
-/

namespace SchemaLang

/-- The value of a literal by itself.  A number that is not finite has none. -/
def Literal.value : Literal → Value
  | .string s => .str s
  | .integer n => .int n
  | .float x => if x.isFinite then .float x else .null
  | .boolean b => .bool b
  | .null => .null

namespace Data

mutual

/-- The names that data refers to, in order. -/
def identifiers : Data → List Ident
  | .literal _ _ => []
  | .environment _ _ => []
  | .object ps _ => propertyIdentifiers ps
  | .array es _ => elementIdentifiers es
  | .reference id => [id]

/-- The names that the elements of an array refer to. -/
def elementIdentifiers : List Data → List Ident
  | [] => []
  | e :: es => identifiers e ++ elementIdentifiers es

/-- The names that the values of an object refer to. -/
def propertyIdentifiers : List (Ident × Data) → List Ident
  | [] => []
  | (_, d) :: ps => identifiers d ++ propertyIdentifiers ps

end

variable (environment : Entries String) (resolved : String → Except CompileError Value)

mutual

/-- The value of data, where variables have the contents in `environment` and names stand for
what `resolved` says. -/
def evaluate : Data → Except CompileError Value
  | .literal l _ => .ok l.value
  | .environment name _ => .ok (.str ((Entries.get? environment name).getD ""))
  | .object ps _ => (evaluateProperties ps).map .obj
  | .array es _ => (evaluateElements es).map .arr
  | .reference id => resolved id.name

/-- The values of the elements of an array, in order. -/
def evaluateElements : List Data → Except CompileError (List Value)
  | [] => .ok []
  | e :: es => (evaluate e).bind fun v => (evaluateElements es).map (v :: ·)

/-- The members of an object, in order and under their names. -/
def evaluateProperties : List (Ident × Data) → Except CompileError (List (String × Value))
  | [] => .ok []
  | (k, d) :: ps => (evaluate d).bind fun v => (evaluateProperties ps).map ((k.name, v) :: ·)

end

end Data

/-! ### The first step -/

namespace Context

variable {ctx : Context}

theorem elements_cons_eq_ok {d : Data} {ds : List Data} {vs : List Value}
    (h : ctx.elements (d :: ds) = .ok vs) :
    ∃ v vs', ctx.data d = .ok v ∧ ctx.elements ds = .ok vs' ∧ vs = v :: vs' := by
  rw [elements] at h
  cases hd : ctx.data d with
  | error e =>
    rw [hd] at h
    cases h
  | ok v =>
    rw [hd] at h
    obtain ⟨vs', hds, rfl⟩ := Except.map_eq_ok_iff.mp h
    exact ⟨v, vs', rfl, hds, rfl⟩

theorem properties_cons_eq_ok {seen : List String} {k : Ident} {d : Data} {ps : List (Ident × Data)}
    {ms : List (String × Value)} (h : ctx.properties seen ((k, d) :: ps) = .ok ms) :
    ∃ v ms', ctx.data d = .ok v ∧ ctx.properties (k.name :: seen) ps = .ok ms' ∧
      ms = (k.name, v) :: ms' := by
  rw [properties] at h
  by_cases hseen : k.name ∈ seen
  · rw [if_pos hseen] at h
    cases h
  · rw [if_neg hseen] at h
    cases hd : ctx.data d with
    | error e =>
      rw [hd] at h
      cases h
    | ok v =>
      rw [hd] at h
      obtain ⟨ms', hps, rfl⟩ := Except.map_eq_ok_iff.mp h
      exact ⟨v, ms', rfl, hps, rfl⟩

theorem data_object_eq_ok {ps : List (Ident × Data)} {span : Span} {w : Value}
    (h : ctx.data (.object ps span) = .ok w) :
    ∃ ms, ctx.properties [] ps = .ok ms ∧ w = .obj ms := by
  rw [data] at h
  obtain ⟨ms, hms, rfl⟩ := Except.map_eq_ok_iff.mp h
  exact ⟨ms, hms, rfl⟩

theorem data_array_eq_ok {es : List Data} {span : Span} {w : Value}
    (h : ctx.data (.array es span) = .ok w) : ∃ vs, ctx.elements es = .ok vs ∧ w = .arr vs := by
  rw [data] at h
  obtain ⟨vs, hvs, rfl⟩ := Except.map_eq_ok_iff.mp h
  exact ⟨vs, hvs, rfl⟩

/-! ### The second step -/

/-- A string that was written out is read back. -/
theorem inline_escape (find : String → Except CompileError Value) (s : String) :
    (Value.str (escape s)).inline find = .ok (.str s) := by
  rw [Value.inline, referenceName?_escape, unescape_escape]

theorem inline_literal (find : String → Except CompileError Value) (l : Literal) :
    (literal l).inline find = .ok l.value := by
  cases l with
  | string s => exact inline_escape find s
  | integer n => rfl
  | float x =>
    rw [literal, Literal.value]
    by_cases hx : x.isFinite = true
    · rw [if_pos hx]
      rfl
    · rw [if_neg hx]
      rfl
  | boolean b => rfl
  | null => rfl

theorem inline_placeholder (find : String → Except CompileError Value) {name : String}
    (h : name ≠ "") : (Value.str (placeholder name)).inline find = find name := by
  rw [Value.inline, referenceName?_placeholder h]

variable {environment : Entries String} (find : String → Except CompileError Value)

mutual

/-- Replacing references in the value of data evaluates the data. -/
theorem inline_of_data : ∀ (t : Data) {w : Value}, (∀ id ∈ t.identifiers, id.name ≠ "") →
    data ⟨environment, none⟩ t = .ok w → w.inline find = t.evaluate environment find
  | .literal l _, w, _, h => by
    cases h
    exact inline_literal find l
  | .environment name _, w, _, h => by
    -- The content of a variable is written out just as a literal string is.
    cases h
    exact inline_escape find _
  | .object ps _, w, hn, h => by
    obtain ⟨ms, hms, rfl⟩ := data_object_eq_ok h
    rw [Value.inline, Data.evaluate, inline_of_properties ps hn hms]
  | .array es _, w, hn, h => by
    obtain ⟨vs, hvs, rfl⟩ := data_array_eq_ok h
    rw [Value.inline, Data.evaluate, inline_of_elements es hn hvs]
  | .reference id, w, hn, h => by
    cases h
    exact inline_placeholder find (hn id (List.mem_singleton_self id))

theorem inline_of_elements : ∀ (es : List Data) {vs : List Value},
    (∀ id ∈ Data.elementIdentifiers es, id.name ≠ "") →
    elements ⟨environment, none⟩ es = .ok vs →
    Value.inlineElements find vs = Data.evaluateElements environment find es
  | [], vs, _, h => by
    cases h
    rfl
  | e :: es, vs, hn, h => by
    obtain ⟨v, vs', hv, hvs', rfl⟩ := elements_cons_eq_ok h
    rw [Value.inlineElements, Data.evaluateElements,
      inline_of_data e (fun id hid => hn id (List.mem_append_left _ hid)) hv,
      inline_of_elements es (fun id hid => hn id (List.mem_append_right _ hid)) hvs']

theorem inline_of_properties : ∀ (ps : List (Ident × Data)) {seen : List String}
    {ms : List (String × Value)}, (∀ id ∈ Data.propertyIdentifiers ps, id.name ≠ "") →
    properties ⟨environment, none⟩ seen ps = .ok ms →
    Value.inlineMembers find ms = Data.evaluateProperties environment find ps
  | [], seen, ms, _, h => by
    cases h
    rfl
  | (k, d) :: ps, seen, ms, hn, h => by
    obtain ⟨v, ms', hv, hms', rfl⟩ := properties_cons_eq_ok h
    rw [Value.inlineMembers, Data.evaluateProperties,
      inline_of_data d (fun id hid => hn id (List.mem_append_left _ hid)) hv,
      inline_of_properties ps (fun id hid => hn id (List.mem_append_right _ hid)) hms']

end

end Context

/-! ### Places -/

namespace Value

/-- The element or the member with a number. -/
def child? : Value → Nat → Option Value
  | .arr xs, i => xs[i]?
  | .obj ms, i => ms[i]?.map (·.2)
  | _, _ => none

/-- What stands at a place. -/
def at? : Value → List Nat → Option Value
  | v, [] => some v
  | v, i :: path => (v.child? i).bind fun w => w.at? path

end Value

namespace Data

/-- The element or the value of the property with a number. -/
def child? : Data → Nat → Option Data
  | .array es _, i => es[i]?
  | .object ps _, i => ps[i]?.map (·.2)
  | _, _ => none

/-- What stands at a place. -/
def at? : Data → List Nat → Option Data
  | d, [] => some d
  | d, i :: path => (d.child? i).bind fun e => e.at? path

theorem identifiers_subset_elements : ∀ {es : List Data} {i : Nat} {d : Data}, es[i]? = some d →
    d.identifiers ⊆ elementIdentifiers es
  | e :: es, 0, d, h => by
    cases h
    exact List.subset_append_left _ _
  | e :: es, i + 1, d, h => by
    have hrest : d.identifiers ⊆ elementIdentifiers es := identifiers_subset_elements h
    exact List.subset_append_of_subset_right _ hrest

theorem identifiers_subset_properties : ∀ {ps : List (Ident × Data)} {i : Nat} {p : Ident × Data},
    ps[i]? = some p → p.2.identifiers ⊆ propertyIdentifiers ps
  | (k, e) :: ps, 0, p, h => by
    cases h
    exact List.subset_append_left _ _
  | (k, e) :: ps, i + 1, p, h => by
    have hrest : p.2.identifiers ⊆ propertyIdentifiers ps := identifiers_subset_properties h
    exact List.subset_append_of_subset_right _ hrest

/-- What a part refers to, the whole refers to. -/
theorem identifiers_subset_of_child? {t d : Data} {i : Nat} (h : t.child? i = some d) :
    d.identifiers ⊆ t.identifiers := by
  cases t with
  | array es span => exact identifiers_subset_elements h
  | object ps span =>
    obtain ⟨p, hp, rfl⟩ := Option.map_eq_some_iff.mp h
    exact identifiers_subset_properties hp
  | _ => cases h

end Data

namespace Context

variable {ctx : Context}

/-- The data and the value with the same number correspond. -/
theorem elements_getElem? : ∀ {es : List Data} {vs : List Value}, ctx.elements es = .ok vs →
    ∀ i : Nat, Option.Rel (fun d v => ctx.data d = .ok v) es[i]? vs[i]?
  | [], vs, h, i => by
    cases h
    exact .none
  | e :: es, vs, h, i => by
    obtain ⟨v, vs', hv, hvs', rfl⟩ := elements_cons_eq_ok h
    cases i with
    | zero => exact .some hv
    | succ i => exact elements_getElem? hvs' i

theorem properties_getElem? : ∀ {ps : List (Ident × Data)} {seen : List String}
    {ms : List (String × Value)}, ctx.properties seen ps = .ok ms →
    ∀ i : Nat, Option.Rel (fun d v => ctx.data d = .ok v) (ps[i]?.map (·.2)) (ms[i]?.map (·.2))
  | [], seen, ms, h, i => by
    cases h
    exact .none
  | (k, d) :: ps, seen, ms, h, i => by
    obtain ⟨v, ms', hv, hms', rfl⟩ := properties_cons_eq_ok h
    cases i with
    | zero => exact .some hv
    | succ i => exact properties_getElem? hms' i

/-- A literal has no parts. -/
theorem literal_child? (l : Literal) (i : Nat) : (literal l).child? i = none := by
  cases l with
  | float x =>
    rw [literal]
    by_cases hx : x.isFinite = true
    · rw [if_pos hx]
      rfl
    · rw [if_neg hx]
      rfl
  | _ => rfl

variable {environment : Entries String}

/-- The parts of data and of its value correspond. -/
theorem data_child? {t : Data} {w : Value} (h : data ⟨environment, none⟩ t = .ok w) (i : Nat) :
    Option.Rel (fun d v => data ⟨environment, none⟩ d = .ok v) (t.child? i) (w.child? i) := by
  cases t with
  | literal l span =>
    cases h
    rw [literal_child?]
    exact .none
  | environment name span =>
    cases h
    exact .none
  | object ps span =>
    obtain ⟨ms, hms, rfl⟩ := data_object_eq_ok h
    exact properties_getElem? hms i
  | array es span =>
    obtain ⟨vs, hvs, rfl⟩ := data_array_eq_ok h
    exact elements_getElem? hvs i
  | reference id =>
    cases h
    exact .none

/-- The value of a literal is never read as a reference. -/
theorem referenceName?_of_literal {l : Literal} {s : String} (h : literal l = .str s) :
    referenceName? s = none := by
  cases l with
  | string s' =>
    cases h
    exact referenceName?_escape s'
  | float x =>
    rw [literal] at h
    by_cases hx : x.isFinite = true
    · rw [if_pos hx] at h
      cases h
    · rw [if_neg hx] at h
      cases h
  | _ => cases h

/-- The value of data is read as a reference exactly when the data is one. -/
theorem placeholder_iff {t : Data} {w : Value} (h : data ⟨environment, none⟩ t = .ok w)
    (hn : ∀ id ∈ t.identifiers, id.name ≠ "") (n : String) :
    (∃ s, w = .str s ∧ referenceName? s = some n) ↔ ∃ id, t = .reference id ∧ id.name = n := by
  constructor
  · rintro ⟨s, rfl, hs⟩
    cases t with
    | literal l span =>
      rw [referenceName?_of_literal (Except.ok.inj h)] at hs
      cases hs
    | environment name span =>
      cases h
      rw [referenceName?_escape] at hs
      cases hs
    | object ps span =>
      obtain ⟨ms, -, hms⟩ := data_object_eq_ok h
      cases hms
    | array es span =>
      obtain ⟨vs, -, hvs⟩ := data_array_eq_ok h
      cases hvs
    | reference id =>
      cases h
      rw [referenceName?_placeholder (hn id (List.mem_singleton_self id))] at hs
      exact ⟨id, rfl, Option.some.inj hs⟩
  · rintro ⟨id, rfl, rfl⟩
    cases h
    exact ⟨_, rfl, referenceName?_placeholder (hn id (List.mem_singleton_self id))⟩

/-- The strings that are read as references stand where the names stood. -/
theorem placeholder_at_iff (path : List Nat) {t : Data} {w : Value}
    (h : data ⟨environment, none⟩ t = .ok w) (hn : ∀ id ∈ t.identifiers, id.name ≠ "")
    (n : String) :
    (∃ s, w.at? path = some (.str s) ∧ referenceName? s = some n) ↔
      ∃ id, t.at? path = some (.reference id) ∧ id.name = n := by
  -- Along the path data and value stay in step, so only the end of it matters.
  induction path generalizing t w with
  | nil =>
    simp only [Value.at?, Data.at?, Option.some.injEq]
    exact placeholder_iff h hn n
  | cons i path ih =>
    rw [Value.at?, Data.at?]
    have hchild := data_child? h i
    cases hd : t.child? i with
    | none =>
      rw [hd] at hchild
      cases hw : w.child? i with
      | none => simp
      | some v =>
        rw [hw] at hchild
        cases hchild
    | some d =>
      rw [hd] at hchild
      cases hw : w.child? i with
      | none =>
        rw [hw] at hchild
        cases hchild
      | some v =>
        rw [hw] at hchild
        cases hchild with
        | some hv =>
          have hsub : d.identifiers ⊆ t.identifiers := Data.identifiers_subset_of_child? hd
          exact ih hv fun id hid => hn id (hsub hid)

/-- **Data comes out as it was written.**  When the value of data is resolved, at whatever
time, the result or the error is that of evaluating the data; and until then a string is read
as a reference exactly where the data has a name. -/
theorem data_faithful (c : Config) (environment : Entries String) (t : Data) (w : Value)
    (hn : ∀ id ∈ t.identifiers, id.name ≠ "") (h : data ⟨environment, none⟩ t = .ok w) :
    (∀ memo, c.Reached memo →
      (w.substitute c.resolveName memo).map (·.1) = t.evaluate environment c.resolved) ∧
    ∀ path n, (∃ s, w.at? path = some (.str s) ∧ referenceName? s = some n) ↔
      ∃ id, t.at? path = some (.reference id) ∧ id.name = n := by
  refine ⟨fun memo hmemo => ?_, fun path n => placeholder_at_iff path h hn n⟩
  rw [c.resolved_eq_plain, ← inline_of_data (c.plain []) t hn h]
  exact (c.follows_substitute (.whole w)).result hmemo.remembers

/-- Strings and variables that look like references come out as they were, next to a name
whose value was written out likewise. -/
theorem data_faithful_dollars :
    let c : Config := { Config.empty with props := [("X", .str "$$\x7bY\x7d")] }
    let contents : Entries String := [("HOME", "$$\x7bX\x7d")]
    let t : Data := .array [.literal (.string "$\x7bX\x7d") default, .environment "HOME" default,
      .object [(⟨"k", default⟩, .reference ⟨"X", default⟩)] default] default
    let w : Value := .arr [.str "$$\x7bX\x7d", .str "$$$\x7bX\x7d",
      .obj [("k", .str "$\x7bX\x7d")]]
    (∀ id ∈ t.identifiers, id.name ≠ "") ∧ data ⟨contents, none⟩ t = .ok w ∧
      (w.substitute c.resolveName []).map (·.1) = .ok (.arr [.str "$\x7bX\x7d",
        .str "$$\x7bX\x7d", .obj [("k", .str "$\x7bY\x7d")]]) := by
  intro c contents t w
  have hn : ∀ id ∈ t.identifiers, id.name ≠ "" := by decide
  have h : data ⟨contents, none⟩ t = .ok w := by cbv
  refine ⟨hn, h, ?_⟩
  rw [(data_faithful c contents t w hn h).1 [] c.reached_nil]
  cbv

end Context

end SchemaLang
