import SchemaLang.Config.Resolve

/-!
# Inlining references

References are replaced in a value when it is known what each name stands for.  Nothing is
remembered here, and no names are open: what a name stands for is a parameter, so that the
walk over the value can be looked at by itself.  All there is to know about the walk is
which names it asks for: it depends on nothing but their values, fails exactly when one of
them fails, and then with the failure of that one.

## Main definitions

* `Value.strings`, `Value.columnedStrings`, `Target.strings` — where references may stand.
* `Target.references` — the names of the references there.
* `Value.inline`, `Value.inlineColumned`, `Target.inline` — replacing references.
* `Consults` — the names a computation asks for.

## Main results

* `Target.consults_inline` — replacing references asks for the references.
* `Target.consults_inlineEntries` — the same for a whole section.
-/

namespace Except

/-- A changed result comes from a result. -/
theorem map_eq_ok_iff {ε α β : Type} {f : α → β} {x : Except ε α} {b : β} :
    x.map f = .ok b ↔ ∃ a, x = .ok a ∧ f a = b := by
  constructor
  · intro h
    cases x with
    | error e => cases h
    | ok a => exact ⟨a, rfl, Except.ok.inj h⟩
  · rintro ⟨a, rfl, rfl⟩
    rfl

theorem map_eq_error_iff {ε α β : Type} {f : α → β} {x : Except ε α} {e : ε} :
    x.map f = .error e ↔ x = .error e := by
  cases x with
  | error e' => simp [Except.map]
  | ok a => simp [Except.map]

/-- A result in two steps has both of them. -/
theorem bind_eq_ok_iff {ε α β : Type} {x : Except ε α} {f : α → Except ε β} {b : β} :
    x.bind f = .ok b ↔ ∃ a, x = .ok a ∧ f a = .ok b := by
  cases x with
  | error e => simp [Except.bind]
  | ok a => simp [Except.bind]

theorem exists_of_toOption_map {ε α β : Type} {x : Except ε α} {g : α → β} {b : β}
    (h : x.toOption.map g = some b) : ∃ a, x = .ok a ∧ g a = b := by
  cases x with
  | error e => cases h
  | ok a => exact ⟨a, rfl, Option.some.inj h⟩

end Except

namespace SchemaLang

/-! ### Where references may stand -/

namespace Value

mutual

/-- The strings in a value at any depth, in order; names of members are none of them. -/
def strings : Value → List String
  | .str s => [s]
  | .arr xs => elementStrings xs
  | .obj ms => memberStrings ms
  | .null => []
  | .bool _ => []
  | .int _ => []
  | .float _ => []

/-- The strings in the elements of an array. -/
def elementStrings : List Value → List String
  | [] => []
  | x :: xs => strings x ++ elementStrings xs

/-- The strings in the members of an object. -/
def memberStrings : List (String × Value) → List String
  | [] => []
  | (_, v) :: ms => strings v ++ memberStrings ms

end

/-- The strings in the attributes of an object. -/
def attributeStrings (v : Value) : List String := (v.get? "attributes").elim [] strings

/-- The strings in the attributes of each column. -/
def columnStrings : Value → List String
  | .arr cs => cs.flatMap attributeStrings
  | _ => []

/-- The strings in the attributes of a type or a model, and in those of its columns. -/
def columnedStrings (v : Value) : List String :=
  v.attributeStrings ++ (v.get? "columns").elim [] columnStrings

end Value

namespace Target

/-- The strings that may be references. -/
def strings : Target → List String
  | .whole v => v.strings
  | .columned v => v.columnedStrings

/-- The names of the references. -/
def references (t : Target) : List String := t.strings.filterMap referenceName?

end Target

/-! ### Replacing references -/

namespace Entries

variable {α : Type}

/-- Changes what a name stands for, if it stands for something. -/
def changeAt (f : α → Except CompileError α) (key : String) (es : Entries α) :
    Except CompileError (Entries α) :=
  match get? es key with
  | some a => (f a).map (insert es key)
  | none => .ok es

theorem changeAt_cons_self (f : α → Except CompileError α) (key : String) (a : α) (es : Entries α) :
    changeAt f key ((key, a) :: es) = (f a).map fun b => (key, b) :: es := by
  simp only [changeAt, get?_cons, if_true]
  cases f a with
  | error e => rfl
  | ok b => simp [Except.map, insert]

theorem changeAt_cons_of_ne (f : α → Except CompileError α) {k key : String} (hk : k ≠ key) (a : α)
    (es : Entries α) : changeAt f key ((k, a) :: es) = (changeAt f key es).map ((k, a) :: ·) := by
  simp only [changeAt, get?_cons, if_neg hk]
  cases get? es key with
  | none => rfl
  | some a' =>
    cases hf : f a' with
    | error e => simp [Except.map, hf]
    | ok b => simp [Except.map, hf, insert, hk]

/-- Changing what one name stands for leaves the others. -/
theorem get?_of_changeAt {f : α → Except CompileError α} {key name : String} {es es' : Entries α}
    (h : changeAt f key es = .ok es') (hn : key ≠ name) : get? es' name = get? es name := by
  unfold changeAt at h
  cases hk : get? es key with
  | none =>
    rw [hk] at h
    cases h
    rfl
  | some a =>
    rw [hk] at h
    obtain ⟨b, -, rfl⟩ := Except.map_eq_ok_iff.mp h
    rw [get?_insert, if_neg hn]

end Entries

namespace Value

/-- Changes the member of an object with a name, if there is one. -/
def changeAt (f : Value → Except CompileError Value) (key : String) :
    Value → Except CompileError Value
  | .obj ms => (Entries.changeAt f key ms).map .obj
  | v => .ok v

theorem get?_of_changeAt {f : Value → Except CompileError Value} {key name : String} {v w : Value}
    (h : v.changeAt f key = .ok w) (hn : key ≠ name) : w.get? name = v.get? name := by
  cases v with
  | obj ms =>
    obtain ⟨ms', hms, rfl⟩ := Except.map_eq_ok_iff.mp h
    exact Entries.get?_of_changeAt hms hn
  | _ =>
    cases h
    rfl

variable (find : String → Except CompileError Value)

mutual

/-- Replaces every reference in a value; other strings are read as written out. -/
def inline : Value → Except CompileError Value
  | .str s =>
    match referenceName? s with
    | some name => find name
    | none => .ok (.str (unescape s))
  | .arr xs => (inlineElements xs).map .arr
  | .obj ms => (inlineMembers ms).map .obj
  | .null => .ok .null
  | .bool b => .ok (.bool b)
  | .int n => .ok (.int n)
  | .float x => .ok (.float x)

/-- Replaces every reference in the elements of an array. -/
def inlineElements : List Value → Except CompileError (List Value)
  | [] => .ok []
  | x :: xs => (inline x).bind fun y => (inlineElements xs).map (y :: ·)

/-- Replaces every reference in the members of an object. -/
def inlineMembers : List (String × Value) → Except CompileError (List (String × Value))
  | [] => .ok []
  | (k, v) :: ms => (inline v).bind fun w => (inlineMembers ms).map ((k, w) :: ·)

end

/-- Replaces every reference in the attributes of an object. -/
def inlineAttributes (v : Value) : Except CompileError Value :=
  v.changeAt (inline find) "attributes"

/-- Replaces every reference in the attributes of each column. -/
def inlineColumns : Value → Except CompileError Value
  | .arr cs => (cs.mapM (inlineAttributes find)).map .arr
  | v => .ok v

/-- Replaces every reference in the attributes of a type or a model, then in those of its
columns. -/
def inlineColumned (v : Value) : Except CompileError Value :=
  (v.inlineAttributes find).bind fun w => w.changeAt (inlineColumns find) "columns"

end Value

/-- Replaces every reference in what a name stands for. -/
def Target.inline (find : String → Except CompileError Value) : Target → Except CompileError Value
  | .whole v => v.inline find
  | .columned v => v.inlineColumned find

/-- Replaces every reference in the entries of a section. -/
def Target.inlineEntries (form : Value → Target) (find : String → Except CompileError Value)
    (es : Entries Value) : Except CompileError (Entries Value) :=
  es.mapM fun e => ((form e.2).inline find).map (e.1, ·)

/-- Replaces every reference in a configuration: in types, models, enums and plugins. -/
def Config.inline (find : String → Except CompileError Value) (c : Config) :
    Except CompileError FinalConfig :=
  (Target.inlineEntries .columned find c.types).bind fun types =>
  (Target.inlineEntries .columned find c.models).bind fun models =>
  (Target.inlineEntries .whole find c.enums).bind fun enums =>
  (Target.inlineEntries .whole find c.plugins).map fun plugins => ⟨plugins, enums, types, models⟩

/-! ### Asking for names -/

/-- A computation asks for the names in `names` and no others, each before it succeeds, and
passes on the first failure. -/
structure Consults {α : Type} (p : (String → Except CompileError Value) → Except CompileError α)
    (names : List String) : Prop where
  /-- The result depends on what these names stand for. -/
  congr : ∀ {f g}, (∀ n ∈ names, f n = g n) → p f = p g
  /-- Success means that all of them stand for something. -/
  found : ∀ {f a}, p f = .ok a → ∀ n ∈ names, ∃ v, f n = .ok v
  /-- A failure is the failure of one of them. -/
  failed : ∀ {f e}, p f = .error e → ∃ n ∈ names, f n = .error e

namespace Consults

variable {α β : Type} {p : (String → Except CompileError Value) → Except CompileError α}
  {names others : List String}

/-- Nothing is asked for a result that is there. -/
theorem of_ok (a : α) : Consults (fun _ => .ok a) [] where
  congr _ := rfl
  found _ _ hn := nomatch hn
  failed h := nomatch h

/-- A name alone. -/
theorem name (n : String) : Consults (fun find => find n) [n] where
  congr h := h n (List.mem_singleton_self n)
  found h m hm := by
    rw [List.mem_singleton.mp hm]
    exact ⟨_, h⟩
  failed h := ⟨n, List.mem_singleton_self n, h⟩

/-- One computation after the other.  The second one is only looked at where the first one
succeeds. -/
theorem bind {q : α → (String → Except CompileError Value) → Except CompileError β}
    (hp : Consults p names) (hq : ∀ f a, p f = .ok a → Consults (q a) others) :
    Consults (fun find => (p find).bind fun a => q a find) (names ++ others) where
  congr {f g} h := by
    have hpfg : p f = p g := hp.congr fun n hn => h n (List.mem_append_left _ hn)
    cases hg : p g with
    | error e => rw [hpfg, hg]; rfl
    | ok a =>
      have hqfg : q a f = q a g := (hq g a hg).congr fun n hn => h n (List.mem_append_right _ hn)
      rw [hpfg, hg]
      exact hqfg
  found {f b} h n hn := by
    cases hf : p f with
    | error e => rw [hf] at h; cases h
    | ok a =>
      rw [hf] at h
      rcases List.mem_append.mp hn with hn | hn
      · exact hp.found hf n hn
      · exact (hq f a hf).found h n hn
  failed {f e} h := by
    cases hf : p f with
    | error e' =>
      rw [hf] at h
      cases h
      obtain ⟨n, hn, hfn⟩ := hp.failed hf
      exact ⟨n, List.mem_append_left _ hn, hfn⟩
    | ok a =>
      rw [hf] at h
      obtain ⟨n, hn, hfn⟩ := (hq f a hf).failed h
      exact ⟨n, List.mem_append_right _ hn, hfn⟩

/-- Changing the result asks for nothing more. -/
theorem map (g : α → β) (hp : Consults p names) :
    Consults (fun find => (p find).map g) names := by
  have h := hp.bind (q := fun a _ => .ok (g a)) fun _ a _ => of_ok (g a)
  rw [List.append_nil] at h
  exact h

/-- The elements of a list one after the other. -/
theorem mapM {q : α → (String → Except CompileError Value) → Except CompileError β}
    {asked : α → List String} (hq : ∀ a, Consults (q a) (asked a)) (as : List α) :
    Consults (fun find => as.mapM fun a => q a find) (as.flatMap asked) := by
  induction as with
  | nil => exact of_ok []
  | cons a as ih =>
    simp only [List.mapM_cons, List.flatMap_cons]
    exact (hq a).bind fun _ b _ => ih.map (b :: ·)

/-- A computation succeeds exactly when all it asks for is there. -/
theorem ok_iff (hp : Consults p names) (find : String → Except CompileError Value) :
    (∃ a, p find = .ok a) ↔ ∀ n ∈ names, ∃ v, find n = .ok v := by
  constructor
  · rintro ⟨a, ha⟩
    exact hp.found ha
  · intro h
    cases hf : p find with
    | ok a => exact ⟨a, rfl⟩
    | error e =>
      obtain ⟨n, hn, he⟩ := hp.failed hf
      obtain ⟨v, hv⟩ := h n hn
      rw [hv] at he
      cases he

end Consults

/-! ### What replacing references asks for -/

namespace Value

mutual

theorem consults_inline : ∀ v : Value,
    Consults (fun find => v.inline find) (v.strings.filterMap referenceName?)
  | .str s => by
    simp only [inline, strings]
    cases hs : referenceName? s with
    | some n =>
      rw [List.filterMap_cons_some hs]
      exact Consults.name n
    | none =>
      rw [List.filterMap_cons_none hs]
      exact Consults.of_ok _
  | .arr xs => (consults_inlineElements xs).map Value.arr
  | .obj ms => (consults_inlineMembers ms).map Value.obj
  | .null => Consults.of_ok Value.null
  | .bool b => Consults.of_ok (Value.bool b)
  | .int n => Consults.of_ok (Value.int n)
  | .float x => Consults.of_ok (Value.float x)

theorem consults_inlineElements : ∀ xs : List Value,
    Consults (fun find => inlineElements find xs) ((elementStrings xs).filterMap referenceName?)
  | [] => Consults.of_ok []
  | x :: xs => by
    rw [elementStrings, List.filterMap_append]
    exact (consults_inline x).bind fun _ y _ => (consults_inlineElements xs).map (y :: ·)

theorem consults_inlineMembers : ∀ ms : List (String × Value),
    Consults (fun find => inlineMembers find ms) ((memberStrings ms).filterMap referenceName?)
  | [] => Consults.of_ok []
  | (k, v) :: ms => by
    rw [memberStrings, List.filterMap_append]
    exact (consults_inline v).bind fun _ w _ => (consults_inlineMembers ms).map ((k, w) :: ·)

end

/-- Changing a member asks for what its value asks for. -/
theorem consults_changeAt {f : Value → (String → Except CompileError Value) → Except CompileError Value}
    {positions : Value → List String}
    (hf : ∀ w, Consults (f w) ((positions w).filterMap referenceName?)) (key : String) (v : Value) :
    Consults (fun find => v.changeAt (fun w => f w find) key)
      (((v.get? key).elim [] positions).filterMap referenceName?) := by
  cases v with
  | obj ms =>
    refine Consults.map Value.obj ?_
    change Consults _ (((Entries.get? ms key).elim [] positions).filterMap referenceName?)
    unfold Entries.changeAt
    cases Entries.get? ms key with
    | none => exact Consults.of_ok ms
    | some w => exact (hf w).map (Entries.insert ms key)
  | _ => exact Consults.of_ok _

theorem consults_inlineAttributes (v : Value) :
    Consults (fun find => v.inlineAttributes find) (v.attributeStrings.filterMap referenceName?) :=
  consults_changeAt consults_inline "attributes" v

theorem consults_inlineColumns (v : Value) :
    Consults (fun find => v.inlineColumns find) (v.columnStrings.filterMap referenceName?) := by
  cases v with
  | arr cs =>
    rw [columnStrings, List.filterMap_flatMap]
    exact (Consults.mapM consults_inlineAttributes cs).map Value.arr
  | _ => exact Consults.of_ok _

theorem consults_inlineColumned (v : Value) :
    Consults (fun find => v.inlineColumned find) (v.columnedStrings.filterMap referenceName?) := by
  rw [columnedStrings, List.filterMap_append]
  refine (consults_inlineAttributes v).bind fun find w hw => ?_
  -- The columns are those from before: only the attributes have changed.
  rw [← get?_of_changeAt hw (by decide : "attributes" ≠ "columns")]
  exact consults_changeAt consults_inlineColumns "columns" w

end Value

namespace Target

/-- Replacing references asks for the references. -/
theorem consults_inline : ∀ t : Target, Consults (fun find => t.inline find) t.references
  | .whole v => v.consults_inline
  | .columned v => v.consults_inlineColumned

/-- The names of the references in the entries of a section. -/
def entryReferences (form : Value → Target) (es : Entries Value) : List String :=
  es.flatMap fun e => (form e.2).references

theorem consults_inlineEntries (form : Value → Target) (es : Entries Value) :
    Consults (fun find => inlineEntries form find es) (entryReferences form es) := by
  have h : ∀ e : String × Value,
      Consults (fun find => ((form e.2).inline find).map (e.1, ·)) (form e.2).references :=
    fun e => (consults_inline (form e.2)).map (e.1, ·)
  exact Consults.mapM h es

end Target

namespace Config

/-- The names of the references in types, models, enums and plugins. -/
def roots (c : Config) : List String :=
  Target.entryReferences .columned c.types ++ (Target.entryReferences .columned c.models ++
    (Target.entryReferences .whole c.enums ++ Target.entryReferences .whole c.plugins))

theorem consults_inline (c : Config) : Consults (fun find => c.inline find) c.roots :=
  (Target.consults_inlineEntries .columned c.types).bind fun _ _ _ =>
  (Target.consults_inlineEntries .columned c.models).bind fun _ _ _ =>
  (Target.consults_inlineEntries .whole c.enums).bind fun _ _ _ =>
  (Target.consults_inlineEntries .whole c.plugins).map _

end Config

end SchemaLang
