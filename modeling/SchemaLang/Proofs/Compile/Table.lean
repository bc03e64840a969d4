import SchemaLang.Proofs.Compile.Repeats

/-!
# References by a table

There are two ways to compile data that refers to names.  Without a table, each name becomes a
string that is read as a reference.  With a table, each name becomes what the table has for it,
at once, and a name that it does not have is an error.

The two agree: what comes of the second way is what comes of the first once the strings that are
read as references are replaced.  Strings that were written out are never read so, at whatever
depth, and what the table has is put in as it is.  If both ways fail at a repeated name, it is the
same one, and the second may fail before at a name that the table does not have.

## Main definitions

* `Value.fill` — a value with its references replaced by what a table has.
* `Entries.Covers` — a table has all names that some strings refer to.
* `Context.Tabled` — two results, with a table and without it, agree.

## Main results

* `Context.tabled_data` — the two ways agree on data.
* `Context.data_tabled_iff` — **what comes of data with a table.**
-/

namespace SchemaLang

namespace Value

variable (table : Entries Value)

mutual

/-- A value in which each string that is read as a reference is replaced by what the table has
for its name.  All other strings stay, and nothing is replaced in what is put in. -/
def fill : Value → Value
  | .str s => ((referenceName? s).bind (Entries.get? table)).getD (.str s)
  | .arr xs => .arr (fillElements xs)
  | .obj ms => .obj (fillMembers ms)
  | .null => .null
  | .bool b => .bool b
  | .int n => .int n
  | .float x => .float x

/-- Elements with their references replaced. -/
def fillElements : List Value → List Value
  | [] => []
  | x :: xs => fill x :: fillElements xs

/-- Members with their references replaced. -/
def fillMembers : List (String × Value) → List (String × Value)
  | [] => []
  | (k, v) :: ms => (k, fill v) :: fillMembers ms

end

end Value

/-- Every name that one of the strings refers to is in the table. -/
def Entries.Covers (table : Entries Value) (strings : List String) : Prop :=
  ∀ s ∈ strings, ∀ n, referenceName? s = some n → n ∈ keys table

theorem Entries.covers_append {table : Entries Value} {ss ts : List String} :
    table.Covers (ss ++ ts) ↔ table.Covers ss ∧ table.Covers ts :=
  List.forall_mem_append

namespace Context

/-- Two results agree, `x` with a table and `y` without it.  Here `strings` are the strings in a
result, `fill` replaces references in it, and `ids` are the names that were referred to. -/
structure Tabled {α : Type} (table : Entries Value) (ids : List Ident) (strings : α → List String)
    (fill : α → α) (x y : Except CompileError α) : Prop where
  /-- Success without the table, if it has all names, is success with it. -/
  filled : ∀ w, y = .ok w → table.Covers (strings w) → x = .ok (fill w)
  /-- Success with the table is success without it, and the table has all names. -/
  covered : ∀ v, x = .ok v → ∃ w, y = .ok w ∧ table.Covers (strings w)
  /-- A failure with the table is one without it, or a name that the table does not have. -/
  failed : ∀ e, x = .error e → y = .error e ∨
    ∃ id ∈ ids, id.name ∉ Entries.keys table ∧ e = .unknownReference id.name (some id.span)

namespace Tabled

variable {α β γ : Type} {table : Entries Value} {ids ids' : List Ident}
  {strings : α → List String} {fill : α → α} {strings' : β → List String} {fill' : β → β}
  {x y : Except CompileError α} {x' y' : Except CompileError β}

/-- A result without references is the same both ways. -/
theorem of_ok {a : α} (hnone : ∀ s ∈ strings a, referenceName? s = none) (hfill : fill a = a) :
    Tabled table ids strings fill (.ok a) (.ok a) where
  filled w hw _ := by
    cases hw
    rw [hfill]
  covered v hv := by
    refine ⟨a, rfl, fun s hs n hn => ?_⟩
    rw [hnone s hs] at hn
    cases hn
  failed e he := nomatch he

theorem of_error (e : CompileError) : Tabled table ids strings fill (.error e) (.error e) where
  filled _ hw _ := nomatch hw
  covered _ hv := nomatch hv
  failed _ he := .inl he

theorem map (h : Tabled table ids strings fill x y) {g : α → β}
    (hstrings : ∀ a, strings' (g a) = strings a) (hfill : ∀ a, fill' (g a) = g (fill a)) :
    Tabled table ids strings' fill' (x.map g) (y.map g) where
  filled w hw hcovers := by
    obtain ⟨a, ha, rfl⟩ := Except.map_eq_ok_iff.mp hw
    rw [h.filled a ha (by rwa [hstrings] at hcovers), hfill]
    rfl
  covered v hv := by
    obtain ⟨a, ha, -⟩ := Except.map_eq_ok_iff.mp hv
    obtain ⟨b, hb, hcovers⟩ := h.covered a ha
    exact ⟨g b, Except.map_eq_ok_iff.mpr ⟨b, hb, rfl⟩, by rwa [hstrings]⟩
  failed e he := by
    rw [Except.map_eq_error_iff] at he ⊢
    exact h.failed e he

/-- One result and then another, put together. -/
theorem both (h : Tabled table ids strings fill x y) (h' : Tabled table ids' strings' fill' x' y')
    {c : α → β → γ} {strings'' : γ → List String} {fill'' : γ → γ}
    (hstrings : ∀ a b, strings'' (c a b) = strings a ++ strings' b)
    (hfill : ∀ a b, fill'' (c a b) = c (fill a) (fill' b)) :
    Tabled table (ids ++ ids') strings'' fill'' (x.bind fun a => x'.map (c a))
      (y.bind fun a => y'.map (c a)) where
  filled w hw hcovers := by
    obtain ⟨a, ha, hw⟩ := Except.bind_eq_ok_iff.mp hw
    obtain ⟨b, hb, rfl⟩ := Except.map_eq_ok_iff.mp hw
    rw [hstrings, Entries.covers_append] at hcovers
    rw [h.filled a ha hcovers.1, h'.filled b hb hcovers.2, hfill]
    rfl
  covered v hv := by
    obtain ⟨a, ha, hv⟩ := Except.bind_eq_ok_iff.mp hv
    obtain ⟨b, hb, -⟩ := Except.map_eq_ok_iff.mp hv
    obtain ⟨a', ha', hcovers⟩ := h.covered a ha
    obtain ⟨b', hb', hcovers'⟩ := h'.covered b hb
    refine ⟨c a' b', by rw [ha', hb']; rfl, ?_⟩
    rw [hstrings, Entries.covers_append]
    exact ⟨hcovers, hcovers'⟩
  failed e he := by
    cases hx : x with
    | error e' =>
      rw [hx] at he
      cases he
      rcases h.failed e hx with hy | ⟨id, hid, hunknown⟩
      · exact .inl (by rw [hy]; rfl)
      · exact .inr ⟨id, List.mem_append_left _ hid, hunknown⟩
    | ok a =>
      -- The first part succeeds without the table too, so that the second part decides.
      obtain ⟨a', ha', -⟩ := h.covered a hx
      rw [hx] at he
      rcases h'.failed e (Except.map_eq_error_iff.mp he) with hy | ⟨id, hid, hunknown⟩
      · exact .inl (by rw [ha', hy]; rfl)
      · exact .inr ⟨id, List.mem_append_right _ hid, hunknown⟩

end Tabled

variable (environment : Entries String) (table : Entries Value)

theorem tabled_literal (l : Literal) :
    Tabled table [] Value.strings (Value.fill table) (.ok (literal l)) (.ok (literal l)) := by
  cases l with
  | string s =>
    refine .of_ok ?_ ?_
    · rw [literal, Value.strings, List.forall_mem_singleton]
      exact referenceName?_escape s
    · rw [literal, Value.fill, referenceName?_escape]
      rfl
  | float x =>
    rw [literal]
    by_cases hx : x.isFinite
    · rw [if_pos hx]
      exact .of_ok (by simp [Value.strings]) rfl
    · rw [if_neg hx]
      exact .of_ok (by simp [Value.strings]) rfl
  | _ => exact .of_ok (by simp [literal, Value.strings]) rfl

/-- A name becomes what the table has, or the string that stands for it. -/
theorem tabled_reference {id : Ident} (h : id.name ≠ "") :
    Tabled table [id] Value.strings (Value.fill table) (reference ⟨environment, some table⟩ id)
      (reference ⟨environment, none⟩ id) := by
  have hname := referenceName?_placeholder h
  have hcovers : table.Covers (Value.str (placeholder id.name)).strings ↔
      id.name ∈ Entries.keys table := by
    rw [Entries.Covers, Value.strings, List.forall_mem_singleton, hname]
    simp
  have hfill : (Value.str (placeholder id.name)).fill table =
      (Entries.get? table id.name).getD (.str (placeholder id.name)) := by
    rw [Value.fill, hname]
    rfl
  rw [reference, reference]
  -- All three parts come down to whether the table has the name.
  cases hv : Entries.get? table id.name with
  | some v =>
    simp only [hv]
    have hmem : id.name ∈ Entries.keys table := Entries.mem_keys_of_get? hv
    exact {
      filled := fun w hw _ => by
        cases hw
        rw [hfill, hv]
        rfl
      covered := fun _ _ => ⟨_, rfl, hcovers.mpr hmem⟩
      failed := fun e he => by cases he }
  | none =>
    simp only [hv]
    have hmem : id.name ∉ Entries.keys table := Entries.get?_eq_none_iff.mp hv
    exact {
      filled := fun w hw hw' => by
        cases hw
        exact absurd (hcovers.mp hw') hmem
      covered := fun v hv => by cases hv
      failed := fun e he => by
        cases he
        exact .inr ⟨id, List.mem_singleton_self id, hmem, rfl⟩ }

mutual

/-- Compiling data with a table and without it agree. -/
theorem tabled_data : ∀ t : Data, (∀ id ∈ t.identifiers, id.name ≠ "") →
    Tabled table t.identifiers Value.strings (Value.fill table)
      (data ⟨environment, some table⟩ t) (data ⟨environment, none⟩ t)
  | .literal l _, _ => tabled_literal table l
  | .environment name _, _ => tabled_literal table (.string ((Entries.get? environment name).getD ""))
  | .object ps _, hn => by
    rw [data, data]
    exact (tabled_properties ps [] hn).map (fun _ => rfl) fun _ => rfl
  | .array es _, hn => by
    rw [data, data]
    exact (tabled_elements es hn).map (fun _ => rfl) fun _ => rfl
  | .reference id, hn => by
    rw [data, data]
    exact tabled_reference environment table (hn id (List.mem_singleton_self id))

theorem tabled_elements : ∀ es : List Data, (∀ id ∈ Data.elementIdentifiers es, id.name ≠ "") →
    Tabled table (Data.elementIdentifiers es) Value.elementStrings (Value.fillElements table)
      (elements ⟨environment, some table⟩ es) (elements ⟨environment, none⟩ es)
  | [], _ => .of_ok (by simp [Value.elementStrings]) rfl
  | e :: es, hn => by
    rw [elements_cons, elements_cons]
    have hfirst := tabled_data e fun id hid => hn id (List.mem_append_left _ hid)
    have hrest := tabled_elements es fun id hid => hn id (List.mem_append_right _ hid)
    exact hfirst.both hrest (fun _ _ => rfl) fun _ _ => rfl

theorem tabled_properties : ∀ (ps : List (Ident × Data)) (seen : List String),
    (∀ id ∈ Data.propertyIdentifiers ps, id.name ≠ "") →
    Tabled table (Data.propertyIdentifiers ps) Value.memberStrings (Value.fillMembers table)
      (properties ⟨environment, some table⟩ seen ps) (properties ⟨environment, none⟩ seen ps)
  | [], _, _ => .of_ok (by simp [Value.memberStrings]) rfl
  | (k, d) :: ps, seen, hn => by
    rw [properties_cons, properties_cons]
    by_cases hseen : k.name ∈ seen
    · -- Both ways stop at the key, before its value is looked at.
      rw [if_pos hseen, if_pos hseen]
      exact .of_error _
    · rw [if_neg hseen, if_neg hseen]
      have hfirst := tabled_data d fun id hid => hn id (List.mem_append_left _ hid)
      have hrest := tabled_properties ps (k.name :: seen) fun id hid =>
        hn id (List.mem_append_right _ hid)
      exact hfirst.both hrest (fun _ _ => rfl) fun _ _ => rfl

end

/-- **What comes of data with a table.**  Data compiles with a table exactly if it compiles without
it to a value in which all strings that are read as references have their names in the table, and
then to that value with these strings replaced.  If it does not, either a name stands twice, and
without the table the error is the same, or the data refers to a name that the table does not
have. -/
theorem data_tabled_iff (t : Data) (hn : ∀ id ∈ t.identifiers, id.name ≠ "") :
    (∀ v, data ⟨environment, some table⟩ t = .ok v ↔
      ∃ w, data ⟨environment, none⟩ t = .ok w ∧
        (∀ s ∈ w.strings, ∀ n, referenceName? s = some n → n ∈ Entries.keys table) ∧
        v = w.fill table) ∧
    ∀ e, data ⟨environment, some table⟩ t = .error e →
      (∃ key, e = duplicate key ∧ data ⟨environment, none⟩ t = .error e) ∨
      ∃ id ∈ t.identifiers, id.name ∉ Entries.keys table ∧
        e = .unknownReference id.name (some id.span) := by
  have htabled := tabled_data environment table t hn
  refine ⟨fun v => ⟨fun hv => ?_, ?_⟩, fun e he => ?_⟩
  · obtain ⟨w, hw, hcovers⟩ := htabled.covered v hv
    have hfilled := htabled.filled w hw hcovers
    rw [hv] at hfilled
    exact ⟨w, hw, hcovers, Except.ok.inj hfilled⟩
  · rintro ⟨w, hw, hcovers, rfl⟩
    exact htabled.filled w hw hcovers
  · rcases htabled.failed e he with hsame | hunknown
    · -- Without the table nothing but a repeated name fails.
      have hconflict := onlyConflicts_data environment t e hsame
      obtain ⟨key, -, hkey⟩ := (walks_data environment t).error e hsame hconflict
      exact .inl ⟨key, hkey, hsame⟩
    · exact .inr hunknown

/-- What the table has looks like a reference itself and stays, and so do a string and a variable
that look like references to its name.  Without that name the table is not enough. -/
theorem data_tabled_iff_dollars :
    let table : Entries Value := [("X", .str "$\x7bY\x7d")]
    let contents : Entries String := [("HOME", "$$\x7bX\x7d")]
    let t : Data := .array [.literal (.string "$\x7bX\x7d") default, .environment "HOME" default,
      .object [(⟨"k", default⟩, .reference ⟨"X", default⟩)] default] default
    (∀ id ∈ t.identifiers, id.name ≠ "") ∧
      data ⟨contents, some table⟩ t = .ok (.arr [.str "$$\x7bX\x7d", .str "$$$\x7bX\x7d",
        .obj [("k", .str "$\x7bY\x7d")]]) ∧
      ∀ v, data ⟨contents, some []⟩ t ≠ .ok v := by
  intro table contents t
  have hn : ∀ id ∈ t.identifiers, id.name ≠ "" := by decide
  have hcovers : ∀ s ∈ ["$$\x7bX\x7d", "$$$\x7bX\x7d", "$\x7bX\x7d"],
      ∀ n ∈ referenceName? s, n ∈ ["X"] := by
    decide
  have hw : data ⟨contents, none⟩ t = .ok (.arr [.str "$$\x7bX\x7d", .str "$$$\x7bX\x7d",
      .obj [("k", .str "$\x7bX\x7d")]]) := by cbv
  refine ⟨hn, ((data_tabled_iff contents table t hn).1 _).mpr ⟨_, hw, hcovers, ?_⟩, fun v hv => ?_⟩
  · cbv
  · obtain ⟨w, hw', hnone, -⟩ := ((data_tabled_iff contents [] t hn).1 v).mp hv
    cases hw.symm.trans hw'
    have hmem := hnone "$\x7bX\x7d" (by decide) "X" (by decide)
    cases hmem

end Context

end SchemaLang
