import SchemaLang.Proofs.Compile.Failure

/-!
# Names that stand twice

A walk through data comes by its keys from left to right, by each key before it enters the
value.  The first key that stands before in the same object is the error, wherever it is; if
there is none, the value has the outline of the data.  A type or a model is walked through in
the same way: first its attributes, then its columns, each column's name before its attributes.

## Main definitions

* `Visit`, `Visit.firstRepeat` — keys a walk comes by, and the first one that is repeated.
* `Data.visits`, `Declaration.visits` — the walks.
* `Data.Repeats`, `Declaration.Repeats` — somewhere a name stands twice.
* `Outline` — objects with their keys and arrays with their lengths, and nothing else.

## Main results

* `Data.fresh_visits_iff`, `Declaration.fresh_visits_iff` — the walk finds what is repeated.
* `Context.walks_data`, `Context.walks_columned` — compiling walks.
* `Context.repeats_exact` — **what repeated names do, in data and in declarations.**
-/

namespace SchemaLang

/-! ### Walks -/

/-- A key that a walk comes by, with the names that stand before it in the same object. -/
structure Visit where
  /-- The key. -/
  key : Ident
  /-- The names before it. -/
  before : List String

namespace Visit

/-- No key stands before in its object. -/
def Fresh (vs : List Visit) : Prop := ∀ v ∈ vs, v.key.name ∉ v.before

/-- The first key that stands before in its object. -/
def firstRepeat (vs : List Visit) : Option Ident :=
  (vs.find? fun v => v.key.name ∈ v.before).map (·.key)

/-- A walk through an object in which the names in `before` stand before: by each key, then by
what is visited within its value. -/
def inOrder (before : List String) : List (Ident × List Visit) → List Visit
  | [] => []
  | (key, inner) :: rest => ⟨key, before⟩ :: (inner ++ inOrder (key.name :: before) rest)

theorem fresh_nil : Fresh [] := by
  intro v hv
  cases hv

theorem fresh_append {vs ws : List Visit} : Fresh (vs ++ ws) ↔ Fresh vs ∧ Fresh ws :=
  List.forall_mem_append

theorem fresh_cons {v : Visit} {vs : List Visit} :
    Fresh (v :: vs) ↔ v.key.name ∉ v.before ∧ Fresh vs :=
  List.forall_mem_cons

theorem firstRepeat_eq_none_iff {vs : List Visit} : firstRepeat vs = none ↔ Fresh vs := by
  simp [firstRepeat, Fresh]

theorem firstRepeat_append (vs ws : List Visit) :
    firstRepeat (vs ++ ws) = (firstRepeat vs).or (firstRepeat ws) := by
  rw [firstRepeat, List.find?_append, Option.map_or]
  rfl

/-- Nothing is repeated when the names are distinct, none of them stands before, and nothing is
repeated within. -/
theorem fresh_inOrder_iff {before : List String} {rs : List (Ident × List Visit)} :
    Fresh (inOrder before rs) ↔ (rs.map (·.1.name)).Nodup ∧ (∀ r ∈ rs, r.1.name ∉ before) ∧
      ∀ r ∈ rs, Fresh r.2 := by
  induction rs generalizing before with
  | nil => simp [inOrder, fresh_nil]
  | cons r rs ih =>
    obtain ⟨key, inner⟩ := r
    rw [inOrder, fresh_cons, fresh_append, ih, List.map_cons, List.nodup_cons,
      List.forall_mem_cons, List.forall_mem_cons]
    simp only [List.mem_cons, not_or, List.mem_map, not_exists, not_and]
    constructor
    · rintro ⟨hkey, hinner, hnodup, hbefore, hrest⟩
      exact ⟨⟨fun r hr => (hbefore r hr).1, hnodup⟩, ⟨hkey, fun r hr => (hbefore r hr).2⟩,
        hinner, hrest⟩
    · rintro ⟨⟨hnew, hnodup⟩, ⟨hkey, hbefore⟩, hinner, hrest⟩
      exact ⟨hkey, hinner, hnodup, fun r hr => ⟨hnew r hr, hbefore r hr⟩, hrest⟩

end Visit

open Visit

namespace Data

mutual

/-- The keys in data, in the order of a walk. -/
def visits : Data → List Visit
  | .literal _ _ => []
  | .environment _ _ => []
  | .object ps _ => inOrder [] (propertyVisits ps)
  | .array es _ => elementVisits es
  | .reference _ => []

/-- The keys in the elements of an array. -/
def elementVisits : List Data → List Visit
  | [] => []
  | e :: es => visits e ++ elementVisits es

/-- The keys of an object, each with those in its value. -/
def propertyVisits : List (Ident × Data) → List (Ident × List Visit)
  | [] => []
  | (k, d) :: ps => (k, visits d) :: propertyVisits ps

end

/-- In some object at some depth a name stands twice. -/
def Repeats (t : Data) : Prop :=
  ∃ path ps span, t.at? path = some (.object ps span) ∧ ¬ (ps.map (·.1.name)).Nodup

theorem elementVisits_eq_flatMap (es : List Data) : elementVisits es = es.flatMap visits := by
  induction es with
  | nil => rfl
  | cons e es ih => rw [elementVisits, ih, List.flatMap_cons]

theorem propertyVisits_eq_map (ps : List (Ident × Data)) :
    propertyVisits ps = ps.map fun p => (p.1, p.2.visits) := by
  induction ps with
  | nil => rfl
  | cons p ps ih =>
    obtain ⟨k, d⟩ := p
    rw [propertyVisits, ih, List.map_cons]

/-- A name is repeated in the object that data is, or in one of its parts. -/
theorem repeats_iff_child {t : Data} : t.Repeats ↔
    (∃ ps span, t = .object ps span ∧ ¬ (ps.map (·.1.name)).Nodup) ∨
      ∃ i d, t.child? i = some d ∧ d.Repeats := by
  constructor
  · rintro ⟨path, ps, span, hat, hnodup⟩
    cases path with
    | nil => exact .inl ⟨ps, span, Option.some.inj hat, hnodup⟩
    | cons i path =>
      obtain ⟨d, hd, hat⟩ := Option.bind_eq_some_iff.mp hat
      exact .inr ⟨i, d, hd, path, ps, span, hat, hnodup⟩
  · rintro (⟨ps, span, rfl, hnodup⟩ | ⟨i, d, hd, path, ps, span, hat, hnodup⟩)
    · exact ⟨[], ps, span, rfl, hnodup⟩
    · exact ⟨i :: path, ps, span, Option.bind_eq_some_iff.mpr ⟨d, hd, hat⟩, hnodup⟩

theorem repeats_object_iff {ps : List (Ident × Data)} {span : Span} :
    (object ps span).Repeats ↔ ¬ (ps.map (·.1.name)).Nodup ∨ ∃ p ∈ ps, p.2.Repeats := by
  rw [repeats_iff_child]
  refine or_congr ⟨?_, fun h => ⟨ps, span, rfl, h⟩⟩ ⟨?_, ?_⟩
  · rintro ⟨_, _, heq, h⟩
    cases heq
    exact h
  · rintro ⟨i, d, hd, h⟩
    obtain ⟨p, hp, rfl⟩ := Option.map_eq_some_iff.mp hd
    exact ⟨p, List.mem_of_getElem? hp, h⟩
  · rintro ⟨p, hp, h⟩
    obtain ⟨i, hi⟩ := List.mem_iff_getElem?.mp hp
    exact ⟨i, p.2, Option.map_eq_some_iff.mpr ⟨p, hi, rfl⟩, h⟩

theorem repeats_array_iff {es : List Data} {span : Span} :
    (array es span).Repeats ↔ ∃ e ∈ es, e.Repeats := by
  rw [repeats_iff_child]
  constructor
  · rintro (⟨_, _, heq, -⟩ | ⟨i, d, hd, h⟩)
    · cases heq
    · exact ⟨d, List.mem_of_getElem? hd, h⟩
  · rintro ⟨e, he, h⟩
    obtain ⟨i, hi⟩ := List.mem_iff_getElem?.mp he
    exact .inr ⟨i, e, hi, h⟩

/-- Data without parts repeats nothing. -/
theorem not_repeats_of_child? {t : Data} (hobject : ∀ ps span, t ≠ .object ps span)
    (hchild : ∀ i, t.child? i = none) : ¬ t.Repeats := by
  rw [repeats_iff_child]
  rintro (⟨ps, span, rfl, -⟩ | ⟨i, d, hd, -⟩)
  · exact hobject ps span rfl
  · rw [hchild] at hd
    cases hd

mutual

/-- The walk through data comes by every repeated name. -/
theorem fresh_visits_iff : ∀ t : Data, Fresh t.visits ↔ ¬ t.Repeats
  | .literal _ _ => iff_of_true fresh_nil (not_repeats_of_child? (by simp) fun _ => rfl)
  | .environment _ _ => iff_of_true fresh_nil (not_repeats_of_child? (by simp) fun _ => rfl)
  | .reference _ => iff_of_true fresh_nil (not_repeats_of_child? (by simp) fun _ => rfl)
  | .object ps _ => by
    rw [visits, fresh_inOrder_iff, repeats_object_iff, propertyVisits_eq_map, not_or, not_not,
      List.map_map]
    refine and_congr Iff.rfl ?_
    simp only [List.forall_mem_map, List.not_mem_nil, not_false_iff, implies_true, true_and,
      not_exists, not_and]
    exact forall₂_congr (fresh_properties_iff ps)
  | .array es _ => by
    rw [visits, repeats_array_iff, elementVisits_eq_flatMap]
    have hflat : Fresh (es.flatMap visits) ↔ ∀ e ∈ es, Fresh e.visits := by
      simp only [Fresh, List.mem_flatMap]
      exact ⟨fun h e he v hv => h v ⟨e, he, hv⟩, fun h v ⟨e, he, hv⟩ => h e he v hv⟩
    rw [hflat, not_exists]
    simp only [not_and]
    exact forall₂_congr (fresh_elements_iff es)

theorem fresh_elements_iff : ∀ (es : List Data), ∀ e ∈ es, (Fresh e.visits ↔ ¬ e.Repeats)
  | e :: es, e', hmem => by
    rcases List.mem_cons.mp hmem with heq | hmem
    · rw [heq]
      exact fresh_visits_iff e
    · exact fresh_elements_iff es e' hmem

theorem fresh_properties_iff : ∀ (ps : List (Ident × Data)), ∀ p ∈ ps,
    (Fresh p.2.visits ↔ ¬ p.2.Repeats)
  | (k, d) :: ps, p, hmem => by
    rcases List.mem_cons.mp hmem with heq | hmem
    · rw [heq]
      exact fresh_visits_iff d
    · exact fresh_properties_iff ps p hmem

end

end Data

/-! ### Types and models -/

/-- The attributes of a column, if they are there. -/
def Property.attributes? (p : Property) : Option Data :=
  match p.2 with
  | .object ps span => (⟨ps, span⟩ : Block).get? "attributes"
  | _ => none

/-- The keys in attributes, if they are there. -/
def attributeVisits (t : Option Data) : List Visit := t.elim [] Data.visits

theorem fresh_attributeVisits_iff {t : Option Data} :
    Fresh (attributeVisits t) ↔ ¬ ∃ u, t = some u ∧ u.Repeats := by
  cases t with
  | none => simp [attributeVisits, fresh_nil]
  | some u => simp [attributeVisits, Data.fresh_visits_iff]

namespace Declaration

/-- The columns of a type or a model. -/
def columns (d : Declaration) : List Property :=
  match d.init.get? "columns" with
  | some (.object ps _) => ps
  | _ => []

/-- The keys in a type or a model, in the order of a walk: those in its attributes, then its
columns, each name before the attributes. -/
def visits (d : Declaration) : List Visit :=
  attributeVisits (d.init.get? "attributes") ++
    inOrder [] (d.columns.map fun p => (p.1, attributeVisits p.attributes?))

/-- Two columns have the same name, or a name stands twice in some object of the attributes or
of those of a column. -/
def Repeats (d : Declaration) : Prop :=
  (∃ t, d.init.get? "attributes" = some t ∧ t.Repeats) ∨
    ¬ (d.columns.map (·.1.name)).Nodup ∨ ∃ p ∈ d.columns, ∃ t, p.attributes? = some t ∧ t.Repeats

/-- The walk through a type or a model comes by every repeated name. -/
theorem fresh_visits_iff (d : Declaration) : Fresh d.visits ↔ ¬ d.Repeats := by
  rw [visits, Repeats, fresh_append, fresh_inOrder_iff, fresh_attributeVisits_iff, not_or, not_or,
    not_not, List.map_map]
  refine and_congr Iff.rfl (and_congr Iff.rfl ?_)
  simp only [List.forall_mem_map, List.not_mem_nil, not_false_iff, implies_true, true_and,
    fresh_attributeVisits_iff, not_exists, not_and]

end Declaration

/-! ### Outlines -/

/-- What is left of data and of values when only objects with their keys and arrays with their
lengths are looked at. -/
inductive Outline where
  /-- Neither an array nor an object. -/
  | leaf : Outline
  /-- Elements in order. -/
  | list (elements : List Outline) : Outline
  /-- Members in order. -/
  | record (members : List (String × Outline)) : Outline

namespace Data

mutual

/-- The outline of data. -/
def outline : Data → Outline
  | .literal _ _ => .leaf
  | .environment _ _ => .leaf
  | .object ps _ => .record (propertyOutlines ps)
  | .array es _ => .list (elementOutlines es)
  | .reference _ => .leaf

/-- The outlines of elements. -/
def elementOutlines : List Data → List Outline
  | [] => []
  | e :: es => outline e :: elementOutlines es

/-- The outlines of properties. -/
def propertyOutlines : List (Ident × Data) → List (String × Outline)
  | [] => []
  | (k, d) :: ps => (k.name, outline d) :: propertyOutlines ps

end

end Data

namespace Value

mutual

/-- The outline of a value. -/
def outline : Value → Outline
  | .null => .leaf
  | .bool _ => .leaf
  | .int _ => .leaf
  | .float _ => .leaf
  | .str _ => .leaf
  | .arr xs => .list (elementOutlines xs)
  | .obj ms => .record (memberOutlines ms)

/-- The outlines of elements. -/
def elementOutlines : List Value → List Outline
  | [] => []
  | x :: xs => outline x :: elementOutlines xs

/-- The outlines of members. -/
def memberOutlines : List (String × Value) → List (String × Outline)
  | [] => []
  | (k, v) :: ms => (k, outline v) :: memberOutlines ms

end

theorem elementOutlines_eq_map (xs : List Value) : elementOutlines xs = xs.map outline := by
  induction xs with
  | nil => rfl
  | cons x xs ih => rw [elementOutlines, ih, List.map_cons]

end Value

/-- The outline of attributes; without any it is that of an empty object. -/
def attributesOutline (t : Option Data) : Outline := t.elim (.record []) Data.outline

/-- The outline of what a column compiles to. -/
def Property.columnOutline (p : Property) : Outline :=
  .record [("type", .leaf), ("name", .leaf), ("required", .leaf), ("multiple", .leaf),
    ("attributes", attributesOutline p.attributes?)]

/-- The outline of what a type or a model compiles to. -/
def Declaration.outline (d : Declaration) : Outline :=
  .record [("name", .leaf), ("mutable", .leaf),
    ("attributes", attributesOutline (d.init.get? "attributes")),
    ("columns", .list (d.columns.map Property.columnOutline))]

/-! ### Compiling walks -/

namespace Context

/-- A computation walks along some keys.  It succeeds only if none of them is repeated, with a
result that is `good`, and a conflict is the first of them that is. -/
structure Walks {α : Type} (x : Except CompileError α) (vs : List Visit) (good : α → Prop) :
    Prop where
  ok : ∀ a, x = .ok a → Fresh vs ∧ good a
  error : ∀ e, x = .error e → e.IsConflict → ∃ key, firstRepeat vs = some key ∧ e = duplicate key

namespace Walks

variable {α β : Type} {x : Except CompileError α} {vs ws : List Visit} {good : α → Prop}
  {good' : β → Prop}

theorem of_ok {a : α} (h : good a) : Walks (.ok a) [] good where
  ok a' ha' := by
    cases ha'
    exact ⟨fresh_nil, h⟩
  error e he := nomatch he

/-- An error of another sort says nothing about keys. -/
theorem of_error {e : CompileError} (h : ¬ e.IsConflict) :
    Walks (.error e : Except CompileError α) vs good where
  ok a ha := nomatch ha
  error e' he' hconflict := by
    cases he'
    exact absurd hconflict h

theorem map (h : Walks x vs good) {g : α → β} (hg : ∀ a, good a → good' (g a)) :
    Walks (x.map g) vs good' where
  ok b hb := by
    obtain ⟨a, ha, rfl⟩ := Except.map_eq_ok_iff.mp hb
    exact ⟨(h.ok a ha).1, hg a (h.ok a ha).2⟩
  error e he := h.error e (Except.map_eq_error_iff.mp he)

/-- First along some keys, then along others. -/
theorem bind (h : Walks x vs good) {f : α → Except CompileError β}
    (hf : ∀ a, good a → Walks (f a) ws good') : Walks (x.bind f) (vs ++ ws) good' := by
  cases x with
  | error e =>
    constructor
    · intro b hb
      cases hb
    · intro e' he' hconflict
      cases he'
      obtain ⟨key, hkey, rfl⟩ := h.error e rfl hconflict
      exact ⟨key, by rw [firstRepeat_append, hkey, Option.some_or], rfl⟩
  | ok a =>
    obtain ⟨hfresh, hgood⟩ := h.ok a rfl
    have hrest := hf a hgood
    constructor
    · intro b hb
      exact ⟨fresh_append.mpr ⟨hfresh, (hrest.ok b hb).1⟩, (hrest.ok b hb).2⟩
    · intro e he hconflict
      obtain ⟨key, hkey, rfl⟩ := hrest.error e he hconflict
      refine ⟨key, ?_, rfl⟩
      rw [firstRepeat_append, firstRepeat_eq_none_iff.mpr hfresh, Option.none_or, hkey]

/-- By a key, before what comes after it. -/
theorem visit (h : Walks x vs good) (key : Ident) (before : List String) :
    Walks (if key.name ∈ before then .error (duplicate key) else x) (⟨key, before⟩ :: vs) good := by
  by_cases hkey : key.name ∈ before
  · rw [if_pos hkey]
    have hfirst : firstRepeat (⟨key, before⟩ :: vs) = some key := by simp [firstRepeat, hkey]
    constructor
    · intro a ha
      cases ha
    · intro e he _
      cases he
      exact ⟨key, hfirst, rfl⟩
  · rw [if_neg hkey]
    have hrest : firstRepeat (⟨key, before⟩ :: vs) = firstRepeat vs := by simp [firstRepeat, hkey]
    constructor
    · intro a ha
      exact ⟨fresh_cons.mpr ⟨hkey, (h.ok a ha).1⟩, (h.ok a ha).2⟩
    · rw [hrest]
      exact h.error

end Walks

theorem elements_cons (ctx : Context) (e : Data) (es : List Data) :
    ctx.elements (e :: es) = (ctx.data e).bind fun v => (ctx.elements es).map (v :: ·) := by
  rw [elements]
  cases ctx.data e <;> rfl

theorem properties_cons (ctx : Context) (seen : List String) (k : Ident) (d : Data)
    (ps : List (Ident × Data)) :
    ctx.properties seen ((k, d) :: ps) = if k.name ∈ seen then .error (duplicate k) else
      (ctx.data d).bind fun v => (ctx.properties (k.name :: seen) ps).map ((k.name, v) :: ·) := by
  rw [properties]
  cases ctx.data d <;> rfl

variable (environment : Entries String)

theorem outline_literal (l : Literal) : (literal l).outline = .leaf := by
  cases l with
  | float x =>
    rw [literal]
    by_cases hx : x.isFinite
    · rw [if_pos hx]
      rfl
    · rw [if_neg hx]
      rfl
  | _ => rfl

mutual

/-- Compiling data walks through it, and keeps its outline. -/
theorem walks_data : ∀ t : Data,
    Walks (data ⟨environment, none⟩ t) t.visits fun w => w.outline = t.outline
  | .literal l _ => .of_ok (outline_literal l)
  | .environment _ _ => .of_ok rfl
  | .reference _ => .of_ok rfl
  | .object ps _ => by
    rw [data, Data.visits]
    exact (walks_properties ps []).map fun ms h => congrArg Outline.record h
  | .array es _ => by
    rw [data, Data.visits]
    exact (walks_elements es).map fun vs h => congrArg Outline.list h

theorem walks_elements : ∀ es : List Data, Walks (elements ⟨environment, none⟩ es)
    (Data.elementVisits es) fun vs => Value.elementOutlines vs = Data.elementOutlines es
  | [] => .of_ok rfl
  | e :: es => by
    rw [elements_cons, Data.elementVisits]
    refine (walks_data e).bind fun v hv => (walks_elements es).map fun vs hvs => ?_
    rw [Value.elementOutlines, Data.elementOutlines, hv, hvs]

theorem walks_properties : ∀ (ps : List (Ident × Data)) (seen : List String),
    Walks (properties ⟨environment, none⟩ seen ps) (inOrder seen (Data.propertyVisits ps))
      fun ms => Value.memberOutlines ms = Data.propertyOutlines ps
  | [], _ => .of_ok rfl
  | (k, d) :: ps, seen => by
    rw [properties_cons, Data.propertyVisits, inOrder]
    refine Walks.visit ((walks_data d).bind fun v hv => ?_) k seen
    refine (walks_properties ps (k.name :: seen)).map fun ms hms => ?_
    rw [Value.memberOutlines, Data.propertyOutlines, hv, hms]

end

theorem not_isConflict_invalidColumn (name : String) (span : Span) :
    ¬ (CompileError.invalidColumn name span).IsConflict := by
  rintro ⟨_, _, h⟩
  cases h

theorem walks_attributes (owner : Ident) (t : Option Data) :
    Walks (attributes ⟨environment, none⟩ owner t) (attributeVisits t)
      fun w => w.outline = attributesOutline t := by
  cases t with
  | none => exact .of_ok rfl
  | some u =>
    cases u with
    | object ps span =>
      exact (walks_properties environment ps []).map fun ms h => congrArg Outline.record h
    | _ => exact .of_error (not_isConflict_invalidColumn _ _)

theorem walks_column (p : Property) :
    Walks (column ⟨environment, none⟩ p) (attributeVisits p.attributes?)
      fun w => w.outline = p.columnOutline ∧ columnName w = p.1.name := by
  obtain ⟨key, t⟩ := p
  cases t with
  | object ps span =>
    unfold column
    simp only
    split
    · refine (walks_attributes environment key _).map fun a ha => ⟨?_, rfl⟩
      simp [columnValue, Property.columnOutline, Property.attributes?, Value.outline,
        Value.memberOutlines, ha]
    · exact .of_error (not_isConflict_invalidColumn _ _)
  | _ => exact .of_error (not_isConflict_invalidColumn _ _)

theorem walks_columns (ps : List Property) (seen : List String) :
    Walks (columns ⟨environment, none⟩ seen ps)
      (inOrder seen (ps.map fun p => (p.1, attributeVisits p.attributes?)))
      fun ws => ws.map Value.outline = ps.map Property.columnOutline ∧
        ws.map columnName = ps.map (·.1.name) := by
  induction ps generalizing seen with
  | nil => exact .of_ok ⟨rfl, rfl⟩
  | cons p ps ih =>
    have hcons : columns ⟨environment, none⟩ seen (p :: ps) =
        if p.1.name ∈ seen then .error (duplicate p.1) else
          (column ⟨environment, none⟩ p).bind fun v =>
            (columns ⟨environment, none⟩ (p.1.name :: seen) ps).map (v :: ·) := by
      rw [columns]
      cases column ⟨environment, none⟩ p <;> rfl
    rw [hcons, List.map_cons, inOrder]
    refine Walks.visit ((walks_column environment p).bind fun v hv => ?_) p.1 seen
    refine (ih (p.1.name :: seen)).map fun ws hws => ?_
    simp [hv, hws]

/-- Compiling a type or a model walks through it, and keeps its outline and the names of its
columns. -/
theorem walks_columned (d : Declaration) :
    Walks (columned ⟨environment, none⟩ d) d.visits fun w => w.outline = d.outline ∧
      ∃ cs, w.get? "columns" = some (.arr cs) ∧ cs.map columnName = d.columns.map (·.1.name) := by
  have hform : ∀ {vs good}, Walks (.error (.missingColumns d.span) : Except CompileError Value) vs
      good := by
    refine Walks.of_error ?_
    rintro ⟨_, _, h⟩
    cases h
  unfold columned
  split
  · rename_i ps span hget
    have hcolumns : d.columns = ps := by rw [Declaration.columns, hget]
    rw [Declaration.visits, hcolumns]
    refine (walks_attributes environment d.id _).bind fun attributes ha => ?_
    refine (walks_columns environment ps []).map fun cs hcs => ⟨?_, cs, rfl, hcs.2⟩
    simp [Value.outline, Value.memberOutlines, Declaration.outline, ha, hcolumns, ← hcs.1,
      Value.elementOutlines_eq_map]
  · exact hform

/-! ### What is repeated -/

/-- A computation fails exactly if something is `repeated`, and then at the first of the keys it
comes by that stands before in its object; otherwise its result is `good`. -/
structure FindsRepeats {α : Type} (x : Except CompileError α) (vs : List Visit) (repeated : Prop)
    (good : α → Prop) : Prop where
  fails : (∃ e, x = .error e) ↔ repeated
  first : ∀ e, x = .error e ↔ ∃ key, firstRepeat vs = some key ∧ e = duplicate key
  succeeds : ∀ a, x = .ok a → good a

theorem Walks.findsRepeats {α : Type} {x : Except CompileError α} {vs : List Visit}
    {repeated : Prop} {good : α → Prop} (h : Walks x vs good) (hx : OnlyConflicts x)
    (hvs : Fresh vs ↔ ¬ repeated) : FindsRepeats x vs repeated good := by
  have hfirst : ∀ e, x = .error e ↔ ∃ key, firstRepeat vs = some key ∧ e = duplicate key := by
    intro e
    constructor
    · intro he
      exact h.error e he (hx e he)
    · rintro ⟨key, hkey, rfl⟩
      cases x with
      | ok a =>
        rw [firstRepeat_eq_none_iff.mpr (h.ok a rfl).1] at hkey
        cases hkey
      | error e =>
        obtain ⟨key', hkey', rfl⟩ := h.error e rfl (hx e rfl)
        rw [hkey] at hkey'
        cases hkey'
        rfl
  refine ⟨?_, hfirst, fun a ha => (h.ok a ha).2⟩
  -- An error means that the walk finds something, which is then not fresh.
  simp only [hfirst]
  rw [← not_iff_not, ← hvs, ← firstRepeat_eq_none_iff]
  cases firstRepeat vs <;> simp

/-- **What repeated names do.**  Compiling data fails exactly if in some object, at whatever depth,
a name stands twice; the error is then the first key, on a walk that comes by each key before it
enters its value, that stands before in the same object.  Otherwise the value has the outline of
the data.  The same holds for every type and model that is read from a source, where the walk goes
through the attributes and then from column to column, by each name before the attributes. -/
theorem repeats_exact (environment : Entries String) :
    (∀ t : Data, FindsRepeats (data ⟨environment, none⟩ t) t.visits t.Repeats
      fun w => w.outline = t.outline) ∧
    ∀ (source : List Char) (s : Schema), parseSchema source = .ok s →
      ∀ d ∈ s.declarations, d.kind.isColumned →
        FindsRepeats (declaration ⟨environment, none⟩ d) d.visits d.Repeats fun r =>
          r.1 = d.id.name ∧ r.2.outline = d.outline ∧ ∃ cs, r.2.get? "columns" = some (.arr cs) ∧
            cs.map columnName = d.columns.map (·.1.name) := by
  constructor
  · intro t
    exact (walks_data environment t).findsRepeats (onlyConflicts_data environment t)
      t.fresh_visits_iff
  · intro source s hs d hd hkind
    -- What is read from a source has the right form, and fails for no other reason.
    have hwritten := Schema.written_of_read hs _ (Schema.mem_declarations_iff.mp hd)
    have hwalks := walks_columned environment d
    refine Walks.findsRepeats ?_ (onlyConflicts_of_written environment hwritten) d.fresh_visits_iff
    rw [declaration_eq_map, if_pos hkind]
    exact hwalks.map fun w hw => ⟨rfl, hw⟩

/-- A column that stands twice, and before that a key within the arguments of the first one. -/
theorem repeats_exact_within :
    let source := "model M @a(1) \x7b x Int @k([\x7b p 1 q 2 q 3 \x7d]) x Int \x7d".toList
    ∃ s d key, parseSchema source = .ok s ∧ d ∈ s.declarations ∧ d.kind.isColumned ∧
      firstRepeat d.visits = some key ∧ key = ⟨"q", 36, 37⟩ ∧ d.Repeats ∧
      declaration ⟨[], none⟩ d = .error (duplicate key) := by
  intro source
  have hsome : (parseSchema source).toOption.map
      (fun s => s.declarations.map fun d => (d.kind, firstRepeat d.visits)) =
        some [(.model, some ⟨"q", 36, 37⟩)] := by
    decide +kernel
  obtain ⟨s, hs, hmap⟩ := Except.exists_of_toOption_map hsome
  obtain ⟨d, hd, hpair⟩ := List.mem_map.mp (hmap ▸ List.mem_singleton_self _)
  obtain ⟨hmodel, hfirst⟩ := Prod.mk.inj hpair
  have hkind : d.kind.isColumned := by
    rw [hmodel]
    rfl
  have hfinds := (repeats_exact []).2 source s hs d hd hkind
  have herror := (hfinds.first _).mpr ⟨_, hfirst, rfl⟩
  exact ⟨s, d, _, hs, hd, hkind, hfirst, rfl, hfinds.fails.mp ⟨_, herror⟩, herror⟩

end Context

end SchemaLang
