import SchemaLang.Proofs.Resolve.Inline
import SchemaLang.Proofs.Value.Equality

/-!
# What replacing references leaves alone

A string is inert when it is no reference and is read as it stands.  Replacing references
leaves a value alone exactly when every string in the places that are looked at is inert:
a reference becomes an object, which is equal to no string, and any other string that is not
inert loses a dollar sign.  Whether the order of members counts makes no difference to this.

The places are all strings of a value, or those in its attributes, or those in the attributes
of its columns.  One statement, `Replaces`, is carried from strings through arrays, objects and
single members to all of these.

## Main definitions

* `Inert` — a string that stays as it is.
* `Value.IsRecord` — a regular object, as names stand for.
* `Replaces` — a value with the strings in some places replaced.

## Main results

* `Replaces.arr`, `Replaces.obj`, `Replaces.changeAt` — elements, members, and one member.
* `Target.replaces_inline`, `Target.replaces_inlineEntries` — replacing references.
-/

namespace Except

variable {ε α β : Type}

/-- A list of results is one result for each element. -/
theorem mapM_eq_ok_iff {f : α → Except ε β} {as : List α} {bs : List β} :
    as.mapM f = .ok bs ↔ List.Forall₂ (fun a b => f a = .ok b) as bs := by
  induction as generalizing bs with
  | nil =>
    rw [List.mapM_nil, List.forall₂_nil_left_iff]
    exact ⟨fun h => (Except.ok.inj h).symm, fun h => congrArg _ h.symm⟩
  | cons a as ih =>
    have hcons : (a :: as).mapM f = (f a).bind fun b => (as.mapM f).map (b :: ·) := by
      rw [List.mapM_cons]
      rfl
    rw [hcons, bind_eq_ok_iff, List.forall₂_cons_left_iff]
    simp only [map_eq_ok_iff, ih]
    constructor
    · rintro ⟨b, hb, bs, hbs, rfl⟩
      exact ⟨b, bs, hb, hbs, rfl⟩
    · rintro ⟨b, bs, hb, hbs, rfl⟩
      exact ⟨b, hb, bs, hbs, rfl⟩

end Except

namespace SchemaLang

/-! ### Entries -/

namespace Entries

variable {α : Type} {es fs : Entries α} {key : String} {a : α}

section MapM

variable {g : α → Except CompileError α}
  (h : es.mapM (fun e => (g e.2).map (e.1, ·)) = .ok fs)

include h

/-- Changing what names stand for leaves the names. -/
theorem keys_of_mapM : keys fs = keys es := by
  rw [Except.mapM_eq_ok_iff] at h
  induction h with
  | nil => rfl
  | cons he _ ih =>
    obtain ⟨b, -, rfl⟩ := Except.map_eq_ok_iff.mp he
    rw [keys_cons, keys_cons, ih]

theorem get?_of_mapM (key : String) (b : α) :
    get? fs key = some b ↔ ∃ a, get? es key = some a ∧ g a = .ok b := by
  rw [Except.mapM_eq_ok_iff] at h
  induction h with
  | nil => simp
  | @cons e _ _ _ he _ ih =>
    obtain ⟨b', hb', rfl⟩ := Except.map_eq_ok_iff.mp he
    obtain ⟨k, a⟩ := e
    rw [get?_cons, get?_cons]
    by_cases hk : k = key
    · simp only at hb'
      simp [hk, hb']
    · simp only [if_neg hk]
      exact ih

end MapM

end Entries

/-! ### Inert strings -/

/-- A string that stays as it is when references are replaced. -/
def Inert (s : String) : Prop := referenceName? s = none ∧ unescape s = s

namespace Value

/-- A regular object. -/
structure IsRecord (v : Value) : Prop where
  regular : v.Regular
  object : ∃ ms, v = .obj ms

theorem same_of_get? {v w a b : Value} {key : String} (hv : v.Regular) (hw : w.Regular)
    (h : w.same v) (ha : v.get? key = some a) (hb : w.get? key = some b) : b.same a := by
  cases v with
  | obj ms =>
    cases w with
    | obj ns => exact ((same_obj_iff hw.distinct hv.distinct).mp h).2 key b a hb ha
    | _ => cases hb
  | _ => cases ha

end Value

/-- A value `v` in which the strings in some places are replaced, if that succeeds. -/
structure Replaces (v : Value) (places : List String) (x : Except CompileError Value) : Prop where
  /-- Inert strings stay. -/
  fixed : (∀ s ∈ places, Inert s) → x = .ok v
  /-- Other strings do not. -/
  inert : ∀ {w}, v.Regular → x = .ok w → w.same v → ∀ s ∈ places, Inert s
  regular : ∀ {w}, v.Regular → x = .ok w → w.Regular
  object : ∀ {w}, (∃ ms, v = .obj ms) → x = .ok w → ∃ ns, w = .obj ns

namespace Replaces

variable {g : Value → Except CompileError Value} {places : Value → List String}

theorem record {v w : Value} {ss : List String} {x : Except CompileError Value}
    (h : Replaces v ss x) (hv : v.IsRecord) (hx : x = .ok w) : w.IsRecord :=
  ⟨h.regular hv.regular hx, h.object hv.object hx⟩

/-- Where there is nothing to replace, nothing is. -/
theorem of_ok (v : Value) : Replaces v [] (.ok v) where
  fixed _ := rfl
  inert _ _ _ := by simp
  regular hv h := by
    cases h
    exact hv
  object hv h := by
    cases h
    exact hv

/-- The elements of an array one after the other. -/
theorem arr {xs : List Value} (h : ∀ x ∈ xs, Replaces x (places x) (g x)) :
    Replaces (.arr xs) (xs.flatMap places) ((xs.mapM g).map .arr) where
  fixed hs := by
    have hxs : xs.mapM g = .ok xs := by
      rw [Except.mapM_eq_ok_iff, List.forall₂_same]
      intro x hx
      exact (h x hx).fixed fun s hsx => hs s (List.mem_flatMap.mpr ⟨x, hx, hsx⟩)
    rw [hxs]
    rfl
  inert hv hw hsame s hs := by
    obtain ⟨ys, hys, rfl⟩ := Except.map_eq_ok_iff.mp hw
    rw [Except.mapM_eq_ok_iff] at hys
    rw [Value.same, Value.sameElements_iff] at hsame
    obtain ⟨x, hx, hsx⟩ := List.mem_flatMap.mp hs
    obtain ⟨⟨i, hi⟩, rfl⟩ := List.mem_iff_get.mp hx
    have hj : i < ys.length := hys.length_eq ▸ hi
    cases hv with
    | arr _ elements =>
      exact (h _ hx).inert (elements _ hx) (hys.get hi hj) (hsame.get hj hi) s hsx
  regular hv hw := by
    obtain ⟨ys, hys, rfl⟩ := Except.map_eq_ok_iff.mp hw
    rw [Except.mapM_eq_ok_iff] at hys
    cases hv with
    | arr _ elements =>
      refine .arr ys fun y hy => ?_
      obtain ⟨⟨i, hj⟩, rfl⟩ := List.mem_iff_get.mp hy
      have hi : i < xs.length := hys.length_eq ▸ hj
      have hx := List.get_mem xs ⟨i, hi⟩
      exact (h _ hx).regular (elements _ hx) (hys.get hi hj)
  object := by simp

/-- The members of an object one after the other. -/
theorem obj {ms : List (String × Value)} (h : ∀ e ∈ ms, Replaces e.2 (places e.2) (g e.2)) :
    Replaces (.obj ms) (ms.flatMap fun e => places e.2)
      ((ms.mapM fun e => (g e.2).map (e.1, ·)).map .obj) := by
  have hregular : ∀ {w : Value}, (Value.obj ms).Regular →
      (ms.mapM fun e => (g e.2).map (e.1, ·)).map .obj = .ok w → w.Regular := by
    intro w hv hw
    obtain ⟨ns, hns, rfl⟩ := Except.map_eq_ok_iff.mp hw
    cases hv with
    | obj _ distinct members =>
      refine .obj ns (Entries.keys_of_mapM hns ▸ distinct) fun k w hw => ?_
      obtain ⟨v, hv, hvw⟩ := (Entries.get?_of_mapM hns k w).mp hw
      exact (h (k, v) (Entries.mem_of_get? hv)).regular (members k v hv) hvw
  refine ⟨fun hs => ?_, fun hv hw hsame s hs => ?_, hregular, fun _ hw => ?_⟩
  · have hms : (ms.mapM fun e => (g e.2).map (e.1, ·)) = .ok ms := by
      rw [Except.mapM_eq_ok_iff, List.forall₂_same]
      intro e he
      rw [(h e he).fixed fun s hse => hs s (List.mem_flatMap.mpr ⟨e, he, hse⟩)]
      rfl
    rw [hms]
    rfl
  · have hregular' := hregular hv hw
    obtain ⟨ns, hns, rfl⟩ := Except.map_eq_ok_iff.mp hw
    obtain ⟨⟨k, v⟩, he, hse⟩ := List.mem_flatMap.mp hs
    have hget : Entries.get? ms k = some v := Entries.get?_of_mem hv.distinct he
    have hkey : k ∈ Entries.keys ns := by
      rw [Entries.keys_of_mapM hns]
      exact Entries.mem_keys_of_get? hget
    obtain ⟨w, hgetw⟩ := Entries.mem_keys_iff.mp hkey
    obtain ⟨v', hget', hvw⟩ := (Entries.get?_of_mapM hns k w).mp hgetw
    rw [hget] at hget'
    cases hget'
    have hsame' : w.same v := Value.same_of_get? hv hregular' hsame hget hgetw
    cases hv with
    | obj _ _ members => exact (h _ he).inert (members k v hget) hvw hsame' s hse
  · obtain ⟨ns, -, rfl⟩ := Except.map_eq_ok_iff.mp hw
    exact ⟨ns, rfl⟩

/-! ### One member -/

section Member

variable {v w : Value} {key : String}

/-- A changed member is the only difference there is. -/
theorem changeAt_cases (hw : v.changeAt g key = .ok w) :
    (v.get? key = none ∧ w = v) ∨
      ∃ ms a b, v = .obj ms ∧ Entries.get? ms key = some a ∧ g a = .ok b ∧
        w = .obj (Entries.insert ms key b) := by
  cases v with
  | obj ms =>
    obtain ⟨ns, hns, rfl⟩ := Except.map_eq_ok_iff.mp hw
    rw [Entries.changeAt] at hns
    cases ha : Entries.get? ms key with
    | none =>
      rw [ha] at hns
      cases hns
      exact .inl ⟨ha, rfl⟩
    | some a =>
      rw [ha] at hns
      obtain ⟨b, hb, rfl⟩ := Except.map_eq_ok_iff.mp hns
      exact .inr ⟨ms, a, b, rfl, ha, hb, rfl⟩
  | _ =>
    cases hw
    exact .inl ⟨rfl, rfl⟩

variable (h : ∀ a, Replaces a (places a) (g a))

include h

/-- What became of the member tells whether its strings were inert. -/
theorem inert_of_member (hv : v.Regular) (hw : v.changeAt g key = .ok w)
    (hsame : ∀ a b, v.get? key = some a → w.get? key = some b → b.same a) :
    ∀ s ∈ (v.get? key).elim [] places, Inert s := by
  rcases changeAt_cases hw with ⟨hnone, -⟩ | ⟨ms, a, b, rfl, ha, hab, rfl⟩
  · rw [hnone]
    simp
  · have hget : Value.get? (.obj ms) key = some a := ha
    rw [hget]
    cases hv with
    | obj _ _ members =>
      refine (h a).inert (members key a ha) hab (hsame a b ha ?_)
      rw [Value.get?, Entries.get?_insert, if_pos rfl]

/-- One member of an object. -/
theorem changeAt (v : Value) (key : String) :
    Replaces v ((v.get? key).elim [] places) (v.changeAt g key) := by
  have hregular : ∀ {w}, v.Regular → v.changeAt g key = .ok w → w.Regular := by
    intro w hv hw
    rcases changeAt_cases hw with ⟨-, rfl⟩ | ⟨ms, a, b, rfl, ha, hab, rfl⟩
    · exact hv
    · cases hv with
      | obj _ distinct members =>
        refine .obj _ (Entries.nodup_keys_insert distinct key b) fun k c hc => ?_
        rw [Entries.get?_insert] at hc
        by_cases hk : key = k
        · rw [if_pos hk] at hc
          cases hc
          exact (h a).regular (members key a ha) hab
        · rw [if_neg hk] at hc
          exact members k c hc
  refine ⟨fun hs => ?_, fun hv hw hsame => ?_, hregular, fun hv hw => ?_⟩
  · cases v with
    | obj ms =>
      rw [Value.changeAt, Entries.changeAt]
      cases ha : Entries.get? ms key with
      | none => rfl
      | some a =>
        rw [Value.get?, ha] at hs
        simp only [(h a).fixed hs, Except.map, Entries.insert_self ha]
    | _ => rfl
  · exact inert_of_member h hv hw fun a b ha hb =>
      Value.same_of_get? hv (hregular hv hw) hsame ha hb
  · rcases changeAt_cases hw with ⟨-, rfl⟩ | ⟨ms, a, b, -, -, -, rfl⟩
    · exact hv
    · exact ⟨_, rfl⟩

/-- Two members with different names, one after the other. -/
theorem changeAt_changeAt {g' : Value → Except CompileError Value} {places' : Value → List String}
    (h' : ∀ a, Replaces a (places' a) (g' a)) {key' : String} (hkey : key ≠ key') (v : Value) :
    Replaces v ((v.get? key).elim [] places ++ (v.get? key').elim [] places')
      ((v.changeAt g key).bind fun u => u.changeAt g' key') where
  fixed hs := by
    rw [List.forall_mem_append] at hs
    rw [Except.bind_eq_ok_iff]
    exact ⟨v, (changeAt h v key).fixed hs.1, (changeAt h' v key').fixed hs.2⟩
  inert hv hw hsame := by
    obtain ⟨u, hu, hw⟩ := Except.bind_eq_ok_iff.mp hw
    have hur := (changeAt h v key).regular hv hu
    have hwr := (changeAt h' u key').regular hur hw
    rw [List.forall_mem_append]
    constructor
    · -- The second change leaves the first member as it has become.
      refine inert_of_member h hv hu fun a b ha hb => ?_
      rw [← Value.get?_of_changeAt hw hkey.symm] at hb
      exact Value.same_of_get? hv hwr hsame ha hb
    · rw [← Value.get?_of_changeAt hu hkey]
      refine inert_of_member h' hur hw fun a b ha hb => ?_
      rw [Value.get?_of_changeAt hu hkey] at ha
      exact Value.same_of_get? hv hwr hsame ha hb
  regular hv hw := by
    obtain ⟨u, hu, hw⟩ := Except.bind_eq_ok_iff.mp hw
    exact (changeAt h' u key').regular ((changeAt h v key).regular hv hu) hw
  object hv hw := by
    obtain ⟨u, hu, hw⟩ := Except.bind_eq_ok_iff.mp hw
    exact (changeAt h' u key').object ((changeAt h v key).object hv hu) hw

end Member

end Replaces

/-! ### Replacing references -/

namespace Value

theorem inlineElements_eq_mapM (find : String → Except CompileError Value) (xs : List Value) :
    inlineElements find xs = xs.mapM (inline find) := by
  induction xs with
  | nil => rfl
  | cons x xs ih =>
    rw [inlineElements, ih, List.mapM_cons]
    rfl

theorem inlineMembers_eq_mapM (find : String → Except CompileError Value)
    (ms : List (String × Value)) :
    inlineMembers find ms = ms.mapM fun e => (e.2.inline find).map (e.1, ·) := by
  induction ms with
  | nil => rfl
  | cons e ms ih =>
    obtain ⟨k, v⟩ := e
    rw [inlineMembers, ih, List.mapM_cons]
    cases v.inline find <;> rfl

theorem elementStrings_eq_flatMap (xs : List Value) : elementStrings xs = xs.flatMap strings := by
  induction xs with
  | nil => rfl
  | cons x xs ih => rw [elementStrings, ih, List.flatMap_cons]

theorem memberStrings_eq_flatMap (ms : List (String × Value)) :
    memberStrings ms = ms.flatMap fun e => strings e.2 := by
  induction ms with
  | nil => rfl
  | cons e ms ih => rw [memberStrings, ih, List.flatMap_cons]

variable {find : String → Except CompileError Value}

/-- A string is never equal to what a reference stands for. -/
theorem replaces_inline_str (hfind : ∀ n v, find n = .ok v → v.IsRecord) (s : String) :
    Replaces (.str s) [s] ((str s).inline find) := by
  rw [inline]
  cases hs : referenceName? s with
  | none =>
    refine ⟨fun h => ?_, fun _ hw hsame => ?_, fun _ hw => ?_, by simp⟩
    · rw [(h s (List.mem_singleton_self s)).2]
    · cases hw
      rw [List.forall_mem_singleton]
      exact ⟨hs, by simpa [same] using hsame⟩
    · cases hw
      exact .str _
  | some n =>
    refine ⟨fun h => ?_, fun _ hw hsame => ?_, fun _ hw => (hfind n _ hw).regular, by simp⟩
    · rw [(h s (List.mem_singleton_self s)).1] at hs
      cases hs
    · obtain ⟨ms, rfl⟩ := (hfind n _ hw).object
      simp [same] at hsame

variable (hfind : ∀ n v, find n = .ok v → v.IsRecord)

include hfind

theorem replaces_inline (v : Value) : Replaces v v.strings (v.inline find) := by
  cases v with
  | str s => exact replaces_inline_str hfind s
  | arr xs =>
    rw [strings, inline, elementStrings_eq_flatMap, inlineElements_eq_mapM]
    exact .arr fun x hx => replaces_inline x
  | obj ms =>
    rw [strings, inline, memberStrings_eq_flatMap, inlineMembers_eq_mapM]
    exact .obj fun e he => replaces_inline e.2
  | null => exact .of_ok .null
  | bool b => exact .of_ok (.bool b)
  | int n => exact .of_ok (.int n)
  | float x => exact .of_ok (.float x)
termination_by sizeOf v
decreasing_by
  · have hsize := List.sizeOf_lt_of_mem hx
    simp only [arr.sizeOf_spec]
    omega
  · have hsize := List.sizeOf_lt_of_mem he
    obtain ⟨k, v⟩ := e
    simp only [Prod.mk.sizeOf_spec, obj.sizeOf_spec] at hsize ⊢
    omega

theorem replaces_inlineAttributes (v : Value) :
    Replaces v v.attributeStrings (v.inlineAttributes find) :=
  .changeAt (replaces_inline hfind) v "attributes"

theorem replaces_inlineColumns (v : Value) :
    Replaces v v.columnStrings (v.inlineColumns find) := by
  cases v with
  | arr cs => exact .arr fun c _ => replaces_inlineAttributes hfind c
  | _ => exact .of_ok _

theorem replaces_inlineColumned (v : Value) :
    Replaces v v.columnedStrings (v.inlineColumned find) :=
  .changeAt_changeAt (replaces_inline hfind) (replaces_inlineColumns hfind) (by decide) v

end Value

namespace Target

/-- The value in which references are to be replaced. -/
def value : Target → Value
  | .whole v => v
  | .columned v => v

/-- The strings that may be references in the entries of a section. -/
def entryStrings (form : Value → Target) (es : Entries Value) : List String :=
  es.flatMap fun e => (form e.2).strings

variable {find : String → Except CompileError Value}
  (hfind : ∀ n v, find n = .ok v → v.IsRecord)

include hfind

theorem replaces_inline : ∀ t : Target, Replaces t.value t.strings (t.inline find)
  | .whole v => v.replaces_inline hfind
  | .columned v => v.replaces_inlineColumned hfind

theorem replaces_inlineEntries {form : Value → Target} (hform : ∀ v, (form v).value = v)
    (es : Entries Value) :
    Replaces (.obj es) (entryStrings form es) ((inlineEntries form find es).map .obj) := by
  have hentry : ∀ v, Replaces v (form v).strings ((form v).inline find) := by
    intro v
    have h := (form v).replaces_inline hfind
    rwa [hform] at h
  exact @Replaces.obj (fun v => (form v).inline find) (fun v => (form v).strings) es
    fun e _ => hentry e.2

end Target

end SchemaLang
