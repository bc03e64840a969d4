import SchemaLang.Proofs.Value.Union
import Mathlib.Data.List.Nodup

/-!
# Merging declarations

Declarations of one kind and name merge into their least upper bound, where a type or a
model includes another when each column of the other is found again among its own.  Upper
bounds know no order, so neither does merging: any number of declarations merge exactly when
something includes them all, whichever comes first, and what comes out is the same up to the
order of members and columns.

## Main definitions

* `Kind.inclusion` — inclusion of declarations of a kind.
* `Kind.alike` — equality of declarations, for which the order of columns does not count.
* `mergeAll` — declarations merged from left to right.

## Main results

* `isUnion_mergeColumns`, `isUnion_mergeDeclared` — columns and declarations merge into
  their unions.
* `mergeAll_bounds` — so do many declarations.
* `mergeAll_perm` — the order in which declarations are merged does not count.
-/

namespace SchemaLang

open Merged

variable {α : Type}

/-! ### Columns -/

/-- The name of a column; empty for what has none. -/
def columnName (c : Value) : String :=
  match c.get? "name" with
  | some (.str n) => n
  | _ => ""

/-- A regular value that is named by a string. -/
def IsColumn (c : Value) : Prop := c.Regular ∧ c.get? "name" = some (.str (columnName c))

theorem sameName_iff {c e : Value} (hc : IsColumn c) (he : IsColumn e) :
    mergeColumns.sameName c e ↔ columnName e = columnName c := by
  rw [mergeColumns.sameName, hc.2, he.2]
  simp [Value.same]

theorem columnName_of_same {c d : Value} (hc : IsColumn c) (hd : IsColumn d) (h : c.same d) :
    columnName c = columnName d := by
  obtain ⟨hc, hcn⟩ := hc
  obtain ⟨hd, hdn⟩ := hd
  cases c with
  | obj es =>
    cases d with
    | obj fs =>
      have hsame := ((Value.same_obj_iff hc.distinct hd.distinct).mp h).2 "name" _ _ hcn hdn
      simpa [Value.same] using hsame
    | _ => cases hdn
  | _ => cases hcn

/-- Columns with distinct names, each of which must be found again. -/
def columnsInclusion : Inclusion (List Value) where
  valid cs := (∀ c ∈ cs, IsColumn c) ∧ (cs.map columnName).Nodup
  le cs ds := ∀ c ∈ cs, ∃ d ∈ ds, c.same d
  refl h c hc := ⟨c, hc, Value.same_refl (h.1 c hc).1⟩
  trans {bs cs ds} hbs hcs hds hbc hcd b hb := by
    obtain ⟨c, hc, hbc⟩ := hbc b hb
    obtain ⟨d, hd, hcd⟩ := hcd c hc
    exact ⟨d, hd, Value.same_trans (hbs.1 b hb).1 (hcs.1 c hc).1 (hds.1 d hd).1 hbc hcd⟩

/-- A name tells which column it is. -/
theorem eq_of_columnName {cs : List Value} (h : columnsInclusion.valid cs) {c d : Value}
    (hc : c ∈ cs) (hd : d ∈ cs) (hn : columnName c = columnName d) : c = d :=
  List.inj_on_of_nodup_map h.2 hc hd hn

theorem columns_le_cons_iff {c : Value} {cs us : List Value} :
    columnsInclusion.le (c :: cs) us ↔ (∃ d ∈ us, c.same d) ∧ columnsInclusion.le cs us :=
  List.forall_mem_cons

theorem columns_le_concat_iff {c : Value} {cs us : List Value} :
    columnsInclusion.le (cs ++ [c]) us ↔ columnsInclusion.le cs us ∧ ∃ d ∈ us, c.same d := by
  simp [columnsInclusion, or_imp, forall_and]

theorem columns_valid_concat {c : Value} {cs : List Value} (hcs : columnsInclusion.valid cs)
    (hc : IsColumn c) (hfresh : columnName c ∉ cs.map columnName) :
    columnsInclusion.valid (cs ++ [c]) := by
  constructor
  · intro d hd
    rcases List.mem_append.mp hd with hd | hd
    · exact hcs.1 d hd
    · rw [List.mem_singleton.mp hd]
      exact hc
  · rw [List.map_append, List.map_singleton]
    exact hcs.2.append (List.nodup_singleton _) (by simpa using hfresh)

/-- Columns of one name that are found again are equal. -/
theorem same_of_columnName {c e : Value} {us : List Value} (hus : columnsInclusion.valid us)
    (hc : IsColumn c) (he : IsColumn e) (hname : columnName e = columnName c)
    (hcu : ∃ d ∈ us, c.same d) (heu : ∃ d ∈ us, e.same d) : e.same c := by
  obtain ⟨d, hd, hcd⟩ := hcu
  obtain ⟨d', hd', hed⟩ := heu
  have hdc := hus.1 d hd
  have hdc' := hus.1 d' hd'
  -- Both are found again as the one column of their name.
  have hdd : d' = d := by
    apply eq_of_columnName hus hd' hd
    rw [← columnName_of_same he hdc' hed, ← columnName_of_same hc hdc hcd, hname]
  rw [hdd] at hed
  exact Value.same_trans he.1 hdc.1 hc.1 hed (Value.same_symm hc.1 hdc.1 hcd)

/-- Columns merge into their least upper bound. -/
theorem isUnion_mergeColumns {es is : List Value} (hes : columnsInclusion.valid es)
    (his : ∀ c ∈ is, IsColumn c) : IsUnion columnsInclusion es is (mergeColumns es is) := by
  induction is generalizing es with
  | nil =>
    refine ⟨fun _ => hes, fun us _ => ?_⟩
    have hnil : columnsInclusion.le [] us := by simp [columnsInclusion]
    simp [mergeColumns, hnil]
  | cons c is ih =>
    obtain ⟨hc, his⟩ := List.forall_mem_cons.mp his
    rw [mergeColumns]
    cases hfind : es.find? (mergeColumns.sameName c) with
    | none =>
      rw [List.find?_eq_none] at hfind
      have hfresh : columnName c ∉ es.map columnName := by
        intro hmem
        obtain ⟨e, he, hn⟩ := List.mem_map.mp hmem
        exact hfind e he ((sameName_iff hc (hes.1 e he)).mpr hn)
      have hrest := ih (columns_valid_concat hes hc hfresh) his
      refine ⟨hrest.valid, fun us hus => ?_⟩
      rw [hrest.bounds us hus, columns_le_concat_iff, columns_le_cons_iff, and_assoc]
    | some e =>
      have he : e ∈ es := List.mem_of_find?_eq_some hfind
      have hec : IsColumn e := hes.1 e he
      have hname : columnName e = columnName c := (sameName_iff hc hec).mp (List.find?_some hfind)
      by_cases hsame : e.same c
      · have hrest := ih hes his
        simp only [hsame, if_true]
        refine ⟨hrest.valid, fun us hus => ?_⟩
        rw [hrest.bounds us hus, columns_le_cons_iff]
        refine and_congr_right fun hle => ⟨fun h => ⟨?_, h⟩, fun h => h.2⟩
        obtain ⟨d, hd, hed⟩ := hle e he
        exact ⟨d, hd, Value.same_trans hc.1 hec.1 (hus.1 d hd).1 (Value.same_symm hec.1 hc.1 hsame) hed⟩
      · simp only [if_neg hsame]
        refine ⟨fun h => absurd h Bool.false_ne_true, fun us hus => ?_⟩
        rw [columns_le_cons_iff]
        refine iff_of_false (fun h => Bool.false_ne_true h.1) ?_
        rintro ⟨hle, hcu, -⟩
        exact hsame (same_of_columnName hus hc hec hname hcu (hle e he))

/-! ### Declarations -/

theorem arr_injective : Function.Injective Value.arr := fun _ _ => Value.arr.inj

theorem obj_injective : Function.Injective Value.obj := fun _ _ => Value.obj.inj

/-- Inclusion of members of a type or a model with a name. -/
def memberInclusion (key : String) : Inclusion Value :=
  if key = "columns" then columnsInclusion.wrap .arr arr_injective else Value.inclusion

/-- Inclusion of declarations of a kind. -/
def Kind.inclusion (kind : Kind) : Inclusion Value :=
  if kind.isColumned then (Inclusion.entries memberInclusion).wrap .obj obj_injective
  else Value.inclusion

theorem mergeColumned_eq_mergeWith (es is : Entries Value) :
    mergeColumned es is = Entries.mergeWith mergeColumnedMember es is := by
  induction is generalizing es with
  | nil => rfl
  | cons first is ih =>
    obtain ⟨k, i⟩ := first
    rw [mergeColumned, Entries.mergeWith]
    cases Entries.get? es k with
    | none => exact ih _
    | some e => simp only [ih]

theorem isUnion_mergeColumnedMember {key : String} {e i : Value} (he : (memberInclusion key).valid e)
    (hi : (memberInclusion key).valid i) :
    IsUnion (memberInclusion key) e i (mergeColumnedMember key e i) := by
  by_cases hkey : key = "columns"
  · simp only [memberInclusion, if_pos hkey] at he hi ⊢
    obtain ⟨es, rfl, hes⟩ := he
    obtain ⟨is, rfl, his⟩ := hi
    simp only [mergeColumnedMember, if_pos hkey]
    exact (isUnion_mergeColumns hes his.1).map arr_injective
  · simp only [memberInclusion, if_neg hkey] at he hi ⊢
    have heq : mergeColumnedMember key e i = e.merge i := by
      cases e with
      | arr es => simp only [mergeColumnedMember, if_neg hkey]
      | _ => rfl
    rw [heq]
    exact Value.isUnion_merge he hi

/-- Declarations of one kind and name merge into their least upper bound. -/
theorem isUnion_mergeDeclared (kind : Kind) {e i : Value} (he : kind.inclusion.valid e)
    (hi : kind.inclusion.valid i) : IsUnion kind.inclusion e i (mergeDeclared kind e i) := by
  unfold Kind.inclusion at he hi ⊢
  by_cases hkind : kind.isColumned
  · simp only [if_pos hkind] at he hi ⊢
    obtain ⟨es, rfl, hes⟩ := he
    obtain ⟨is, rfl, his⟩ := hi
    simp only [mergeDeclared, if_pos hkind]
    rw [mergeColumned_eq_mergeWith]
    refine (Entries.isUnion_mergeWith hes his ?_).map obj_injective
    intro k i hk e he
    exact isUnion_mergeColumnedMember he (his.2 k i hk)
  · simp only [if_neg hkind] at he hi ⊢
    have heq : mergeDeclared kind e i = e.merge i := by
      cases e with
      | obj es =>
        cases i with
        | obj is => simp only [mergeDeclared, if_neg hkind]
        | _ => rfl
      | _ => rfl
    rw [heq]
    exact Value.isUnion_merge he hi

/-! ### Equality of declarations -/

/-- Columns that are equal but for their order. -/
def sameColumns (cs ds : List Value) : Prop :=
  ∃ ds', ds.Perm ds' ∧ List.Forall₂ (fun c d => c.same d) cs ds'

/-- Equality of members of a type or a model with a name: columns may stand in any order. -/
def sameMember (key : String) (v w : Value) : Prop :=
  if key = "columns" then ∃ cs ds, v = .arr cs ∧ w = .arr ds ∧ sameColumns cs ds else v.same w

/-- Equality of declarations of a kind: those of a type or a model have the same members, and
their columns may stand in any order. -/
def Kind.alike (kind : Kind) (v w : Value) : Prop :=
  if kind.isColumned then
    ∃ es fs, v = .obj es ∧ w = .obj fs ∧ (Entries.keys es).Perm (Entries.keys fs) ∧
      ∀ k a b, Entries.get? es k = some a → Entries.get? fs k = some b → sameMember k a b
  else v.same w

/-- A column is not needed where none of its name is looked for. -/
theorem columns_le_of_le_cons {c : Value} {cs ds : List Value} (hc : IsColumn c)
    (hds : ∀ d ∈ ds, IsColumn d) (hfresh : columnName c ∉ ds.map columnName)
    (h : columnsInclusion.le ds (c :: cs)) : columnsInclusion.le ds cs := by
  intro d hd
  obtain ⟨c', hc', hsame⟩ := h d hd
  rcases List.mem_cons.mp hc' with rfl | hc'
  · rw [← columnName_of_same (hds d hd) hc hsame] at hfresh
    exact absurd (List.mem_map_of_mem hd) hfresh
  · exact ⟨c', hc', hsame⟩

/-- Columns that include each other are equal but for their order. -/
theorem sameColumns_of_le {cs ds : List Value} (hcs : columnsInclusion.valid cs)
    (hds : columnsInclusion.valid ds) (hcd : columnsInclusion.le cs ds)
    (hdc : columnsInclusion.le ds cs) : sameColumns cs ds := by
  induction cs generalizing ds with
  | nil =>
    cases ds with
    | nil => exact ⟨[], .nil, .nil⟩
    | cons d ds =>
      obtain ⟨c, hc, -⟩ := hdc d List.mem_cons_self
      cases hc
  | cons c cs ih =>
    obtain ⟨⟨d, hd, hsame⟩, hcd⟩ := columns_le_cons_iff.mp hcd
    obtain ⟨ds₁, ds₂, rfl⟩ := List.append_of_mem hd
    have hperm : (ds₁ ++ d :: ds₂).Perm (d :: (ds₁ ++ ds₂)) := List.perm_middle
    obtain ⟨hc, hccols⟩ := List.forall_mem_cons.mp hcs.1
    obtain ⟨hcfresh, hcnodup⟩ := List.nodup_cons.mp hcs.2
    have hdcols : ∀ x ∈ d :: (ds₁ ++ ds₂), IsColumn x := fun x hx => hds.1 x (hperm.mem_iff.mpr hx)
    obtain ⟨hd, hdcols⟩ := List.forall_mem_cons.mp hdcols
    obtain ⟨hdfresh, hdnodup⟩ := List.nodup_cons.mp ((hperm.map columnName).nodup_iff.mp hds.2)
    have hname : columnName c = columnName d := columnName_of_same hc hd hsame
    -- The other columns have other names, so they are found again among the others.
    have hcd' : columnsInclusion.le cs (ds₁ ++ ds₂) := by
      apply columns_le_of_le_cons hd hccols (hname ▸ hcfresh)
      intro x hx
      obtain ⟨y, hy, hxy⟩ := hcd x hx
      exact ⟨y, hperm.mem_iff.mp hy, hxy⟩
    have hdc' : columnsInclusion.le (ds₁ ++ ds₂) cs := by
      apply columns_le_of_le_cons hc hdcols (hname ▸ hdfresh)
      intro x hx
      exact hdc x (hperm.mem_iff.mpr (List.mem_cons_of_mem d hx))
    obtain ⟨ds', hperm', hforall⟩ := ih ⟨hccols, hcnodup⟩ ⟨hdcols, hdnodup⟩ hcd' hdc'
    exact ⟨d :: ds', hperm.trans (hperm'.cons d), .cons hsame hforall⟩

theorem sameMember_of_le {key : String} {v w : Value} (hv : (memberInclusion key).valid v)
    (hw : (memberInclusion key).valid w) (hvw : (memberInclusion key).le v w)
    (hwv : (memberInclusion key).le w v) : sameMember key v w := by
  unfold sameMember
  by_cases hkey : key = "columns"
  · simp only [memberInclusion, if_pos hkey] at hv hw hvw hwv ⊢
    obtain ⟨cs, rfl, hcs⟩ := hv
    obtain ⟨ds, rfl, hds⟩ := hw
    rw [Inclusion.wrap_le_iff] at hvw hwv
    exact ⟨cs, ds, rfl, rfl, sameColumns_of_le hcs hds hvw hwv⟩
  · simp only [memberInclusion, if_neg hkey] at hv hw hvw hwv ⊢
    exact Value.same_of_within hv hw hvw hwv

theorem keys_perm_of_le {I : String → Inclusion α} {es fs : Entries α}
    (hes : (Entries.keys es).Nodup) (hfs : (Entries.keys fs).Nodup)
    (hef : (Inclusion.entries I).le es fs) (hfe : (Inclusion.entries I).le fs es) :
    (Entries.keys es).Perm (Entries.keys fs) := by
  have hsub : ∀ {es fs : Entries α}, (Inclusion.entries I).le es fs →
      ∀ k, k ∈ Entries.keys es → k ∈ Entries.keys fs := by
    intro es fs hle k hk
    obtain ⟨a, ha⟩ := Entries.mem_keys_iff.mp hk
    obtain ⟨b, hb, -⟩ := hle k a ha
    exact Entries.mem_keys_of_get? hb
  exact (List.perm_ext_iff_of_nodup hes hfs).mpr fun k => ⟨hsub hef k, hsub hfe k⟩

/-- Declarations that include each other are equal but for the order of columns. -/
theorem Kind.alike_of_le (kind : Kind) {v w : Value} (hv : kind.inclusion.valid v)
    (hw : kind.inclusion.valid w) (hvw : kind.inclusion.le v w) (hwv : kind.inclusion.le w v) :
    kind.alike v w := by
  unfold alike
  unfold inclusion at hv hw hvw hwv
  by_cases hkind : kind.isColumned
  · simp only [if_pos hkind] at hv hw hvw hwv ⊢
    obtain ⟨es, rfl, hes⟩ := hv
    obtain ⟨fs, rfl, hfs⟩ := hw
    rw [Inclusion.wrap_le_iff] at hvw hwv
    refine ⟨es, fs, rfl, rfl, keys_perm_of_le hes.1 hfs.1 hvw hwv, ?_⟩
    intro k a b ha hb
    obtain ⟨b', hb', hab⟩ := hvw k a ha
    obtain ⟨a', ha', hba⟩ := hwv k b hb
    rw [hb] at hb'
    rw [ha] at ha'
    cases hb'
    cases ha'
    exact sameMember_of_le (hes.2 k a ha) (hfs.2 k b hb) hab hba
  · simp only [if_neg hkind] at hv hw hvw hwv ⊢
    exact Value.same_of_within hv hw hvw hwv

/-! ### Many declarations -/

/-- The merge, if it met no contradiction. -/
def Merged.agreed (m : Merged α) : Option α := if m.agrees then some m.value else none

/-- Declarations of a kind merged from left to right; nothing comes of none, nor of a
contradiction. -/
def mergeAll (kind : Kind) : List Value → Option Value
  | [] => none
  | v :: vs => vs.foldlM (fun e i => (mergeDeclared kind e i).agreed) v

theorem Merged.agreed_eq_some_iff {m : Merged α} {a : α} :
    m.agreed = some a ↔ m.agrees ∧ m.value = a := by
  unfold agreed
  by_cases h : m.agrees <;> simp [h]

/-- Merging into a declaration, one after the other. -/
theorem foldlM_merge_bounds (kind : Kind) {vs : List Value} (hvs : ∀ v ∈ vs, kind.inclusion.valid v)
    {e : Value} (he : kind.inclusion.valid e) :
    (∀ m, vs.foldlM (fun e i => (mergeDeclared kind e i).agreed) e = some m →
      kind.inclusion.valid m) ∧
    ∀ u, kind.inclusion.valid u →
      ((∃ m, vs.foldlM (fun e i => (mergeDeclared kind e i).agreed) e = some m ∧
        kind.inclusion.le m u) ↔ kind.inclusion.le e u ∧ ∀ v ∈ vs, kind.inclusion.le v u) := by
  induction vs generalizing e with
  | nil => simp [he]
  | cons v vs ih =>
    obtain ⟨hv, hvs⟩ := List.forall_mem_cons.mp hvs
    have hunion := isUnion_mergeDeclared kind he hv
    by_cases hagrees : (mergeDeclared kind e v).agrees
    · have hmerged : (mergeDeclared kind e v).agreed = some (mergeDeclared kind e v).value :=
        Merged.agreed_eq_some_iff.mpr ⟨hagrees, rfl⟩
      obtain ⟨hvalid, hbounds⟩ := ih hvs (hunion.valid hagrees)
      simp only [List.foldlM_cons, hmerged, Option.bind_eq_bind, Option.bind_some]
      refine ⟨hvalid, fun u hu => ?_⟩
      have hboth := hunion.bounds u hu
      rw [hbounds u hu, List.forall_mem_cons]
      tauto
    · have hmerged : (mergeDeclared kind e v).agreed = none := by
        simp [Merged.agreed, hagrees]
      simp only [List.foldlM_cons, hmerged, Option.bind_eq_bind, Option.bind_none]
      refine ⟨by simp, fun u hu => ?_⟩
      have hboth := hunion.bounds u hu
      rw [List.forall_mem_cons]
      refine iff_of_false (by simp) ?_
      tauto

/-- Declarations merge exactly when something includes them all, and into the least that
does. -/
theorem mergeAll_bounds (kind : Kind) {vs : List Value} (hvs : ∀ v ∈ vs, kind.inclusion.valid v)
    (hne : vs ≠ []) :
    (∀ m, mergeAll kind vs = some m → kind.inclusion.valid m) ∧
    ∀ u, kind.inclusion.valid u →
      ((∃ m, mergeAll kind vs = some m ∧ kind.inclusion.le m u) ↔
        ∀ v ∈ vs, kind.inclusion.le v u) := by
  cases vs with
  | nil => exact absurd rfl hne
  | cons v vs =>
    obtain ⟨hv, hvs⟩ := List.forall_mem_cons.mp hvs
    simp only [mergeAll, List.forall_mem_cons]
    exact foldlM_merge_bounds kind hvs hv

/-- The order in which declarations are merged does not count. -/
theorem mergeAll_perm (kind : Kind) {vs ws : List Value} (hvs : ∀ v ∈ vs, kind.inclusion.valid v)
    (hperm : vs.Perm ws) {m : Value} (hm : mergeAll kind vs = some m) :
    ∃ m', mergeAll kind ws = some m' ∧ kind.alike m m' := by
  have hne : vs ≠ [] := by
    rintro rfl
    cases hm
  have hws : ∀ v ∈ ws, kind.inclusion.valid v := fun v hv => hvs v (hperm.mem_iff.mpr hv)
  obtain ⟨hvalid, hbounds⟩ := mergeAll_bounds kind hvs hne
  obtain ⟨hvalid', hbounds'⟩ := mergeAll_bounds kind hws (fun h => hne (List.Perm.eq_nil (h ▸ hperm)))
  -- The merge includes all of them, so it includes their merge in the other order, and back.
  have hmv : kind.inclusion.valid m := hvalid m hm
  have hall : ∀ v ∈ vs, kind.inclusion.le v m :=
    (hbounds m hmv).mp ⟨m, hm, kind.inclusion.refl hmv⟩
  obtain ⟨m', hm', hle'⟩ := (hbounds' m hmv).mpr fun v hv => hall v (hperm.mem_iff.mpr hv)
  have hmv' : kind.inclusion.valid m' := hvalid' m' hm'
  have hall' : ∀ v ∈ ws, kind.inclusion.le v m' :=
    (hbounds' m' hmv').mp ⟨m', hm', kind.inclusion.refl hmv'⟩
  obtain ⟨m'', hm'', hle⟩ := (hbounds m' hmv').mpr fun v hv => hall' v (hperm.mem_iff.mp hv)
  rw [hm] at hm''
  cases hm''
  exact ⟨m', hm', kind.alike_of_le hmv hmv' hle hle'⟩

end SchemaLang
