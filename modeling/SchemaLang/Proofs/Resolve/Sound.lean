import SchemaLang.Proofs.Resolve.Inert
import SchemaLang.Proofs.Resolve.Memo

/-!
# Resolving twice

A configuration is sound when every section has distinct names that stand for regular objects.
Its final form is sound again, so that it can be resolved once more.  This gives the same final
form exactly when no string in it that may be a reference is one, and none of them stands for
a string with a dollar sign less.

## Main definitions

* `Kind.form` — where references may stand in the entries of a kind.
* `Entries.Sound`, `Config.Sound` — distinct names that stand for regular objects.
* `FinalConfig.strings` — the strings that may be references.

## Main results

* `Config.Sound.resolve` — the final form of a sound configuration is sound.
* `FinalConfig.resolve_eq_self_iff` — when resolving again changes nothing.
* `FinalConfig.resolve_same_iff` — the same up to order.
-/

namespace SchemaLang

/-! ### Kinds of the final form -/

namespace Kind

/-- Where references may stand in the entries of a kind. -/
def form : Kind → Value → Target
  | .type | .model => .columned
  | .enum | .prop | .plugin => .whole

theorem value_form (kind : Kind) (v : Value) : (kind.form v).value = v := by
  cases kind <;> rfl

/-- The final form has a section of every kind but props. -/
theorem forall_ne_prop_iff {P : Kind → Prop} :
    (∀ kind, kind ≠ .prop → P kind) ↔ P .type ∧ P .model ∧ P .enum ∧ P .plugin := by
  constructor
  · intro h
    exact ⟨h .type (by decide), h .model (by decide), h .enum (by decide), h .plugin (by decide)⟩
  · rintro ⟨htype, hmodel, henum, hplugin⟩ kind hkind
    cases kind with
    | prop => exact absurd rfl hkind
    | _ => assumption

end Kind

/-! ### Sound sections -/

/-- Distinct names that stand for regular objects. -/
structure Entries.Sound (es : Entries Value) : Prop where
  regular : (Value.obj es).Regular
  objects : ∀ k v, Entries.get? es k = some v → ∃ ms, v = .obj ms

namespace Entries.Sound

theorem nil : Entries.Sound [] where
  regular := .obj [] .nil (by simp)
  objects := by simp

theorem record {es : Entries Value} (h : Entries.Sound es) {k : String} {v : Value}
    (hv : Entries.get? es k = some v) : v.IsRecord := by
  refine ⟨?_, h.objects k v hv⟩
  cases h.regular with
  | obj _ _ members => exact members k v hv

/-- Replacing references keeps a section sound. -/
theorem inlineEntries {find : String → Except CompileError Value}
    (hfind : ∀ n v, find n = .ok v → v.IsRecord) {kind : Kind} {es fs : Entries Value}
    (h : Entries.Sound es) (hfs : Target.inlineEntries kind.form find es = .ok fs) :
    Entries.Sound fs where
  regular := by
    refine (Target.replaces_inlineEntries hfind kind.value_form es).regular h.regular ?_
    rw [hfs]
    rfl
  objects k w hw := by
    have hentry := @Entries.get?_of_mapM Value es fs (fun v => (kind.form v).inline find) hfs k w
    obtain ⟨v, hv, hvw⟩ := hentry.mp hw
    obtain ⟨ms, hms⟩ := h.objects k v hv
    exact ((kind.form v).replaces_inline hfind).object ⟨ms, (kind.value_form v).trans hms⟩ hvw

end Entries.Sound

/-! ### Sound configurations -/

namespace Config

variable {c : Config} {f : FinalConfig}

/-- Every section is sound. -/
def Sound (c : Config) : Prop := ∀ kind, Entries.Sound (c.sectionOf kind)

/-- The sections of a final form one by one. -/
theorem inline_eq_ok_iff {find : String → Except CompileError Value} :
    c.inline find = .ok f ↔ ∀ kind, kind ≠ .prop →
      Target.inlineEntries kind.form find (c.sectionOf kind) = .ok (f.toConfig.sectionOf kind) := by
  rw [Kind.forall_ne_prop_iff]
  simp only [inline, Except.bind_eq_ok_iff, Except.map_eq_ok_iff]
  constructor
  · rintro ⟨types, ht, models, hm, enums, he, plugins, hp, rfl⟩
    exact ⟨ht, hm, he, hp⟩
  · rintro ⟨ht, hm, he, hp⟩
    exact ⟨f.types, ht, f.models, hm, f.enums, he, f.plugins, hp, rfl⟩

theorem resolve_eq_ok_iff :
    c.resolve = .ok f ↔ ∀ kind, kind ≠ .prop →
      Target.inlineEntries kind.form (c.plain []) (c.sectionOf kind) =
        .ok (f.toConfig.sectionOf kind) := by
  rw [resolve_eq_resolvePlain, resolvePlain, inline_eq_ok_iff]

namespace Sound

theorem target {n : String} {t : Target} (h : c.Sound) (ht : c.target? n = some t) :
    t.value.IsRecord := by
  unfold target? at ht
  split at ht
  · rename_i v hv
    cases ht
    exact (h .prop).record hv
  · rename_i v _ hv
    cases ht
    exact (h .enum).record hv
  · rename_i v _ _ hv
    cases ht
    exact (h .type).record hv
  · cases ht

/-- A name that can be resolved stands for a regular object. -/
theorem plain (h : c.Sound) (opened : List String) (n : String) :
    ∀ v, c.plain opened n = .ok v → v.IsRecord := by
  induction opened, n using plain.induct c with
  | case1 opened n hn =>
    intro v hv
    rw [plain_of_mem hn] at hv
    cases hv
  | case2 opened n hn ht =>
    intro v hv
    rw [plain_of_undefined hn ht] at hv
    cases hv
  | case3 opened n hn t ht ih =>
    intro v hv
    rw [plain_of_target hn ht] at hv
    exact (t.replaces_inline ih).record (h.target ht) hv

/-- The final form of a sound configuration is sound. -/
theorem resolve (h : c.Sound) (hf : c.resolve = .ok f) : f.toConfig.Sound := by
  rw [resolve_eq_ok_iff] at hf
  intro kind
  by_cases hkind : kind = .prop
  · rw [hkind]
    exact .nil
  · exact (h kind).inlineEntries (h.plain []) (hf kind hkind)

end Sound

end Config

/-! ### Resolving a final form -/

namespace FinalConfig

/-- The strings that may be references: those in the attributes of types and models and of
their columns, and all of enums and plugins. -/
def strings (f : FinalConfig) : List String :=
  Target.entryStrings .columned f.types ++ (Target.entryStrings .columned f.models ++
    (Target.entryStrings .whole f.enums ++ Target.entryStrings .whole f.plugins))

variable {f g : FinalConfig}

theorem forall_mem_strings_iff {P : String → Prop} :
    (∀ s ∈ f.strings, P s) ↔ ∀ kind, kind ≠ .prop →
      ∀ s ∈ Target.entryStrings kind.form (f.toConfig.sectionOf kind), P s := by
  rw [Kind.forall_ne_prop_iff]
  simp only [strings, List.forall_mem_append]
  exact Iff.rfl

theorem same_iff :
    f.same g ↔ ∀ kind, kind ≠ .prop →
      Entries.same (f.toConfig.sectionOf kind) (g.toConfig.sectionOf kind) := by
  rw [Kind.forall_ne_prop_iff]
  simp only [same, Bool.and_eq_true]
  constructor
  · rintro ⟨⟨⟨hplugins, henums⟩, htypes⟩, hmodels⟩
    exact ⟨htypes, hmodels, henums, hplugins⟩
  · rintro ⟨htypes, hmodels, henums, hplugins⟩
    exact ⟨⟨⟨hplugins, henums⟩, htypes⟩, hmodels⟩

variable (h : f.toConfig.Sound)

include h

theorem same_refl : f.same f := by
  rw [same_iff]
  intro kind _
  exact Value.same_refl (h kind).regular

theorem resolve_of_inert (hs : ∀ s ∈ f.strings, Inert s) : f.toConfig.resolve = .ok f := by
  rw [forall_mem_strings_iff] at hs
  rw [Config.resolve_eq_ok_iff]
  intro kind hkind
  have hreplaces := Target.replaces_inlineEntries (h.plain []) kind.value_form
    (f.toConfig.sectionOf kind)
  obtain ⟨es, hes, heq⟩ := Except.map_eq_ok_iff.mp (hreplaces.fixed (hs kind hkind))
  cases heq
  exact hes

theorem inert_of_resolve (hg : f.toConfig.resolve = .ok g) (hsame : g.same f) :
    ∀ s ∈ f.strings, Inert s := by
  rw [Config.resolve_eq_ok_iff] at hg
  rw [same_iff] at hsame
  rw [forall_mem_strings_iff]
  intro kind hkind
  have hreplaces := Target.replaces_inlineEntries (h.plain []) kind.value_form
    (f.toConfig.sectionOf kind)
  refine hreplaces.inert (h kind).regular ?_ (hsame kind hkind)
  rw [hg kind hkind]
  rfl

/-- Resolving a final form gives one that is equal to it exactly when all strings that may be
references are inert. -/
theorem resolve_same_iff :
    (∃ g, f.toConfig.resolve = .ok g ∧ g.same f) ↔ ∀ s ∈ f.strings, Inert s := by
  constructor
  · rintro ⟨g, hg, hsame⟩
    exact inert_of_resolve h hg hsame
  · intro hs
    exact ⟨f, resolve_of_inert h hs, same_refl h⟩

/-- What is equal up to order is then also in the same order. -/
theorem resolve_eq_self_iff : f.toConfig.resolve = .ok f ↔ ∀ s ∈ f.strings, Inert s :=
  ⟨fun hf => inert_of_resolve h hf (same_refl h), resolve_of_inert h⟩

end FinalConfig

end SchemaLang
