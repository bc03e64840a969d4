import SchemaLang.Proofs.Value.Equality

/-!
# Inclusion of values

An object is included in another when each of its members is included in one of the same
name; anything else is included only in its equal.  So a value is included in another when
the other says all it says, and maybe more.  Merging will turn out to be the least upper
bound of this order, for values and, with columns known by their names, for declarations.

Each of the orders here is a preorder on the values of some form, and comes as an
`Inclusion`, which carries the form and the two laws.

## Main definitions

* `Inclusion` — a preorder on what is of some form.
* `Inclusion.entries`, `Inclusion.wrap` — entries name by name, and a preorder within values.
* `Value.within`, `Value.inclusion` — inclusion of values.

## Main results

* `Value.same_of_within` — values that include each other are equal.
-/

namespace SchemaLang

/-- A preorder on what is of some form. -/
structure Inclusion (α : Type) where
  /-- The form that is required. -/
  valid : α → Prop
  /-- One is included in the other. -/
  le : α → α → Prop
  refl : ∀ {a}, valid a → le a a
  trans : ∀ {a b c}, valid a → valid b → valid c → le a b → le b c → le a c

namespace Inclusion

variable {α β : Type}

/-- Entries with distinct names, each of the form for its name; each one is included in one
of the same name. -/
def entries (I : String → Inclusion α) : Inclusion (Entries α) where
  valid es := (Entries.keys es).Nodup ∧ ∀ k a, Entries.get? es k = some a → (I k).valid a
  le es fs := ∀ k a, Entries.get? es k = some a → ∃ b, Entries.get? fs k = some b ∧ (I k).le a b
  refl h k a ha := ⟨a, ha, (I k).refl (h.2 k a ha)⟩
  trans {es fs gs} hes hfs hgs hef hfg k a ha := by
    obtain ⟨b, hb, hab⟩ := hef k a ha
    obtain ⟨c, hc, hbc⟩ := hfg k b hb
    exact ⟨c, hc, (I k).trans (hes.2 k a ha) (hfs.2 k b hb) (hgs.2 k c hc) hab hbc⟩

/-- A preorder on what is of the form `f a`. -/
def wrap (I : Inclusion α) (f : α → β) (hf : Function.Injective f) : Inclusion β where
  valid b := ∃ a, b = f a ∧ I.valid a
  le b c := ∃ a a', b = f a ∧ c = f a' ∧ I.le a a'
  refl := by
    rintro _ ⟨a, rfl, ha⟩
    exact ⟨a, a, rfl, rfl, I.refl ha⟩
  trans := by
    rintro _ _ _ ⟨a, rfl, ha⟩ ⟨b, rfl, hb⟩ ⟨c, rfl, hc⟩ ⟨a', b', ea, eb, hab⟩ ⟨b'', c', eb', ec, hbc⟩
    rw [← hf ea, ← hf eb] at hab
    rw [← hf eb', ← hf ec] at hbc
    exact ⟨a, c, rfl, rfl, I.trans ha hb hc hab hbc⟩

theorem wrap_le_iff {I : Inclusion α} {f : α → β} {hf : Function.Injective f} {a b : α} :
    (I.wrap f hf).le (f a) (f b) ↔ I.le a b := by
  constructor
  · rintro ⟨a', b', ea, eb, h⟩
    rwa [hf ea, hf eb]
  · intro h
    exact ⟨a, b, rfl, rfl, h⟩

end Inclusion

namespace Value

mutual

/-- Whether a value is included in another. -/
def within : Value → Value → Bool
  | .obj es, .obj fs => withinMembers es fs
  | v, w => v.same w

/-- Whether every member of the first object is included in one of the second. -/
def withinMembers : List (String × Value) → List (String × Value) → Bool
  | [], _ => true
  | (k, v) :: es, fs =>
    (match Entries.get? fs k with
      | some w => within v w
      | none => false) && withinMembers es fs

end

variable {u v w : Value} {es fs : List (String × Value)}

theorem withinMembers_iff :
    withinMembers es fs ↔ ∀ e ∈ es, ∃ w, Entries.get? fs e.1 = some w ∧ e.2.within w := by
  induction es with
  | nil => simp [withinMembers]
  | cons e es ih =>
    obtain ⟨k, v⟩ := e
    rw [withinMembers, Bool.and_eq_true, ih, List.forall_mem_cons]
    refine and_congr_left fun _ => ?_
    cases Entries.get? fs k <;> simp

theorem within_obj_iff (he : (Entries.keys es).Nodup) :
    (obj es).within (obj fs) ↔
      ∀ k v, Entries.get? es k = some v → ∃ w, Entries.get? fs k = some w ∧ v.within w := by
  rw [within, withinMembers_iff]
  constructor
  · intro h k v hv
    exact h (k, v) (Entries.mem_of_get? hv)
  · rintro h ⟨k, v⟩ hmem
    exact h k v (Entries.get?_of_mem he hmem)

/-- Nothing but an object is included in an object. -/
theorem eq_obj_of_within (h : v.within (obj fs)) : ∃ es, v = obj es := by
  cases v with
  | obj es => exact ⟨es, rfl⟩
  | _ => simp [within, same] at h

/-- Only its equals are included in what is no object. -/
theorem within_eq_same (hw : ∀ fs, w ≠ obj fs) (v : Value) : v.within w = v.same w := by
  cases v with
  | obj es =>
    cases w with
    | obj fs => exact absurd rfl (hw fs)
    | _ => rfl
  | _ => rfl

theorem within_of_same (hv : v.Regular) (hw : w.Regular) (h : v.same w) : v.within w := by
  induction hv generalizing w with
  | obj es distinct _ ih =>
    cases hw with
    | obj fs distinct' members =>
      obtain ⟨hkeys, hsame⟩ := (same_obj_iff distinct distinct').mp h
      rw [within_obj_iff distinct]
      intro k v hv
      obtain ⟨w, hw⟩ := Entries.mem_keys_iff.mp ((hkeys k).mp (Entries.mem_keys_of_get? hv))
      exact ⟨w, hw, ih k v hv (members k w hw) (hsame k v w hv hw)⟩
    | _ => simp [same] at h
  | _ => exact h

theorem within_trans (hu : u.Regular) (hv : v.Regular) (hw : w.Regular) (huv : u.within v)
    (hvw : v.within w) : u.within w := by
  induction hu generalizing v w with
  | obj es distinct _ ih =>
    cases hv with
    | obj fs distinct' members =>
      cases hw with
      | obj gs distinct'' members' =>
        rw [within_obj_iff distinct] at huv ⊢
        rw [within_obj_iff distinct'] at hvw
        intro k u hu
        obtain ⟨v, hv, huv⟩ := huv k u hu
        obtain ⟨w, hw, hvw⟩ := hvw k v hv
        exact ⟨w, hw, ih k u hu (members k v hv) (members' k w hw) huv hvw⟩
      | _ => simp [within, same] at hvw
    | _ => simp [within, same] at huv
  | _ =>
    -- Nothing above a value that is no object is one.
    have hno : ∀ {x y : Value} (gs), (∀ fs, x ≠ obj fs) → x.within y → y ≠ obj gs := by
      rintro x y gs hx hxy rfl
      obtain ⟨fs, rfl⟩ := eq_obj_of_within hxy
      exact hx fs rfl
    have hv' : ∀ fs, v ≠ obj fs := fun fs => hno fs (by simp) huv
    have hw' : ∀ fs, w ≠ obj fs := fun fs => hno fs hv' hvw
    rw [within_eq_same hv'] at huv
    rw [within_eq_same hw'] at hvw ⊢
    exact same_trans (by constructor <;> assumption) hv hw huv hvw

/-- Values that include each other are equal. -/
theorem same_of_within (hv : v.Regular) (hw : w.Regular) (hvw : v.within w) (hwv : w.within v) :
    v.same w := by
  induction hv generalizing w with
  | obj es distinct _ ih =>
    cases hw with
    | obj fs distinct' members =>
      rw [within_obj_iff distinct] at hvw
      rw [within_obj_iff distinct'] at hwv
      refine (same_obj_iff distinct distinct').mpr ⟨fun k => ⟨fun hk => ?_, fun hk => ?_⟩, ?_⟩
      · obtain ⟨v, hv⟩ := Entries.mem_keys_iff.mp hk
        obtain ⟨w, hw, -⟩ := hvw k v hv
        exact Entries.mem_keys_of_get? hw
      · obtain ⟨w, hw⟩ := Entries.mem_keys_iff.mp hk
        obtain ⟨v, hv, -⟩ := hwv k w hw
        exact Entries.mem_keys_of_get? hv
      · intro k v w hv hw
        obtain ⟨w', hw', hvw⟩ := hvw k v hv
        obtain ⟨v', hv', hwv⟩ := hwv k w hw
        rw [hw] at hw'
        rw [hv] at hv'
        cases hw'
        cases hv'
        exact ih k v hv (members k w hw) hvw hwv
    | _ => simp [within, same] at hvw
  | _ => exact hvw

/-- Inclusion of regular values. -/
def inclusion : Inclusion Value where
  valid := Regular
  le v w := v.within w
  refl h := within_of_same h h (same_refl h)
  trans := within_trans

theorem inclusion_le_obj_iff (he : (Entries.keys es).Nodup) :
    inclusion.le (obj es) (obj fs) ↔ (Inclusion.entries fun _ => inclusion).le es fs :=
  within_obj_iff he

theorem inclusion_valid_obj_iff :
    inclusion.valid (obj es) ↔ (Inclusion.entries fun _ => inclusion).valid es := by
  constructor
  · rintro ⟨⟩
    rename_i distinct members
    exact ⟨distinct, members⟩
  · rintro ⟨distinct, members⟩
    exact .obj es distinct members

end Value

end SchemaLang
