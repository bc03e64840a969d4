/-!
# Named entries in order

A list of names with what they stand for, in the order in which the names came
first.  Giving a name again replaces what it stands for and leaves it in its place.

## Main definitions

* `Entries` — names with what they stand for.
* `Entries.get?`, `Entries.insert`, `Entries.keys` — looking up, putting in, listing.

## Main results

* `Entries.get?_insert` — what is found after putting in.
* `Entries.keys_insert` — a new name comes last, a known one stays.

## References

`SPEC_FULL.md`, section 10.4, maps that preserve order, and section 10.3, `ImportSources`.
-/

namespace SchemaLang

/-- Names with what they stand for. -/
abbrev Entries (α : Type) : Type := List (String × α)

namespace Entries

variable {α : Type}

/-- What the first entry with a name stands for. -/
def get? : Entries α → String → Option α
  | [], _ => none
  | (k, a) :: es, key => if k = key then some a else get? es key

/-- Puts an entry in: in the place of the first one with its name, else at the end. -/
def insert : Entries α → String → α → Entries α
  | [], key, b => [(key, b)]
  | (k, a) :: es, key, b => if k = key then (k, b) :: es else (k, a) :: insert es key b

/-- The names in order. -/
def keys (es : Entries α) : List String := es.map (·.1)

/-- Whether there is an entry with a name. -/
def contains (es : Entries α) (key : String) : Bool := (get? es key).isSome

/-- Entries put in one after the other. -/
def ofList (es : List (String × α)) : Entries α := es.foldl (fun acc e => insert acc e.1 e.2) []

@[simp] theorem get?_nil (key : String) : get? ([] : Entries α) key = none := rfl

theorem get?_cons (k : String) (a : α) (es : Entries α) (key : String) :
    get? ((k, a) :: es) key = if k = key then some a else get? es key := rfl

@[simp] theorem keys_nil : keys ([] : Entries α) = [] := rfl

@[simp] theorem keys_cons (e : String × α) (es : Entries α) : keys (e :: es) = e.1 :: keys es := rfl

theorem get?_insert (es : Entries α) (key : String) (b : α) (name : String) :
    get? (insert es key b) name = if key = name then some b else get? es name := by
  induction es with
  | nil => rfl
  | cons e es ih =>
    obtain ⟨k, a⟩ := e
    by_cases hk : k = key
    · subst hk
      by_cases hn : k = name <;> simp [insert, get?_cons, hn]
    · by_cases hn : k = name
      · subst hn
        simp [insert, get?_cons, hk, Ne.symm hk]
      · simp [insert, get?_cons, hk, hn, ih]

theorem get?_eq_none_iff {es : Entries α} {key : String} : get? es key = none ↔ key ∉ keys es := by
  induction es with
  | nil => simp
  | cons e es ih =>
    obtain ⟨k, a⟩ := e
    by_cases hk : k = key
    · simp [get?_cons, hk]
    · simp [get?_cons, hk, ih, Ne.symm hk]

theorem keys_insert (es : Entries α) (key : String) (b : α) :
    keys (insert es key b) = if key ∈ keys es then keys es else keys es ++ [key] := by
  induction es with
  | nil => simp [insert]
  | cons e es ih =>
    obtain ⟨k, a⟩ := e
    by_cases hk : k = key
    · simp [insert, hk]
    · by_cases hm : key ∈ keys es <;> simp [insert, hk, hm, ih, Ne.symm hk]

end Entries

end SchemaLang
