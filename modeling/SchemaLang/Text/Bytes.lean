/-!
# Text measured in bytes

Positions in a source text count the bytes of its UTF-8 form, while the text
itself is read character by character.  This file holds the measure that joins
the two, and the three ways of cutting a text at a byte position.

## Main definitions

* `byteLength` — the number of bytes a text takes.
* `dropBytes?` — what follows a byte position, if it is a character boundary.
* `charsBefore` — the characters that start before a byte position.

## References

`SPEC_FULL.md`, section 3, position span: byte offsets into the source.
-/

namespace SchemaLang

/-- The number of bytes that a text takes in UTF-8. -/
def byteLength : List Char → Nat
  | [] => 0
  | c :: cs => c.utf8Size + byteLength cs

@[simp] theorem byteLength_nil : byteLength [] = 0 := rfl

@[simp] theorem byteLength_cons (c : Char) (cs : List Char) :
    byteLength (c :: cs) = c.utf8Size + byteLength cs := rfl

@[simp] theorem byteLength_append (as bs : List Char) :
    byteLength (as ++ bs) = byteLength as + byteLength bs := by
  induction as with
  | nil => simp
  | cons a as ih => simp [ih, Nat.add_assoc]

/-- What follows the first `n` bytes; `none` when `n` lies inside a character or
past the end. -/
def dropBytes? : Nat → List Char → Option (List Char)
  | 0, cs => some cs
  | _ + 1, [] => none
  | n + 1, c :: cs => if c.utf8Size ≤ n + 1 then dropBytes? (n + 1 - c.utf8Size) cs else none

@[simp] theorem dropBytes?_zero (cs : List Char) : dropBytes? 0 cs = some cs := by
  cases cs <;> rfl

/-- Dropping exactly the bytes of a leading part leaves the rest. -/
theorem dropBytes?_byteLength_append (as bs : List Char) :
    dropBytes? (byteLength as) (as ++ bs) = some bs := by
  induction as with
  | nil => simp
  | cons a as ih =>
    have ha := a.utf8Size_pos
    obtain ⟨n, hn⟩ : ∃ n, a.utf8Size + byteLength as = n + 1 :=
      Nat.exists_eq_add_one_of_ne_zero (by omega)
    have hle : a.utf8Size ≤ n + 1 := by omega
    have hsub : n + 1 - a.utf8Size = byteLength as := by omega
    simp only [byteLength_cons, List.cons_append, hn, dropBytes?, hle, if_true, hsub, ih]

/-- The characters that start before byte position `n`, all of them when `n` is
past the end. -/
def charsBefore : Nat → List Char → List Char
  | 0, _ => []
  | _ + 1, [] => []
  | n + 1, c :: cs => c :: charsBefore (n + 1 - c.utf8Size) cs

@[simp] theorem charsBefore_zero (cs : List Char) : charsBefore 0 cs = [] := by
  cases cs <;> rfl

end SchemaLang
