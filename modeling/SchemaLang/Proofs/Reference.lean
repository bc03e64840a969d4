import SchemaLang.Reference
import Mathlib.Logic.Function.Basic

/-!
# References and written strings never meet

A string that starts with dollar signs and a brace gets one dollar sign more when it is
written out, so that two of them stand in front; a reference starts with a single one.  The
dollar sign that was put in front can be told again, since without it there is still one.

So one dollar sign and a brace are what no string that was written out starts with, and nothing
else is: every other string is what exactly one string is written out as.

## Main results

* `referenceChars?_eq_some_iff` — what a reference is made of.
* `referenceName?_placeholder` — a reference is read as the name it was made of.
* `referenceName?_escape` — a string that was written out is never read as a reference.
* `unescape_escape` — it is read as it was.
* `exists_escape_eq_iff` — which strings are written out strings.
* `encodings_apart` — **references and strings that were written out can always be told apart.**
-/

namespace SchemaLang

/-! ### Texts -/

/-- A reference is a name that is not empty, between its marks. -/
theorem referenceChars?_eq_some_iff {cs name : List Char} :
    referenceChars? cs = some name ↔ name ≠ [] ∧ cs = '$' :: '{' :: (name ++ ['}']) := by
  constructor
  · intro h
    unfold referenceChars? at h
    split at h
    · rename_i rest
      split at h
      · rename_i hc
        obtain ⟨hlast, hname⟩ := hc
        cases h
        refine ⟨hname, ?_⟩
        rw [List.getLast?_eq_some_iff] at hlast
        obtain ⟨front, rfl⟩ := hlast
        rw [List.dropLast_concat]
      · cases h
    · cases h
  · rintro ⟨hname, rfl⟩
    have hclosed : (name ++ ['}']).getLast? = some '}' ∧ (name ++ ['}']).dropLast ≠ [] := by
      rw [List.getLast?_concat, List.dropLast_concat]
      exact ⟨rfl, hname⟩
    rw [referenceChars?, if_pos hclosed, List.dropLast_concat]

/-- Behind the first dollar sign there is the brace, or there are more dollar signs before it. -/
theorem isDollarBrace_cons_iff {cs : List Char} :
    isDollarBrace ('$' :: cs) = true ↔ cs.head? = some '{' ∨ isDollarBrace cs = true := by
  cases cs with
  | nil => simp [isDollarBrace]
  | cons c cs =>
    by_cases hc : c = '$'
    · simp [isDollarBrace, hc]
    · simp [isDollarBrace, hc]

/-- What was written out starts with two dollar signs, or not with a dollar sign and a brace. -/
theorem escapeChars_ne (cs rest : List Char) : escapeChars cs ≠ '$' :: '{' :: rest := by
  intro hcs
  by_cases hd : isDollarBrace cs = true
  · rw [escapeChars, if_pos hd] at hcs
    cases hcs
    simp [isDollarBrace] at hd
  · rw [escapeChars, if_neg hd] at hcs
    subst hcs
    exact hd rfl

/-- What was written out is no reference. -/
theorem referenceChars?_escapeChars (cs : List Char) : referenceChars? (escapeChars cs) = none := by
  rw [Option.eq_none_iff_forall_ne_some]
  intro name h
  rw [referenceChars?_eq_some_iff] at h
  exact escapeChars_ne cs _ h.2

/-- What was written out is read as it was. -/
theorem unescapeChars_escapeChars (cs : List Char) : unescapeChars (escapeChars cs) = cs := by
  by_cases hd : isDollarBrace cs = true
  · rw [escapeChars, if_pos hd, unescapeChars, if_pos hd]
  · rw [escapeChars, if_neg hd]
    unfold unescapeChars
    split
    · rename_i rest
      have hrest : ¬ isDollarBrace rest = true := fun h => hd (isDollarBrace_cons_iff.mpr (.inr h))
      rw [if_neg hrest]
    · rfl

/-- What does not start with a dollar sign and a brace was written out for what it is read as. -/
theorem escapeChars_unescapeChars {cs : List Char} (h : ∀ rest, cs ≠ '$' :: '{' :: rest) :
    escapeChars (unescapeChars cs) = cs := by
  unfold unescapeChars
  split
  · rename_i rest
    by_cases hrest : isDollarBrace rest = true
    · rw [if_pos hrest, escapeChars, if_pos hrest]
    · -- the one dollar sign was there before, and no brace follows it
      have hd : ¬ isDollarBrace ('$' :: rest) = true := by
        intro hd
        rcases isDollarBrace_cons_iff.mp hd with hbrace | hd'
        · obtain ⟨rest', rfl⟩ := List.head?_eq_some_iff.mp hbrace
          exact h rest' rfl
        · exact hrest hd'
      rw [if_neg hrest, escapeChars, if_neg hd]
  · rename_i hdollar
    have hd : ¬ isDollarBrace cs = true := by
      intro hd
      simp only [isDollarBrace, Bool.and_eq_true, beq_iff_eq] at hd
      obtain ⟨rest, rfl⟩ := List.head?_eq_some_iff.mp hd.1
      exact hdollar rest rfl
    rw [escapeChars, if_neg hd]

/-! ### Strings -/

theorem placeholder_toList (name : String) :
    (placeholder name).toList = '$' :: '{' :: (name.toList ++ ['}']) := by
  simp [placeholder]

/-- A reference is a name that is not empty, between its marks. -/
theorem referenceName?_eq_some_iff {s name : String} :
    referenceName? s = some name ↔ name ≠ "" ∧ s = placeholder name := by
  have hname : name ≠ "" ↔ name.toList ≠ [] := by simp
  have hs : s = placeholder name ↔ s.toList = '$' :: '{' :: (name.toList ++ ['}']) := by
    rw [← placeholder_toList, String.toList_inj]
  rw [hname, hs, ← referenceChars?_eq_some_iff, referenceName?, Option.map_eq_some_iff]
  constructor
  · rintro ⟨cs, hcs, rfl⟩
    rw [hcs, String.toList_ofList]
  · intro hcs
    exact ⟨name.toList, hcs, String.ofList_toList⟩

/-- A reference is read as the name it was made of. -/
theorem referenceName?_placeholder {name : String} (h : name ≠ "") :
    referenceName? (placeholder name) = some name :=
  referenceName?_eq_some_iff.mpr ⟨h, rfl⟩

/-- A string that was written out is never read as a reference. -/
theorem referenceName?_escape (s : String) : referenceName? (escape s) = none := by
  rw [referenceName?, escape, String.toList_ofList, referenceChars?_escapeChars, Option.map_none]

/-- A string that was written out is read as it was. -/
theorem unescape_escape (s : String) : unescape (escape s) = s := by
  rw [unescape, escape, String.toList_ofList, unescapeChars_escapeChars, String.ofList_toList]

/-- A reference is no string with a dollar sign in front that could be taken away. -/
theorem unescape_placeholder (name : String) : unescape (placeholder name) = placeholder name := by
  have hbrace : ¬ isDollarBrace ('{' :: (name.toList ++ ['}'])) = true := by simp [isDollarBrace]
  rw [unescape, placeholder_toList, unescapeChars, if_neg hbrace, ← placeholder_toList,
    String.ofList_toList]

/-- What a string that was written out cannot start with is a dollar sign and a brace. -/
theorem exists_escape_eq_iff {w : String} :
    (∃ s, escape s = w) ↔ ¬ "$\x7b".toList <+: w.toList := by
  constructor
  · rintro ⟨s, rfl⟩ ⟨rest, hrest⟩
    have hchars : (escape s).toList = '$' :: '{' :: rest := hrest.symm
    rw [escape, String.toList_ofList] at hchars
    exact escapeChars_ne s.toList rest hchars
  · intro h
    have hstart : ∀ rest, w.toList ≠ '$' :: '{' :: rest := fun rest hrest => h ⟨rest, hrest.symm⟩
    refine ⟨unescape w, ?_⟩
    rw [escape, unescape, String.toList_ofList, escapeChars_unescapeChars hstart,
      String.ofList_toList]

/-- **References and strings that were written out can always be told apart.**  A string that was
written out is read as what it was and never as a reference, so no two strings are written out the
same; a reference is what is made of a name that is not empty, and it is not changed when written
strings are read; and the strings that something is written out as, which are those that do not
start with a dollar sign and a brace, are the ones that come back when what they are read as is
written out. -/
theorem encodings_apart (s w name : String) :
    referenceName? (escape s) = none ∧
    unescape (escape s) = s ∧
    Function.Injective escape ∧
    (referenceName? w = some name ↔ name ≠ "" ∧ w = placeholder name) ∧
    unescape (placeholder name) = placeholder name ∧
    ((∃ literal, escape literal = w) ↔ ¬ "$\x7b".toList <+: w.toList) ∧
    ((∃ literal, escape literal = w) ↔ escape (unescape w) = w) := by
  refine ⟨referenceName?_escape s, unescape_escape s, ?_, referenceName?_eq_some_iff,
    unescape_placeholder name, exists_escape_eq_iff, ?_, ?_⟩
  · exact Function.LeftInverse.injective unescape_escape
  · rintro ⟨literal, rfl⟩
    rw [unescape_escape]
  · intro h
    exact ⟨unescape w, h⟩

end SchemaLang
