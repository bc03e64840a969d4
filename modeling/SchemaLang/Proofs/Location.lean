import SchemaLang.Proofs.Token.Tiling
import Mathlib.Data.List.DropRight
import Mathlib.Data.Prod.Lex
import Mathlib.Order.Bounds.Basic

/-!
# Line and column identify a place

The location of a byte position is where one gets by walking through all characters that start
before it.  A line break leads to the start of the next line and every other character one column
further, so each step goes up in the order that looks at lines first and at columns second.  Two
places between characters therefore never have the same location.

A position inside a character is passed together with the character, and all positions past the end
of the text are passed with its last one.

## Main definitions

* `Location.key` — line and column, in the order of reading.

## Main results

* `isLeast_byteLength_charsBefore` — how far the characters reach that start before a position.
* `Location.foldl_advance_origin` — where a walk through a text ends, counted in the text.
* `Location.key_lt_foldl_advance` — a walk goes up.
* `Location.ofPosition_exact` — **line and column identify a place between characters.**
-/

namespace SchemaLang

/-! ### The characters before a position -/

theorem charsBefore_cons {n : Nat} (h : 0 < n) (c : Char) (cs : List Char) :
    charsBefore n (c :: cs) = c :: charsBefore (n - c.utf8Size) cs := by
  cases n with
  | zero => exact absurd h (Nat.lt_irrefl 0)
  | succ n => rfl

/-- Between characters, the text is cut in two. -/
theorem charsBefore_byteLength (before after : List Char) :
    charsBefore (byteLength before) (before ++ after) = before := by
  induction before with
  | nil => exact charsBefore_zero after
  | cons c cs ih =>
    have hc := c.utf8Size_pos
    rw [List.cons_append, byteLength_cons, charsBefore_cons (by omega), Nat.add_sub_cancel_left, ih]

theorem charsBefore_of_past {n : Nat} {cs : List Char} (h : byteLength cs ≤ n) :
    charsBefore n cs = cs := by
  fun_induction charsBefore n cs with
  | case1 cs =>
    cases cs with
    | nil => rfl
    | cons c cs =>
      have hc := c.utf8Size_pos
      rw [byteLength_cons] at h
      omega
  | case2 => rfl
  | case3 n c cs ih =>
    rw [byteLength_cons] at h
    rw [ih (by omega)]

theorem exists_eq_charsBefore_append (n : Nat) (cs : List Char) :
    ∃ after, cs = charsBefore n cs ++ after := by
  fun_induction charsBefore n cs with
  | case1 cs => exact ⟨cs, rfl⟩
  | case2 => exact ⟨[], rfl⟩
  | case3 n c cs ih =>
    obtain ⟨after, hcs⟩ := ih
    exact ⟨after, congrArg (c :: ·) hcs⟩

/-- The characters that start before a position reach up to it. -/
theorem le_byteLength_charsBefore {n : Nat} {cs : List Char} (h : n ≤ byteLength cs) :
    n ≤ byteLength (charsBefore n cs) := by
  fun_induction charsBefore n cs with
  | case1 => exact Nat.zero_le _
  | case2 => exact h
  | case3 n c cs ih =>
    rw [byteLength_cons] at h ⊢
    have hrest := ih (by omega)
    omega

/-- They do not reach past a place between characters that is not before the position. -/
theorem byteLength_charsBefore_le {n : Nat} {before after : List Char} (h : n ≤ byteLength before) :
    byteLength (charsBefore n (before ++ after)) ≤ byteLength before := by
  induction before generalizing n with
  | nil =>
    obtain rfl : n = 0 := Nat.le_zero.mp h
    rw [charsBefore_zero]
  | cons c cs ih =>
    rw [byteLength_cons] at h
    by_cases hn : 0 < n
    · have hrest : byteLength (charsBefore (n - c.utf8Size) (cs ++ after)) ≤ byteLength cs :=
        ih (by omega)
      rw [List.cons_append, charsBefore_cons hn, byteLength_cons, byteLength_cons]
      omega
    · obtain rfl : n = 0 := by omega
      rw [charsBefore_zero]
      exact Nat.zero_le _

/-- The characters that start before a position of the text reach up to the first place between
characters that is not before it. -/
theorem isLeast_byteLength_charsBefore {source : List Char} {position : Nat}
    (h : position ≤ byteLength source) :
    IsLeast {q | IsBoundary source q ∧ position ≤ q}
      (byteLength (charsBefore position source)) := by
  refine ⟨⟨?_, le_byteLength_charsBefore h⟩, ?_⟩
  · obtain ⟨after, hsource⟩ := exists_eq_charsBefore_append position source
    exact ⟨_, after, hsource, rfl⟩
  · rintro q ⟨⟨before, after, rfl, rfl⟩, hle⟩
    exact byteLength_charsBefore_le hle

/-- Of two places between characters, some characters stand between them. -/
theorem IsBoundary.exists_between {source : List Char} {p q : Nat} (hp : IsBoundary source p)
    (hq : IsBoundary source q) (hlt : p < q) :
    ∃ before between after, source = before ++ between ++ after ∧ between ≠ [] ∧
      byteLength before = p ∧ byteLength (before ++ between) = q := by
  obtain ⟨before, rest, hsource, rfl⟩ := hp
  obtain ⟨before', rest', hsource', rfl⟩ := hq
  rcases List.append_eq_append_iff.mp (hsource.symm.trans hsource') with
    ⟨between, rfl, -⟩ | ⟨between, rfl, -⟩
  · refine ⟨before, between, rest', hsource', ?_, rfl, rfl⟩
    rintro rfl
    rw [List.append_nil] at hlt
    exact absurd hlt (Nat.lt_irrefl _)
  · rw [byteLength_append] at hlt
    omega

namespace Location

/-! ### Walking through a text -/

/-- Line and column, compared in this order. -/
def key (l : Location) : ℕ ×ₗ ℕ := toLex (l.line, l.column)

/-- Every character leads further. -/
theorem key_lt_advance (l : Location) (c : Char) : l.key < (l.advance c).key := by
  rw [key, key, Prod.Lex.toLex_lt_toLex, advance]
  split
  · exact .inl (Nat.lt_succ_self _)
  · exact .inr ⟨rfl, Nat.lt_succ_self _⟩

/-- A walk leads further if there is anything to walk through. -/
theorem key_lt_foldl_advance {text : List Char} (h : text ≠ []) (l : Location) :
    l.key < (text.foldl advance l).key := by
  induction text generalizing l with
  | nil => exact absurd rfl h
  | cons c cs ih =>
    rw [List.foldl_cons]
    by_cases hcs : cs = []
    · rw [hcs]
      exact key_lt_advance l c
    · exact (key_lt_advance l c).trans (ih hcs (l.advance c))

/-- A walk through a text from its start ends on the line that its line breaks lead to, behind the
characters that stand after the last of them. -/
theorem foldl_advance_origin (text : List Char) :
    text.foldl advance origin =
      ⟨1 + text.count '\n', 1 + (text.rtakeWhile (· ≠ '\n')).length⟩ := by
  induction text using List.reverseRecOn with
  | nil => rfl
  | append_singleton text c ih =>
    rw [List.foldl_concat, ih, advance, List.count_append]
    split
    · next hc =>
      subst hc
      rw [List.rtakeWhile_concat_neg _ _ _ (by decide)]
      rfl
    · next hc =>
      rw [List.rtakeWhile_concat_pos _ _ _ (by simpa using hc), List.length_append,
        List.count_singleton, if_neg (by simpa using hc)]
      rfl

/-! ### Locations of positions -/

/-- Between characters, the location is where the walk through the text before it ends. -/
theorem ofPosition_append (before after : List Char) :
    ofPosition (before ++ after) (byteLength before) = before.foldl advance origin := by
  rw [ofPosition, charsBefore_byteLength]

/-- Every position has the location of the place up to which its characters reach. -/
theorem ofPosition_byteLength_charsBefore (source : List Char) (position : Nat) :
    ofPosition source (byteLength (charsBefore position source)) = ofPosition source position := by
  obtain ⟨after, hsource⟩ := exists_eq_charsBefore_append position source
  have happend := ofPosition_append (charsBefore position source) after
  rwa [← hsource] at happend

theorem strictMonoOn_key_ofPosition (source : List Char) :
    StrictMonoOn (fun p => (ofPosition source p).key) {p | IsBoundary source p} := by
  intro p hp q hq hlt
  obtain ⟨before, between, after, rfl, hbetween, rfl, rfl⟩ := hp.exists_between hq hlt
  have hlast := ofPosition_append (before ++ between) after
  have hfirst := ofPosition_append before (between ++ after)
  rw [← List.append_assoc] at hfirst
  dsimp only
  rw [hfirst, hlast, List.foldl_append]
  exact key_lt_foldl_advance hbetween _

/-- **Line and column identify a place between characters.**  There, the line is one more than the
line breaks before it, and the column one more than the characters since the last of them; the
location goes up with the position, so that no two places share one.  Past the end, every position
has the location of the end, and a position inside a character has that of the next place between
characters. -/
theorem ofPosition_exact (source : List Char) :
    (∀ before after, source = before ++ after →
      ofPosition source (byteLength before) =
        ⟨1 + before.count '\n', 1 + (before.rtakeWhile (· ≠ '\n')).length⟩) ∧
    StrictMonoOn (fun p => (ofPosition source p).key) {p | IsBoundary source p} ∧
    Set.InjOn (ofPosition source) {p | IsBoundary source p} ∧
    (∀ p, byteLength source < p → ofPosition source p = ofPosition source (byteLength source)) ∧
    ∀ p ≤ byteLength source, ¬ IsBoundary source p →
      ∃ q, IsLeast {q | IsBoundary source q ∧ p < q} q ∧
        ofPosition source p = ofPosition source q := by
  refine ⟨?_, strictMonoOn_key_ofPosition source, ?_, ?_, ?_⟩
  · rintro before after rfl
    rw [ofPosition_append, foldl_advance_origin]
  · intro p hp q hq heq
    exact (strictMonoOn_key_ofPosition source).injOn hp hq (congrArg key heq)
  · intro p hpast
    have hreach := ofPosition_byteLength_charsBefore source p
    rw [charsBefore_of_past hpast.le] at hreach
    exact hreach.symm
  · intro p hle hinside
    obtain ⟨⟨hboundary, hreach⟩, hleast⟩ := isLeast_byteLength_charsBefore hle
    have hne : p ≠ byteLength (charsBefore p source) := by
      intro heq
      rw [← heq] at hboundary
      exact hinside hboundary
    refine ⟨_, ⟨⟨hboundary, lt_of_le_of_ne hreach hne⟩, ?_⟩,
      (ofPosition_byteLength_charsBefore source p).symm⟩
    rintro q ⟨hq, hlt⟩
    exact hleast ⟨hq, hlt.le⟩

/-- A letter of two bytes in front of a line break: a position inside the letter has the location
of the place behind it, the break leads further, and past the end nothing does. -/
theorem ofPosition_exact_inside :
    ofPosition "é\nb".toList 1 = ⟨1, 2⟩ ∧
      (ofPosition "é\nb".toList 2).key < (ofPosition "é\nb".toList 3).key ∧
      ofPosition "é\nb".toList 9 = ⟨2, 2⟩ := by
  obtain ⟨hcount, hmono, -, hpast, hinside⟩ := ofPosition_exact "é\nb".toList
  have htwo : IsBoundary "é\nb".toList 2 := ⟨"é".toList, "\nb".toList, rfl, by decide⟩
  have hthree : IsBoundary "é\nb".toList 3 := ⟨"é\n".toList, "b".toList, rfl, by decide⟩
  refine ⟨?_, hmono htwo hthree (by decide), ?_⟩
  · have hone : ¬ IsBoundary "é\nb".toList 1 := by
      rintro ⟨before, after, hsource, hlength⟩
      cases before with
      | nil => cases hlength
      | cons c cs =>
        obtain rfl : 'é' = c := (List.cons.inj hsource).1
        have hsize : 'é'.utf8Size = 2 := by decide
        rw [byteLength_cons, hsize] at hlength
        omega
    obtain ⟨q, ⟨⟨-, hlt⟩, hleast⟩, hq⟩ := hinside 1 (by decide) hone
    have hle : q ≤ 2 := hleast ⟨htwo, by decide⟩
    obtain rfl : q = 2 := by omega
    rw [hq]
    exact hcount "é".toList "\nb".toList rfl
  · rw [hpast 9 (by decide)]
    exact hcount "é\nb".toList [] rfl

end Location

end SchemaLang
