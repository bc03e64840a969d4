import SchemaLang.Proofs.Token.Tiling
import Mathlib.Data.List.TakeWhile

/-!
# The lexical rules

What a token may look like, and what may follow it, as a relation between its characters, its
content and the rest of the text.  The scanner reads exactly the tokens of these rules.  A rule
never looks further than at the next two characters, and the end of the text ends every token;
so it can be told which texts may take the place of the rest without changing the token before
it.

Two rules need the end of the text: a string or a block comment that is never closed runs up to
it.  Both are no token of the language.

## Main definitions

* `Scans` — the lexical rules.

## Main results

* `Piece.scans_first`, `Scans.first_eq` — **the scanner reads by the lexical rules.**
* `Scans.shorten` — the text behind a token can be cut short.
* `Scans.before_newline` — a token of the language can be followed by a line break.
* `Token.stream_lexemes` — some tokens of a text, by themselves.
* `Token.code_newline` — two texts on lines of their own.
-/

namespace SchemaLang

/-! ### Runs of characters -/

/-- A text does not go on with a character that satisfies `p`. -/
def StopsAt (p : Char → Bool) (rest : List Char) : Prop := ∀ c ∈ rest.head?, p c = false

theorem stopsAt_nil (p : Char → Bool) : StopsAt p [] := by simp [StopsAt]

theorem stopsAt_cons {p : Char → Bool} {c : Char} {cs : List Char} (h : p c = false) :
    StopsAt p (c :: cs) := by
  intro d hd
  rw [List.head?_cons, Option.mem_def, Option.some.injEq] at hd
  rw [← hd, h]

theorem stopsAt_dropWhile (p : Char → Bool) (cs : List Char) : StopsAt p (cs.dropWhile p) := by
  intro c hc
  rw [Option.mem_def] at hc
  have hhead := List.head?_dropWhile_not p cs
  rw [hc] at hhead
  simpa using hhead

/-- The end of the rest does not count, as long as something is left of it. -/
theorem StopsAt.append {p : Char → Bool} {rest : List Char} (h : StopsAt p rest) {more : List Char}
    (hmore : rest = [] → StopsAt p more) : StopsAt p (rest ++ more) := by
  cases rest with
  | nil => exact hmore rfl
  | cons c cs => exact h

theorem StopsAt.shorten {p : Char → Bool} {front back : List Char}
    (h : StopsAt p (front ++ back)) : StopsAt p front := by
  cases front with
  | nil => exact stopsAt_nil p
  | cons c cs => exact h

theorem takeWhile_run {p : Char → Bool} {run rest : List Char} (hrun : ∀ c ∈ run, p c = true)
    (hrest : StopsAt p rest) : (run ++ rest).takeWhile p = run := by
  rw [List.takeWhile_append_of_pos hrun]
  cases rest with
  | nil => simp
  | cons c cs =>
    have hc : p c = false := hrest c rfl
    simp [hc]

theorem dropWhile_run {p : Char → Bool} {run rest : List Char} (hrun : ∀ c ∈ run, p c = true)
    (hrest : StopsAt p rest) : (run ++ rest).dropWhile p = rest := by
  rw [List.dropWhile_append_of_pos hrun]
  cases rest with
  | nil => rfl
  | cons c cs =>
    have hc : p c = false := hrest c rfl
    simp [hc]

/-! ### The rules -/

/-- Whether a text goes on with a fraction: a dot and a digit after it. -/
def startsFraction : List Char → Bool
  | '.' :: d :: _ => d.isDigit
  | _ => false

theorem startsFraction_of_ne {c : Char} (h : c ≠ '.') (cs : List Char) :
    startsFraction (c :: cs) = false := by
  unfold startsFraction
  split
  · next heq => exact absurd (List.cons.inj heq).1 h
  · rfl

/-- A line break starts no fraction, nor does it continue one. -/
theorem startsFraction_newline {rest : List Char} (h : startsFraction rest = false)
    (more : List Char) : startsFraction (rest ++ '\n' :: more) = false := by
  cases rest with
  | nil => exact startsFraction_of_ne (by decide) more
  | cons c cs =>
    by_cases hc : c = '.'
    · subst hc
      cases cs with
      | nil => rfl
      | cons d ds => exact h
    · exact startsFraction_of_ne hc _

theorem startsFraction_shorten {front back : List Char}
    (h : startsFraction (front ++ back) = false) : startsFraction front = false := by
  cases front with
  | nil => rfl
  | cons c cs =>
    by_cases hc : c = '.'
    · subst hc
      cases cs with
      | nil => rfl
      | cons d ds => exact h
    · exact startsFraction_of_ne hc cs

/-- The sign of a number, which is written only if it is negative. -/
def signChars (negative : Bool) : List Char := if negative then ['-'] else []

/-- Whether some rule begins with the character, other than the one for what is not known. -/
def startsRule (c : Char) : Bool :=
  (Punct.ofChar? c).isSome || c == '/' || c == '"' || isBlank c || isNameStart c || c.isDigit ||
    c == '-'

/-- `Scans lexeme content rest`: in front of `rest`, the characters `lexeme` are a token, which
is `content`. -/
inductive Scans : List Char → Content → List Char → Prop where
  /-- A punctuation mark. -/
  | mark (p : Punct) (rest : List Char) : Scans [p.char] (.punct p) rest
  /-- A run of blanks. -/
  | blank {c : Char} {cs rest : List Char} (run : ∀ x ∈ c :: cs, isBlank x = true)
      (stop : StopsAt isBlank rest) : Scans (c :: cs) .blank rest
  /-- A comment up to the end of its line. -/
  | lineComment {body rest : List Char} (line : ∀ x ∈ body, decide (x ≠ '\n') = true)
      (stop : StopsAt (· ≠ '\n') rest) :
      Scans ('/' :: '/' :: body) (.lineComment (String.ofList (trim body))) rest
  /-- A comment up to the first mark that closes it. -/
  | blockComment {body : List Char} (rest : List Char)
      (closed : splitComment? (body ++ ['*', '/']) = some (body, [])) :
      Scans ('/' :: '*' :: (body ++ ['*', '/'])) (.blockComment (String.ofList (trim body))) rest
  /-- A comment that is never closed. -/
  | openComment {body : List Char} (opened : splitComment? body = none) :
      Scans ('/' :: '*' :: body) .unknown []
  /-- A slash that starts no comment. -/
  | slash {rest : List Char} (stop : StopsAt (fun c => c == '/' || c == '*') rest) :
      Scans ['/'] .unknown rest
  /-- A string up to its closing quote. -/
  | string {value raw : List Char} (rest : List Char)
      (closed : Quoted.read? raw = some ⟨value, raw, []⟩) :
      Scans ('"' :: raw) (.string (String.ofList value)) rest
  /-- A string that is never closed. -/
  | openString {body : List Char} (opened : Quoted.read? body = none) :
      Scans ('"' :: body) .unknown []
  /-- A name or a reserved word. -/
  | word {c : Char} {cs rest : List Char} (start : isNameStart c = true)
      (run : ∀ x ∈ cs, isNamePart x = true) (stop : StopsAt isNamePart rest) :
      Scans (c :: cs) (wordContent c (c :: cs)) rest
  /-- A number without a fraction. -/
  | whole (negative : Bool) {d : Char} {ds rest : List Char}
      (run : ∀ x ∈ d :: ds, x.isDigit = true) (stop : StopsAt Char.isDigit rest)
      (dot : startsFraction rest = false) :
      Scans (signChars negative ++ d :: ds) (wholeContent negative (d :: ds)) rest
  /-- A number with a fraction. -/
  | fraction (negative : Bool) {d e : Char} {ds es rest : List Char}
      (run : ∀ x ∈ d :: ds, x.isDigit = true) (more : ∀ x ∈ e :: es, x.isDigit = true)
      (stop : StopsAt Char.isDigit rest) :
      Scans (signChars negative ++ d :: ds ++ '.' :: e :: es)
        (fractionContent negative (d :: ds) (e :: es)) rest
  /-- A minus sign that starts no number. -/
  | minus {rest : List Char} (stop : StopsAt Char.isDigit rest) : Scans ['-'] .unknown rest
  /-- A character that no rule begins with. -/
  | other {c : Char} (unruled : startsRule c = false) (rest : List Char) : Scans [c] .unknown rest

/-! ### Characters belong to one rule -/

theorem ofChar?_eq_some {c : Char} {p : Punct} (h : Punct.ofChar? c = some p) : c = p.char := by
  have hbeq : (p.char == c) = true := List.find?_some (p := fun q : Punct => q.char == c) h
  exact (beq_iff_eq.1 hbeq).symm

theorem ofChar?_eq_none {c : Char} (h : ∀ p : Punct, c ≠ p.char) : Punct.ofChar? c = none := by
  cases hc : Punct.ofChar? c with
  | none => rfl
  | some p => exact absurd (ofChar?_eq_some hc) (h p)

/-- A blank is none of the characters that other rules begin with. -/
theorem of_isBlank {c : Char} (h : isBlank c = true) :
    Punct.ofChar? c = none ∧ c ≠ '/' ∧ c ≠ '"' := by
  refine ⟨ofChar?_eq_none ?_, ?_, ?_⟩
  · rintro p rfl
    cases p <;> exact absurd h (by decide)
  · rintro rfl
    exact absurd h (by decide)
  · rintro rfl
    exact absurd h (by decide)

theorem isBlank_eq_false {c : Char} (h₁ : 0x21 ≤ c.toNat) (h₂ : c.toNat < 0x85) :
    isBlank c = false := by
  simp only [isBlank, blankRanges, List.any_cons, List.any_nil, Bool.or_eq_false_iff,
    Bool.and_eq_false_iff, decide_eq_false_iff_not, and_true]
  omega

theorem toNat_of_isNameStart {c : Char} (h : isNameStart c = true) :
    0x41 ≤ c.toNat ∧ c.toNat ≤ 0x5A ∨ c.toNat = 0x5F ∨ 0x61 ≤ c.toNat ∧ c.toNat ≤ 0x7A := by
  have hletter : c.isAlpha = (c.isUpper || c.isLower) := rfl
  have hupper : c.isUpper = decide (0x41 ≤ c.val ∧ c.val ≤ 0x5A) := rfl
  have hlower : c.isLower = (decide (0x61 ≤ c.val) && decide (c.val ≤ 0x7A)) := rfl
  simp only [isNameStart, hletter, hupper, hlower, Bool.or_eq_true, Bool.and_eq_true,
    decide_eq_true_eq, beq_iff_eq] at h
  rcases h with (⟨h₁, h₂⟩ | ⟨h₁, h₂⟩) | rfl
  · exact .inl ⟨h₁, h₂⟩
  · exact .inr (.inr ⟨h₁, h₂⟩)
  · exact .inr (.inl rfl)

theorem toNat_of_isDigit {c : Char} (h : c.isDigit = true) : 0x30 ≤ c.toNat ∧ c.toNat ≤ 0x39 := by
  simp only [Char.isDigit, Bool.and_eq_true, decide_eq_true_eq] at h
  exact ⟨h.1, h.2⟩

/-- The start of a name is none of the characters that other rules begin with. -/
theorem of_isNameStart {c : Char} (h : isNameStart c = true) :
    Punct.ofChar? c = none ∧ c ≠ '/' ∧ c ≠ '"' ∧ isBlank c = false := by
  refine ⟨ofChar?_eq_none ?_, ?_, ?_, ?_⟩
  · rintro p rfl
    cases p <;> exact absurd h (by decide)
  · rintro rfl
    exact absurd h (by decide)
  · rintro rfl
    exact absurd h (by decide)
  · have hrange := toNat_of_isNameStart h
    exact isBlank_eq_false (by omega) (by omega)

/-- A digit is none of the characters that other rules begin with. -/
theorem of_isDigit {c : Char} (h : c.isDigit = true) :
    Punct.ofChar? c = none ∧ c ≠ '/' ∧ c ≠ '"' ∧ isBlank c = false ∧ isNameStart c = false := by
  have hrange := toNat_of_isDigit h
  refine ⟨ofChar?_eq_none ?_, ?_, ?_, ?_, ?_⟩
  · rintro p rfl
    cases p <;> exact absurd h (by decide)
  · rintro rfl
    exact absurd h (by decide)
  · rintro rfl
    exact absurd h (by decide)
  · exact isBlank_eq_false (by omega) (by omega)
  · cases hname : isNameStart c with
    | false => rfl
    | true =>
      have hrange' := toNat_of_isNameStart hname
      omega

/-! ### The scanner reads by the rules -/

namespace Piece

/-- The piece follows the rules. -/
def Ruled (p : Piece) : Prop := Scans p.lexeme p.content p.rest

theorem ruled_numberPiece (negative : Bool) {d : Char} {ds rest : List Char}
    (run : ∀ x ∈ d :: ds, x.isDigit = true) (stop : StopsAt Char.isDigit rest) :
    (numberPiece negative (signChars negative ++ d :: ds) (d :: ds) rest).Ruled := by
  have hwhole : startsFraction rest = false →
      Scans (signChars negative ++ d :: ds) (wholeContent negative (d :: ds)) rest :=
    .whole negative run stop
  unfold numberPiece
  split
  · next e es =>
    by_cases he : e.isDigit = true
    · rw [if_pos he]
      have hmore : ∀ x ∈ e :: es.takeWhile Char.isDigit, x.isDigit = true := by
        refine List.forall_mem_cons.2 ⟨he, ?_⟩
        intro x hx
        exact List.mem_takeWhile_imp hx
      exact .fraction negative run hmore (stopsAt_dropWhile _ _)
    · rw [if_neg he]
      exact hwhole (by simpa [startsFraction] using he)
  · next hdot =>
    refine hwhole ?_
    unfold startsFraction
    split
    · exact absurd rfl (hdot _ _)
    · rfl

theorem splitComment?_closed {cs body rest : List Char}
    (h : splitComment? cs = some (body, rest)) :
    splitComment? (body ++ ['*', '/']) = some (body, []) := by
  fun_induction splitComment? cs generalizing body with
  | case1 => cases h
  | case2 cs =>
    cases h
    rfl
  | case3 c cs hnot ih =>
    obtain ⟨⟨body', rest'⟩, hq, heq⟩ := Option.map_eq_some_iff.1 h
    cases heq
    have hrec := ih hq
    have happend := splitComment?_append hq
    -- the closing mark does not stand one character earlier in the shorter text either
    have hnot' : ∀ cs', c = '*' → body' ++ ['*', '/'] = '/' :: cs' → False := by
      intro cs' hc hcs
      cases body' with
      | nil => cases hcs
      | cons b bs =>
        rw [List.cons_append, List.cons.injEq] at hcs
        obtain ⟨rfl, -⟩ := hcs
        exact hnot _ hc happend.symm
    rw [List.cons_append, splitComment?.eq_3 _ _ hnot', hrec]
    rfl

theorem read?_closed {cs : List Char} {q : Quoted} (h : Quoted.read? cs = some q) :
    Quoted.read? q.raw = some ⟨q.value, q.raw, []⟩ := by
  fun_induction Quoted.read? cs generalizing q with
  | case1 => cases h
  | case2 cs =>
    cases h
    rfl
  | case3 => cases h
  | case4 c cs ih =>
    obtain ⟨p, hp, rfl⟩ := Option.map_eq_some_iff.1 h
    simp only [Quoted.push, List.cons_append, List.nil_append]
    rw [Quoted.read?, ih hp]
    rfl
  | case5 c cs hquote hend hescape ih =>
    obtain ⟨p, hp, rfl⟩ := Option.map_eq_some_iff.1 h
    have hraw := ih hp
    simp only [Quoted.push, List.cons_append, List.nil_append]
    rw [Quoted.read?.eq_5 _ _ hquote ?_ ?_, hraw]
    · rfl
    · intro hc hnil
      rw [hnil] at hraw
      cases hraw
    · intro d ds hc hraw'
      have happend := Quoted.raw_append_rest hp
      rw [hraw'] at happend
      exact hescape _ _ hc happend.symm

theorem ruled_slash (cs : List Char) : (slash cs).Ruled := by
  unfold slash
  split
  · next cs =>
    refine .lineComment (fun x hx => ?_) (stopsAt_dropWhile _ _)
    exact List.mem_takeWhile_imp (p := fun x => decide (x ≠ '\n')) hx
  · next cs =>
    split
    · next body rest h => exact .blockComment rest (splitComment?_closed h)
    · next h => exact .openComment h
  · next hline hblock =>
    refine .slash fun c hc => ?_
    cases cs with
    | nil => cases hc
    | cons d ds =>
      cases hc
      have h₁ : c ≠ '/' := fun h => hline ds (by rw [h])
      have h₂ : c ≠ '*' := fun h => hblock ds (by rw [h])
      simp [h₁, h₂]

theorem ruled_quote (cs : List Char) : (quote cs).Ruled := by
  unfold quote
  split
  · next q h => exact .string q.rest (read?_closed h)
  · next h => exact .openString h

theorem ruled_minus (cs : List Char) : (minus cs).Ruled := by
  unfold minus
  split
  · next h =>
    cases cs with
    | nil => simp at h
    | cons d ds =>
      have hd : d.isDigit = true := by simpa using h
      have hrun : ∀ x ∈ d :: ds.takeWhile Char.isDigit, x.isDigit = true :=
        List.forall_mem_cons.2 ⟨hd, fun x hx => List.mem_takeWhile_imp hx⟩
      rw [List.takeWhile_cons_of_pos hd, List.dropWhile_cons_of_pos hd]
      exact ruled_numberPiece true hrun (stopsAt_dropWhile _ _)
  · next h =>
    refine .minus fun c hc => ?_
    change cs.head? = some c at hc
    rw [hc] at h
    simpa using h

/-- The first token of a text follows the rules. -/
theorem scans_first (c : Char) (cs : List Char) :
    Scans (first c cs).lexeme (first c cs).content (first c cs).rest := by
  change (first c cs).Ruled
  unfold first
  split
  · next p hp =>
    rw [ofChar?_eq_some hp]
    exact .mark p cs
  next hp =>
  split
  · exact ruled_slash cs
  next hslash =>
  split
  · exact ruled_quote cs
  next hquote =>
  split
  · next hblank =>
    refine .blank (List.forall_mem_cons.2 ⟨hblank, fun x hx => ?_⟩) (stopsAt_dropWhile _ _)
    exact List.mem_takeWhile_imp hx
  next hblank =>
  split
  · next hname =>
    exact .word hname (fun x hx => List.mem_takeWhile_imp hx) (stopsAt_dropWhile _ _)
  next hname =>
  split
  · next hdigit =>
    have hrun : ∀ x ∈ c :: cs.takeWhile Char.isDigit, x.isDigit = true :=
      List.forall_mem_cons.2 ⟨hdigit, fun x hx => List.mem_takeWhile_imp hx⟩
    exact ruled_numberPiece false hrun (stopsAt_dropWhile _ _)
  next hdigit =>
  split
  · exact ruled_minus cs
  next hminus =>
  refine .other ?_ cs
  simp [startsRule, hp, hslash, hquote, hblank, hname, hdigit, hminus]

end Piece

namespace Scans

variable {lexeme rest : List Char} {content : Content}

theorem numberPiece_whole {negative : Bool} {front digits rest : List Char}
    (h : startsFraction rest = false) :
    numberPiece negative front digits rest = ⟨wholeContent negative digits, front, rest⟩ := by
  unfold numberPiece
  split
  · next e es =>
    have he : ¬ e.isDigit = true := by simpa [startsFraction] using h
    rw [if_neg he]
  · rfl

theorem numberPiece_fraction {negative : Bool} {front digits rest es : List Char} {e : Char}
    (run : ∀ x ∈ e :: es, x.isDigit = true) (stop : StopsAt Char.isDigit rest) :
    numberPiece negative front digits ('.' :: e :: (es ++ rest)) =
      ⟨fractionContent negative digits (e :: es), front ++ '.' :: e :: es, rest⟩ := by
  obtain ⟨he, hes⟩ := List.forall_mem_cons.1 run
  unfold numberPiece
  simp only [if_pos he, takeWhile_run hes stop, dropWhile_run hes stop]

/-- A number, with or without a sign, is read as one. -/
theorem first_number {negative : Bool} {d : Char} {ds rest : List Char}
    (run : ∀ x ∈ d :: ds, x.isDigit = true) (stop : StopsAt Char.isDigit rest) :
    ∃ c cs, signChars negative ++ d :: ds ++ rest = c :: cs ∧
      Piece.first c cs =
        numberPiece negative (signChars negative ++ d :: ds) (d :: ds) rest := by
  obtain ⟨hd, hds⟩ := List.forall_mem_cons.1 run
  cases negative with
  | false =>
    obtain ⟨h₁, h₂, h₃, h₄, h₅⟩ := of_isDigit hd
    refine ⟨d, ds ++ rest, rfl, ?_⟩
    simp only [Piece.first, h₁, h₂, h₃, h₄, h₅, hd, if_true, if_false, Bool.false_eq_true,
      Piece.number, takeWhile_run hds stop, dropWhile_run hds stop]
    rfl
  | true =>
    refine ⟨'-', d :: (ds ++ rest), rfl, ?_⟩
    have hminus : Piece.first '-' (d :: (ds ++ rest)) = Piece.minus (d :: (ds ++ rest)) := rfl
    have hany : (d :: (ds ++ rest)).head?.any Char.isDigit = true := by simpa using hd
    rw [hminus, Piece.minus, if_pos hany, ← List.cons_append, takeWhile_run run stop,
      dropWhile_run run stop]
    rfl

theorem splitComment?_append_rest {cs body : List Char} (rest : List Char)
    (h : splitComment? cs = some (body, [])) : splitComment? (cs ++ rest) = some (body, rest) := by
  fun_induction splitComment? cs generalizing body with
  | case1 => cases h
  | case2 cs =>
    cases h
    rfl
  | case3 c cs hnot ih =>
    obtain ⟨⟨body', rest'⟩, hq, heq⟩ := Option.map_eq_some_iff.1 h
    cases heq
    rw [List.cons_append, splitComment?.eq_3, ih hq]
    · rfl
    · intro cs' hc hcs
      cases cs with
      | nil => cases hq
      | cons b bs =>
        rw [List.cons_append, List.cons.injEq] at hcs
        obtain ⟨rfl, -⟩ := hcs
        exact hnot bs hc rfl

theorem read?_append_rest {cs value raw : List Char} (rest : List Char)
    (h : Quoted.read? cs = some ⟨value, raw, []⟩) :
    Quoted.read? (cs ++ rest) = some ⟨value, raw, rest⟩ := by
  fun_induction Quoted.read? cs generalizing value raw with
  | case1 => cases h
  | case2 cs =>
    cases h
    rfl
  | case3 => cases h
  | case4 c cs ih =>
    obtain ⟨⟨value', raw', rest'⟩, hp, heq⟩ := Option.map_eq_some_iff.1 h
    cases heq
    rw [List.cons_append, List.cons_append, Quoted.read?, ih hp]
    rfl
  | case5 c cs hquote hend hescape ih =>
    obtain ⟨⟨value', raw', rest'⟩, hp, heq⟩ := Option.map_eq_some_iff.1 h
    cases heq
    rw [List.cons_append, Quoted.read?.eq_5 _ _ hquote ?_ ?_, ih hp]
    · rfl
    · intro hc hnil
      rw [(List.append_eq_nil_iff.1 hnil).1] at hp
      cases hp
    · intro d ds hc hcs
      cases cs with
      | nil => cases hp
      | cons b bs => exact hescape b bs hc rfl

/-- What follows the rules is read as the first token. -/
theorem first_eq (h : Scans lexeme content rest) :
    ∃ c cs, lexeme ++ rest = c :: cs ∧ Piece.first c cs = ⟨content, lexeme, rest⟩ := by
  cases h with
  | mark p =>
    refine ⟨p.char, rest, rfl, ?_⟩
    simp only [Piece.first, Punct.ofChar?_char]
    rfl
  | @blank c cs _ run stop =>
    obtain ⟨hc, hcs⟩ := List.forall_mem_cons.1 run
    obtain ⟨h₁, h₂, h₃⟩ := of_isBlank hc
    refine ⟨c, cs ++ rest, rfl, ?_⟩
    simp only [Piece.first, h₁, h₂, h₃, hc, if_true, if_false, Piece.blank,
      takeWhile_run hcs stop, dropWhile_run hcs stop]
  | @lineComment body _ line stop =>
    refine ⟨'/', '/' :: (body ++ rest), rfl, ?_⟩
    have hslash : Piece.first '/' ('/' :: (body ++ rest)) =
        Piece.slash ('/' :: (body ++ rest)) := rfl
    rw [hslash, Piece.slash]
    simp only [takeWhile_run line stop, dropWhile_run line stop]
  | @blockComment body _ closed =>
    refine ⟨'/', '*' :: (body ++ ['*', '/'] ++ rest), rfl, ?_⟩
    have hslash : Piece.first '/' ('*' :: (body ++ ['*', '/'] ++ rest)) =
        Piece.slash ('*' :: (body ++ ['*', '/'] ++ rest)) := rfl
    rw [hslash, Piece.slash, splitComment?_append_rest rest closed]
    rfl
  | @openComment body opened =>
    refine ⟨'/', '*' :: body, by rw [List.append_nil], ?_⟩
    have hslash : Piece.first '/' ('*' :: body) = Piece.slash ('*' :: body) := rfl
    rw [hslash, Piece.slash, opened]
  | slash stop =>
    refine ⟨'/', rest, rfl, ?_⟩
    have hslash : Piece.first '/' rest = Piece.slash rest := rfl
    rw [hslash, Piece.slash]
    · rfl
    · rintro cs rfl
      exact absurd (stop '/' rfl) (by decide)
    · rintro cs rfl
      exact absurd (stop '*' rfl) (by decide)
  | @string value raw _ closed =>
    refine ⟨'"', raw ++ rest, rfl, ?_⟩
    have hquote : Piece.first '"' (raw ++ rest) = Piece.quote (raw ++ rest) := rfl
    rw [hquote, Piece.quote, read?_append_rest rest closed]
  | @openString body opened =>
    refine ⟨'"', body, by rw [List.append_nil], ?_⟩
    have hquote : Piece.first '"' body = Piece.quote body := rfl
    rw [hquote, Piece.quote, opened]
  | @word c cs _ start run stop =>
    obtain ⟨h₁, h₂, h₃, h₄⟩ := of_isNameStart start
    refine ⟨c, cs ++ rest, rfl, ?_⟩
    simp only [Piece.first, h₁, h₂, h₃, h₄, start, if_true, if_false, Bool.false_eq_true,
      Piece.word, takeWhile_run run stop, dropWhile_run run stop]
  | @whole negative d ds _ run stop dot =>
    obtain ⟨c, cs, hcs, hfirst⟩ := @first_number negative _ _ _ run stop
    exact ⟨c, cs, hcs, by rw [hfirst, numberPiece_whole dot]⟩
  | @fraction negative d e ds es _ run more stop =>
    have hdot : StopsAt Char.isDigit ('.' :: e :: (es ++ rest)) := stopsAt_cons (by decide)
    obtain ⟨c, cs, hcs, hfirst⟩ := @first_number negative _ _ _ run hdot
    refine ⟨c, cs, ?_, by rw [hfirst, numberPiece_fraction more stop]⟩
    rw [← hcs]
    simp
  | minus stop =>
    refine ⟨'-', rest, rfl, ?_⟩
    have hminus : Piece.first '-' rest = Piece.minus rest := rfl
    have hany : ¬ rest.head?.any Char.isDigit = true := by
      cases rest with
      | nil => simp
      | cons c cs => simpa using stop c rfl
    rw [hminus, Piece.minus, if_neg hany]
    rfl
  | @other c unruled _ =>
    refine ⟨c, rest, rfl, ?_⟩
    simp only [startsRule, Bool.or_eq_false_iff, Option.isSome_eq_false_iff,
      Option.isNone_iff_eq_none, beq_eq_false_iff_ne] at unruled
    obtain ⟨⟨⟨⟨⟨⟨h₁, h₂⟩, h₃⟩, h₄⟩, h₅⟩, h₆⟩, h₇⟩ := unruled
    simp only [Piece.first, h₁, h₂, h₃, h₄, h₅, h₆, h₇, if_false, Bool.false_eq_true]
    rfl

/-- What follows the rules is the token of a source where it begins. -/
theorem scanAt_eq (h : Scans lexeme content rest) (before : List Char) :
    scanAt (before ++ (lexeme ++ rest)) (byteLength before) =
      ⟨content, lexeme, byteLength before⟩ := by
  obtain ⟨c, cs, hcs, hfirst⟩ := h.first_eq
  unfold scanAt
  rw [openAt_of_boundary, hcs]
  simp only [hfirst]

/-- The end of the text ends every token, so the rest may be cut short. -/
theorem shorten {front back : List Char} (h : Scans lexeme content (front ++ back)) :
    Scans lexeme content front := by
  generalize hrest : front ++ back = rest at h
  cases h with
  | mark p => exact .mark p front
  | blank run stop => exact .blank run (hrest ▸ stop).shorten
  | lineComment line stop => exact .lineComment line (hrest ▸ stop).shorten
  | blockComment _ closed => exact .blockComment front closed
  | openComment opened =>
    rw [(List.append_eq_nil_iff.1 hrest).1]
    exact .openComment opened
  | slash stop => exact .slash (hrest ▸ stop).shorten
  | string _ closed => exact .string front closed
  | openString opened =>
    rw [(List.append_eq_nil_iff.1 hrest).1]
    exact .openString opened
  | word start run stop => exact .word start run (hrest ▸ stop).shorten
  | whole negative run stop dot =>
    exact .whole negative run (hrest ▸ stop).shorten (startsFraction_shorten (hrest ▸ dot))
  | fraction negative run more stop => exact .fraction negative run more (hrest ▸ stop).shorten
  | minus stop => exact .minus (hrest ▸ stop).shorten
  | other unruled _ => exact .other unruled front

/-- A line break ends every token that is known, but for a run of blanks at the end of the text
which it continues. -/
theorem before_newline (h : Scans lexeme content rest) (hknown : content ≠ .unknown)
    (hblank : content = .blank → rest ≠ []) (more : List Char) :
    Scans lexeme content (rest ++ '\n' :: more) := by
  have hstop : ∀ {p : Char → Bool}, p '\n' = false → StopsAt p rest →
      StopsAt p (rest ++ '\n' :: more) :=
    fun hp hrest => hrest.append fun _ => stopsAt_cons hp
  cases h with
  | mark p => exact .mark p _
  | blank run stop => exact .blank run (stop.append fun hnil => absurd hnil (hblank rfl))
  | lineComment line stop => exact .lineComment line (hstop rfl stop)
  | blockComment _ closed => exact .blockComment _ closed
  | string _ closed => exact .string _ closed
  | word start run stop => exact .word start run (hstop rfl stop)
  | whole negative run stop dot =>
    exact .whole negative run (hstop rfl stop) (startsFraction_newline dot more)
  | fraction negative run more' stop => exact .fraction negative run more' (hstop rfl stop)
  | openComment => exact absurd rfl hknown
  | slash => exact absurd rfl hknown
  | openString => exact absurd rfl hknown
  | minus => exact absurd rfl hknown
  | other => exact absurd rfl hknown

theorem wordContent_ne_blank (c : Char) (word : List Char) : wordContent c word ≠ .blank := by
  unfold wordContent
  dsimp only
  split
  · simp
  · split
    · simp
    · simp

theorem wholeContent_ne_blank (negative : Bool) (digits : List Char) :
    wholeContent negative digits ≠ .blank := by
  unfold wholeContent
  generalize (if negative then -(digitsValue digits : Int) else digitsValue digits) = n
  by_cases hn : isInt64 n = true
  · simp [hn]
  · simp [hn]

/-- Only blanks make up a run of blanks. -/
theorem isBlank_of_mem (h : Scans lexeme content rest) (hblank : content = .blank) :
    ∀ c ∈ lexeme, isBlank c = true := by
  cases h with
  | blank run _ => exact run
  | word => exact absurd hblank (wordContent_ne_blank _ _)
  | whole => exact absurd hblank (wholeContent_ne_blank _ _)
  | _ => cases hblank

end Scans

/-! ### The tokens of parts of a text -/

namespace Token

/-- A token that follows the rules is the first one of its text. -/
theorem stream_of_scans {lexeme rest : List Char} {content : Content}
    (h : Scans lexeme content rest) (start : Nat) :
    stream start (lexeme ++ rest) =
      ⟨content, lexeme, start⟩ :: stream (start + byteLength lexeme) rest := by
  obtain ⟨c, cs, hcs, hfirst⟩ := h.first_eq
  rw [hcs, stream_cons, hfirst]

/-- Some tokens of a text are the tokens of what they were read from. -/
theorem stream_lexemes {start : Nat} {cs : List Char} {ts us : List Token}
    (h : stream start cs = ts ++ us) : stream start (lexemes ts) = ts := by
  induction ts generalizing start cs with
  | nil => rw [lexemes_nil, stream]
  | cons t ts ih =>
    cases cs with
    | nil => simp [stream] at h
    | cons c cs =>
      have hscans := Piece.scans_first c cs
      rw [stream_cons, List.cons_append, List.cons.injEq] at h
      obtain ⟨rfl, hrest⟩ := h
      obtain ⟨rest, hcut, -⟩ := stream_eq_append hrest
      rw [hcut] at hscans
      rw [lexemes_cons, stream_of_scans hscans.shorten, ih hrest]

/-- The tokens of a text that are code. -/
def code (start : Nat) (cs : List Char) : List Token :=
  (stream start cs).filter (·.category.isCode)

@[simp] theorem code_nil (start : Nat) : code start [] = [] := by
  rw [code, stream, List.filter_nil]

/-- Further on, the same text has the same code further on. -/
theorem code_add (start n : Nat) (cs : List Char) :
    code (start + n) cs = (code start cs).map (shift n) := by
  rw [code, stream_add, code, List.filter_map]
  rfl

theorem code_of_scans {lexeme rest : List Char} {content : Content}
    (h : Scans lexeme content rest) (start : Nat) :
    code start (lexeme ++ rest) =
      [⟨content, lexeme, start⟩].filter (·.category.isCode) ++
        code (start + byteLength lexeme) rest := by
  rw [code, stream_of_scans h, ← List.singleton_append, List.filter_append]
  rfl

theorem code_cons_of_blank (start : Nat) {c : Char} (h : isBlank c = true) (cs : List Char) :
    code start (c :: cs) =
      code (start + byteLength (c :: cs.takeWhile isBlank)) (cs.dropWhile isBlank) := by
  have hrun : ∀ x ∈ c :: cs.takeWhile isBlank, isBlank x = true :=
    List.forall_mem_cons.2 ⟨h, fun x hx => List.mem_takeWhile_imp hx⟩
  have hscans := Scans.blank hrun (stopsAt_dropWhile isBlank cs)
  have hstream := stream_of_scans hscans start
  rw [List.cons_append, List.takeWhile_append_dropWhile] at hstream
  rw [code, hstream]
  rfl

/-- Blanks in front of a text only move its code. -/
theorem code_append_of_blank (start : Nat) {run : List Char} (hrun : ∀ c ∈ run, isBlank c = true)
    (cs : List Char) : code start (run ++ cs) = code (start + byteLength run) cs := by
  cases run with
  | nil => rfl
  | cons c run =>
    obtain ⟨hc, hrun⟩ := List.forall_mem_cons.1 hrun
    rw [List.cons_append, code_cons_of_blank start hc, List.takeWhile_append_of_pos hrun,
      List.dropWhile_append_of_pos hrun]
    cases cs with
    | nil => simp
    | cons d ds =>
      by_cases hd : isBlank d = true
      · -- the blanks go on, and the text by itself begins with the blanks that are left
        rw [code_cons_of_blank _ hd, List.takeWhile_cons_of_pos hd, List.dropWhile_cons_of_pos hd]
        congr 1
        simp only [byteLength_cons, byteLength_append]
        omega
      · rw [List.takeWhile_cons_of_neg hd, List.dropWhile_cons_of_neg hd, List.append_nil]

/-- **Two texts on lines of their own.**  Where all tokens of the first text are known, its code
is followed by the code of the second one, moved behind the line break. -/
theorem code_newline (start : Nat) (cs more : List Char)
    (hknown : ∀ t ∈ stream start cs, t.content ≠ .unknown) :
    code start (cs ++ '\n' :: more) =
      code start cs ++ code (start + byteLength cs + 1) more := by
  fun_induction stream start cs with
  | case1 start =>
    have hbreak : ∀ c ∈ ['\n'], isBlank c = true := List.forall_mem_singleton.mpr (by decide)
    have hmove := code_append_of_blank start hbreak more
    rwa [code_nil, List.nil_append]
  | case2 start c cs p ih =>
    obtain ⟨hfirst, hrest⟩ := List.forall_mem_cons.1 hknown
    have hcut : p.lexeme ++ p.rest = c :: cs := Piece.lexeme_append_rest c cs
    have hscans : Scans p.lexeme p.content p.rest := Piece.scans_first c cs
    rw [← hcut]
    by_cases hlast : p.content = .blank ∧ p.rest = []
    · -- the line break continues the blanks at the end of the first text
      obtain ⟨hblank, hnil⟩ := hlast
      have hrun := hscans.isBlank_of_mem hblank
      have hrun' : ∀ x ∈ p.lexeme ++ ['\n'], isBlank x = true := by
        simpa [or_imp, forall_and] using ⟨hrun, by decide⟩
      have hmove := code_append_of_blank start hrun' more
      have halone := code_append_of_blank start hrun []
      rw [List.append_assoc, byteLength_append, List.singleton_append, ← Nat.add_assoc] at hmove
      rw [List.append_nil, code_nil] at halone
      rw [hnil, List.append_nil, hmove, halone]
      rfl
    · have hnewline := hscans.before_newline hfirst (fun hblank hnil => hlast ⟨hblank, hnil⟩) more
      rw [List.append_assoc, code_of_scans hnewline, code_of_scans hscans, ih hrest,
        List.append_assoc, byteLength_append, Nat.add_assoc start]

end Token

end SchemaLang
