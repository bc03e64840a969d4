import SchemaLang.Proofs.Token.Lexical

/-!
# How far the scanner looks

Where a token ends is decided by what stands behind it, and the lexical rules say how much of that
counts: a run of blanks, a word, a number, a slash or a minus sign ends before a character that does
not continue it, and a number without a fraction is followed by no dot and digit.  So two characters
are enough.  A string or a comment that is closed needs none, and one that is never closed needs to
know that there is none.

With two characters known, nothing that follows them changes the token; and since the end of the
text ends every token, its own characters are read as the same token by themselves.

## Main results

* `Scans.of_take_two` — a rule sees two characters of the rest.
* `Token.scans_of_mem_stream` — every token of a text follows the rules.
* `Token.scanAt_lexeme` — the characters of a token by themselves.
* `scanAt_lookahead` — **a token is decided by its characters and the two behind them.**
-/

namespace SchemaLang

/-! ### What the rules see of the rest -/

theorem StopsAt.of_take_two {p : Char → Bool} {rest rest' : List Char} (h : StopsAt p rest)
    (htake : rest'.take 2 = rest.take 2) : StopsAt p rest' := by
  have hhead : rest'.head? = rest.head? := by
    have htwo := congrArg List.head? htake
    simpa [List.head?_take] using htwo
  intro c hc
  rw [hhead] at hc
  exact h c hc

theorem startsFraction_take_two (rest : List Char) :
    startsFraction (rest.take 2) = startsFraction rest := by
  cases rest with
  | nil => rfl
  | cons c cs =>
    by_cases hc : c = '.'
    · subst hc
      cases cs with
      | nil => rfl
      | cons d ds => rfl
    · rw [List.take_succ_cons, startsFraction_of_ne hc, startsFraction_of_ne hc]

/-- The rules see two characters of what follows a token, and whether there are any. -/
theorem Scans.of_take_two {lexeme rest rest' : List Char} {content : Content}
    (h : Scans lexeme content rest) (htake : rest'.take 2 = rest.take 2) :
    Scans lexeme content rest' := by
  cases h with
  | mark p => exact .mark p rest'
  | blank run stop => exact .blank run (stop.of_take_two htake)
  | lineComment line stop => exact .lineComment line (stop.of_take_two htake)
  | blockComment _ closed => exact .blockComment rest' closed
  | openComment opened =>
    have hnil : rest' = [] := by simpa using htake
    rw [hnil]
    exact .openComment opened
  | slash stop => exact .slash (stop.of_take_two htake)
  | string _ closed => exact .string rest' closed
  | openString opened =>
    have hnil : rest' = [] := by simpa using htake
    rw [hnil]
    exact .openString opened
  | word start run stop => exact .word start run (stop.of_take_two htake)
  | whole negative run stop dot =>
    refine .whole negative run (stop.of_take_two htake) ?_
    rw [← startsFraction_take_two, htake, startsFraction_take_two, dot]
  | fraction negative run more stop =>
    exact .fraction negative run more (stop.of_take_two htake)
  | minus stop => exact .minus (stop.of_take_two htake)
  | other unruled _ => exact .other unruled rest'

/-! ### Tokens by the rules -/

/-- What follows the rules is the first token of its text. -/
theorem Scans.scanAt_zero {lexeme rest : List Char} {content : Content}
    (h : Scans lexeme content rest) : scanAt (lexeme ++ rest) 0 = ⟨content, lexeme, 0⟩ :=
  h.scanAt_eq []

/-- The first token of a text that is not empty follows the rules, in front of what it leaves. -/
theorem exists_scans_of_ne_nil {source : List Char} (h : source ≠ []) :
    ∃ lexeme content rest, source = lexeme ++ rest ∧ Scans lexeme content rest := by
  cases source with
  | nil => exact absurd rfl h
  | cons c cs =>
    exact ⟨_, _, _, (Piece.lexeme_append_rest c cs).symm, Piece.scans_first c cs⟩

/-- Every token of a text follows the rules, in front of what the text goes on with. -/
theorem Token.scans_of_mem_stream {start : Nat} {cs : List Char} {t : Token}
    (h : t ∈ stream start cs) : ∃ rest, Scans t.lexeme t.content rest := by
  fun_induction stream start cs with
  | case1 => cases h
  | case2 start c cs p ih =>
    rcases List.mem_cons.1 h with rfl | h
    · exact ⟨p.rest, Piece.scans_first c cs⟩
    · exact ih h

/-- The characters of a token are one token by themselves, with the same content. -/
theorem Token.scanAt_lexeme {start : Nat} {cs : List Char} {t : Token} (h : t ∈ stream start cs) :
    scanAt t.lexeme 0 = ⟨t.content, t.lexeme, 0⟩ := by
  obtain ⟨rest, hscans⟩ := scans_of_mem_stream h
  have hend : Scans t.lexeme t.content [] := Scans.shorten hscans
  have hscan := hend.scanAt_zero
  rwa [List.append_nil] at hscan

/-! ### Two characters decide -/

/-- **A token is decided by its characters and the two behind them.**  Where at least two
characters follow the first token of a source, more text at the end changes nothing, and neither
does anything else that begins with the same two characters; with fewer of them, it must be known
that the text ends.  And a token of a source is read from its own characters alone: these are what
its span covers, and by themselves they are one token with the same content, which covers them
all. -/
theorem scanAt_lookahead (source : List Char) :
    (∃ after, source = (scanAt source 0).lexeme ++ after ∧
      (2 ≤ after.length → ∀ more, scanAt (source ++ more) 0 = scanAt source 0) ∧
      ∀ other, other.take 2 = after.take 2 →
        scanAt ((scanAt source 0).lexeme ++ other) 0 = scanAt source 0) ∧
    ∀ t ∈ lex source, t.category ≠ .endOfInput →
      t.span.Covers source t.lexeme ∧
      (scanAt t.lexeme 0).content = t.content ∧
      (scanAt t.lexeme 0).span = ⟨0, byteLength t.lexeme⟩ := by
  constructor
  · by_cases hsource : source = []
    · subst hsource
      refine ⟨[], rfl, fun htwo => absurd htwo (by decide), fun other hother => ?_⟩
      have hnil : other = [] := by simpa using hother
      rw [hnil]
      rfl
    · obtain ⟨lexeme, content, after, hcut, hscans⟩ := exists_scans_of_ne_nil hsource
      have htoken : scanAt source 0 = ⟨content, lexeme, 0⟩ := by
        rw [hcut]
        exact hscans.scanAt_zero
      have hother : ∀ other, other.take 2 = after.take 2 →
          scanAt (lexeme ++ other) 0 = ⟨content, lexeme, 0⟩ :=
        fun other h => (hscans.of_take_two h).scanAt_zero
      rw [htoken]
      refine ⟨after, hcut, fun htwo more => ?_, hother⟩
      rw [hcut, List.append_assoc]
      exact hother (after ++ more) (List.take_append_of_le_length htwo)
  · intro t ht hinside
    rw [lex, lexFrom, List.mem_append, List.mem_singleton] at ht
    rcases ht with ht | rfl
    · have hcovers := (@Token.covers_of_mem_stream [] source t ht).1
      rw [Token.scanAt_lexeme ht]
      refine ⟨hcovers, rfl, ?_⟩
      rw [Token.span, Token.stop, Nat.zero_add]
    · exact absurd rfl hinside

/-- A dot behind a whole number may start a fraction, which is seen only behind the dot: in front of
a letter the number stands whatever follows, while at the end of the text it does not.  A comment is
read from its own characters, without the line break that ends it. -/
theorem scanAt_lookahead_dot :
    scanAt ("1.x".toList ++ "5".toList) 0 = scanAt "1.x".toList 0 ∧
      scanAt ("1.".toList ++ "5".toList) 0 ≠ scanAt "1.".toList 0 ∧
      (scanAt "// a".toList 0).content = .lineComment "a" := by
  refine ⟨?_, by decide, ?_⟩
  · obtain ⟨after, hcut, hmore, -⟩ := (scanAt_lookahead "1.x".toList).1
    have hlexeme : (scanAt "1.x".toList 0).lexeme = "1".toList := by decide
    rw [hlexeme] at hcut
    have hafter : ".x".toList = after := (List.cons.inj hcut).2
    exact hmore (by rw [← hafter]; decide) "5".toList
  · have hfirst : ⟨.lineComment "a", "// a".toList, 0⟩ ∈
        Token.stream 0 ('/' :: "/ a\nb".toList) := by
      rw [Token.stream_cons]
      exact List.mem_cons_self
    have hmem : ⟨.lineComment "a", "// a".toList, 0⟩ ∈ lex "// a\nb".toList :=
      List.mem_append_left _ hfirst
    exact ((scanAt_lookahead "// a\nb".toList).2 _ hmem (by decide)).2.1

end SchemaLang
