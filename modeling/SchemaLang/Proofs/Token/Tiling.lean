import SchemaLang.Proofs.Token.Stream
import Mathlib.Data.List.Chain

/-!
# The tokens of a text tile it

The tokens of a text follow each other without a gap: each one starts where the one before it
ends, and their lexemes make up the text again.  What stands between two tokens is therefore a
place where reading can start anew, and reading there gives the tokens that are left.

Positions count bytes.  A position at which no character starts is inside a character, and
nothing is read there; past the end, nothing is read either.

## Main definitions

* `IsBoundary` — a byte position between two characters.
* `Span.Covers` — the characters that a span stands for.

## Main results

* `Token.stream_eq_append` — what is read behind some of the tokens.
* `Token.stream_add` — the same text further on.
* `lexAt_tiles` — **the tokens from a byte position on tile the rest of the source.**
-/

namespace SchemaLang

/-! ### Positions in a text -/

/-- A byte position between two characters of a text, or at one of its ends. -/
def IsBoundary (source : List Char) (position : Nat) : Prop :=
  ∃ before after, source = before ++ after ∧ byteLength before = position

/-- The span stands for the characters `text` of the source, and so both its ends lie between
characters. -/
def Span.Covers (source : List Char) (span : Span) (text : List Char) : Prop :=
  ∃ before after, source = before ++ (text ++ after) ∧ byteLength before = span.start ∧
    byteLength (before ++ text) = span.stop

theorem Span.Covers.boundary {source text : List Char} {span : Span}
    (h : span.Covers source text) : IsBoundary source span.start ∧ IsBoundary source span.stop := by
  obtain ⟨before, after, hsource, hstart, hstop⟩ := h
  refine ⟨⟨before, text ++ after, hsource, hstart⟩, ⟨before ++ text, after, ?_, hstop⟩⟩
  rw [hsource, List.append_assoc]

theorem dropBytes?_eq_some {n : Nat} {cs after : List Char} (h : dropBytes? n cs = some after) :
    ∃ before, cs = before ++ after ∧ byteLength before = n := by
  fun_induction dropBytes? n cs with
  | case1 cs =>
    cases h
    exact ⟨[], rfl, rfl⟩
  | case2 => cases h
  | case3 n c cs hle ih =>
    obtain ⟨before, hcs, hlength⟩ := ih h
    refine ⟨c :: before, by rw [hcs, List.cons_append], ?_⟩
    rw [byteLength_cons, hlength]
    omega
  | case4 => cases h

/-! ### Where reading starts -/

theorem openAt_of_boundary (before after : List Char) :
    openAt (before ++ after) (byteLength before) = (byteLength before, after) := by
  have hle : ¬ byteLength (before ++ after) < byteLength before := by
    rw [byteLength_append]
    omega
  rw [openAt, if_neg hle, dropBytes?_byteLength_append, Option.getD_some]

theorem openAt_of_past {source : List Char} {position : Nat} (h : byteLength source < position) :
    openAt source position = (byteLength source, []) := by
  rw [openAt, if_pos h]

theorem openAt_of_inside {source : List Char} {position : Nat} (hle : position ≤ byteLength source)
    (h : ¬ IsBoundary source position) : openAt source position = (position, []) := by
  have hnone : dropBytes? position source = none := by
    cases hdrop : dropBytes? position source with
    | none => rfl
    | some after =>
      obtain ⟨before, hsource, hlength⟩ := dropBytes?_eq_some hdrop
      exact absurd ⟨before, after, hsource, hlength⟩ h
  rw [openAt, if_neg (Nat.not_lt.2 hle), hnone, Option.getD_none]

/-! ### Tokens in a row -/

namespace Token

theorem stream_cons (start : Nat) (c : Char) (cs : List Char) :
    stream start (c :: cs) = ⟨(Piece.first c cs).content, (Piece.first c cs).lexeme, start⟩ ::
      stream (start + byteLength (Piece.first c cs).lexeme) (Piece.first c cs).rest := by
  rw [stream]

/-- The text read by some tokens. -/
def lexemes (ts : List Token) : List Char := ts.flatMap (·.lexeme)

@[simp] theorem lexemes_nil : lexemes [] = [] := rfl

@[simp] theorem lexemes_cons (t : Token) (ts : List Token) :
    lexemes (t :: ts) = t.lexeme ++ lexemes ts := rfl

/-- Behind some of the tokens of a text, the tokens of the rest are read. -/
theorem stream_eq_append {start : Nat} {cs : List Char} {ts us : List Token}
    (h : stream start cs = ts ++ us) :
    ∃ rest, cs = lexemes ts ++ rest ∧ us = stream (start + byteLength (lexemes ts)) rest := by
  induction ts generalizing start cs with
  | nil => exact ⟨cs, rfl, h.symm⟩
  | cons t ts ih =>
    cases cs with
    | nil => simp [stream] at h
    | cons c cs =>
      rw [stream_cons, List.cons_append, List.cons.injEq] at h
      obtain ⟨rfl, hrest⟩ := h
      obtain ⟨rest, hcs, hus⟩ := ih hrest
      refine ⟨rest, ?_, ?_⟩
      · rw [lexemes_cons, List.append_assoc, ← hcs, Piece.lexeme_append_rest]
      · rw [hus, lexemes_cons, byteLength_append, Nat.add_assoc]

/-- The lexemes of the tokens make up the text. -/
theorem lexemes_stream (start : Nat) (cs : List Char) : lexemes (stream start cs) = cs := by
  obtain ⟨rest, hcs, hrest⟩ := stream_eq_append (List.append_nil (stream start cs)).symm
  cases rest with
  | nil => rw [List.append_nil] at hcs; exact hcs.symm
  | cons c cs => rw [stream_cons] at hrest; cases hrest

/-- Further on, the same text has the same tokens further on. -/
theorem stream_add (start n : Nat) (cs : List Char) :
    stream (start + n) cs = (stream start cs).map (shift n) := by
  fun_induction stream start cs with
  | case1 => simp [stream]
  | case2 start c cs p ih =>
    rw [stream_cons, List.map_cons, ← ih]
    simp only [shift, p]
    congr 2
    omega

/-- Each token of a text starts where the one before it ends, the first one at the start of the
text, and the end follows the last one. -/
theorem isChain_stream (start : Nat) (cs : List Char) :
    (stream start cs ++ [endOfInput (start + byteLength cs)]).IsChain
      (fun t u => t.stop = u.start) ∧
    (stream start cs ++ [endOfInput (start + byteLength cs)]).head?.map (·.start) = some start := by
  fun_induction stream start cs with
  | case1 => simp
  | case2 start c cs p ih =>
    have hcut : byteLength p.lexeme + byteLength p.rest = byteLength (c :: cs) := by
      rw [← byteLength_append, Piece.lexeme_append_rest]
    rw [Nat.add_assoc, hcut] at ih
    obtain ⟨hchain, hhead⟩ := ih
    refine ⟨?_, rfl⟩
    rw [List.cons_append, List.isChain_cons]
    refine ⟨?_, hchain⟩
    intro u hu
    rw [Option.mem_def.1 hu] at hhead
    exact (Option.some.inj hhead).symm

/-- A token of a text covers its lexeme, and is what is read where it starts. -/
theorem covers_of_mem_stream {before after : List Char} {t : Token}
    (h : t ∈ stream (byteLength before) after) :
    t.span.Covers (before ++ after) t.lexeme ∧ scanAt (before ++ after) t.start = t := by
  obtain ⟨ts, us, hstream⟩ := List.append_of_mem h
  obtain ⟨rest, hafter, hrest⟩ := stream_eq_append hstream
  rw [← byteLength_append] at hrest
  have hsource : before ++ after = (before ++ lexemes ts) ++ rest := by
    rw [hafter, List.append_assoc]
  cases rest with
  | nil => simp [stream] at hrest
  | cons c cs =>
    rw [stream_cons, List.cons.injEq] at hrest
    obtain ⟨rfl, -⟩ := hrest
    constructor
    · refine ⟨before ++ lexemes ts, (Piece.first c cs).rest, ?_, rfl, ?_⟩
      · rw [hsource, Piece.lexeme_append_rest]
      · rw [byteLength_append]
        rfl
    · unfold scanAt
      rw [hsource, openAt_of_boundary]

end Token

/-! ### All tokens from a position on -/

/-- The token that marks the end covers nothing, at the end. -/
theorem covers_endOfInput (source : List Char) :
    (Token.endOfInput (byteLength source)).span.Covers source [] := by
  refine ⟨source, [], ?_, rfl, ?_⟩
  · rw [List.append_nil, List.append_nil]
  · rw [List.append_nil]
    rfl

/-- Nothing is read where nothing is left. -/
theorem lexFrom_nil (start : Nat) : lexFrom start [] = [.endOfInput start] := by
  simp [lexFrom, Token.stream]

/-- **The tokens from a byte position on tile the rest of the source.**  From a position between
characters, the first token starts there, each one starts where the one before it ends, all but
the last have characters and do not mark the end, and the last one marks it; each covers its
lexeme in the source, the lexemes make up the rest of the source, each token is what is read
where it starts, and all of them are the tokens of the rest by itself, moved.  Past the end
nothing is left, and inside a character nothing is read. -/
theorem lexAt_tiles (source : List Char) (position : Nat) :
    (∀ before after, source = before ++ after → byteLength before = position →
      (lexAt source position).head?.map (·.start) = some position ∧
      (lexAt source position).IsChain (fun t u => t.stop = u.start) ∧
      (∀ t ∈ (lexAt source position).dropLast, t.start < t.stop ∧ t.category ≠ .endOfInput) ∧
      (lexAt source position).getLast? = some (.endOfInput (byteLength source)) ∧
      (∀ t ∈ lexAt source position, t.span.Covers source t.lexeme ∧
        IsBoundary source t.start ∧ IsBoundary source t.stop) ∧
      (lexAt source position).flatMap (·.lexeme) = after ∧
      (∀ t ∈ lexAt source position, t = scanAt source t.start) ∧
      lexAt source position = (lex after).map (.shift position)) ∧
    (byteLength source < position → lexAt source position = [.endOfInput (byteLength source)]) ∧
    (position ≤ byteLength source → ¬ IsBoundary source position →
      lexAt source position = [.endOfInput position]) := by
  refine ⟨?_, fun hpast => ?_, fun hle hinside => ?_⟩
  · rintro before after rfl rfl
    have hlex : lexAt (before ++ after) (byteLength before) =
        Token.stream (byteLength before) after ++
          [.endOfInput (byteLength (before ++ after))] := by
      rw [lexAt, openAt_of_boundary, lexFrom, byteLength_append]
    obtain ⟨hchain, hhead⟩ := Token.isChain_stream (byteLength before) after
    rw [← byteLength_append] at hchain hhead
    rw [hlex]
    refine ⟨hhead, hchain, ?_, ?_, ?_, ?_, ?_, ?_⟩
    · rw [List.dropLast_concat]
      intro t ht
      have hproper := Token.proper_of_mem_stream ht
      exact ⟨hproper.nonempty, hproper.inside⟩
    · exact List.getLast?_concat
    · intro t ht
      have hcovers : t.span.Covers (before ++ after) t.lexeme := by
        rcases List.mem_append.1 ht with ht | ht
        · exact (Token.covers_of_mem_stream ht).1
        · rw [List.mem_singleton.1 ht]
          exact covers_endOfInput (before ++ after)
      exact ⟨hcovers, hcovers.boundary⟩
    · rw [List.flatMap_append]
      have hlexemes := Token.lexemes_stream (byteLength before) after
      rw [Token.lexemes] at hlexemes
      rw [hlexemes]
      simp [Token.endOfInput]
    · intro t ht
      rcases List.mem_append.1 ht with ht | ht
      · exact (Token.covers_of_mem_stream ht).2.symm
      · rw [List.mem_singleton.1 ht]
        have hopen := openAt_of_boundary (before ++ after) []
        rw [List.append_nil] at hopen
        unfold scanAt
        rw [Token.endOfInput_start, hopen]
    · have hstream := Token.stream_add 0 (byteLength before) after
      rw [Nat.zero_add] at hstream
      rw [hstream, lex, lexFrom, List.map_append, byteLength_append, Nat.zero_add,
        Nat.add_comm (byteLength before)]
      rfl
  · rw [lexAt, openAt_of_past hpast, lexFrom_nil]
  · rw [lexAt, openAt_of_inside hle hinside, lexFrom_nil]

end SchemaLang
