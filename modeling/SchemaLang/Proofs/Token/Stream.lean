import SchemaLang.Token.Scanner

/-!
# The tokens of a text

The tokens before the end of a text are never empty, never mark the end, and lie one
behind the other.  A name or a reserved word is spelled as it is written.

## Main definitions

* `Token.Proper` — what a token before the end is like.
* `Token.Laid` — tokens in order between two byte positions.

## Main results

* `Token.proper_of_mem_stream` — every token of a text is proper.
* `Token.laid_filter_stream` — the tokens of a text, or any part of them, lie in order.
-/

namespace SchemaLang

/-- How a name or a reserved word is spelled. -/
def Content.spelling : Content → String
  | .identifier name => name
  | .capital name => name
  | .keyword k => k.text
  | _ => ""

/-- What every token before the end of a text is like. -/
structure Token.Proper (t : Token) : Prop where
  /-- It has a character at least. -/
  nonempty : t.start < t.stop
  /-- It does not mark the end. -/
  inside : t.category ≠ .endOfInput
  /-- The text of a name or a reserved word is how its content is spelled. -/
  spelled : t.category.isWord = true → t.text = t.content.spelling

/-- The tokens lie one behind the other between two byte positions. -/
def Token.Laid (size : Nat) : Nat → List Token → Prop
  | offset, [] => offset ≤ size
  | offset, t :: ts => offset ≤ t.start ∧ t.Proper ∧ Laid size t.stop ts

theorem Token.Laid.le {size : Nat} {offset : Nat} {ts : List Token} (h : Laid size offset ts) :
    offset ≤ size := by
  induction ts generalizing offset with
  | nil => exact h
  | cons t ts ih =>
    obtain ⟨h₁, h₂, h₃⟩ := h
    have hlt := h₂.nonempty
    have hle := ih h₃
    omega

theorem Token.Laid.mono {size offset offset' : Nat} {ts : List Token} (h : Laid size offset ts)
    (hle : offset' ≤ offset) : Laid size offset' ts := by
  cases ts with
  | nil => exact Nat.le_trans hle h
  | cons t ts => exact ⟨Nat.le_trans hle h.1, h.2⟩

/-! ### The first token -/

/-- What the first token of a text is like, whatever the text. -/
structure Piece.Proper (p : Piece) : Prop where
  /-- It does not mark the end. -/
  inside : p.content.category ≠ .endOfInput
  /-- The characters of a name or a reserved word are how its content is spelled. -/
  spelled : p.content.category.isWord = true → String.ofList p.lexeme = p.content.spelling

namespace Piece

/-- A piece that is neither a word nor the end needs no more. -/
theorem Proper.of_not_word {p : Piece} (hend : p.content.category ≠ .endOfInput)
    (hword : p.content.category.isWord = false) : p.Proper :=
  ⟨hend, fun h => absurd (hword.symm.trans h) (by simp)⟩

theorem proper_wholeContent {negative : Bool} {digits lexeme rest : List Char} :
    Proper ⟨wholeContent negative digits, lexeme, rest⟩ := by
  unfold wholeContent
  generalize (if negative then -(digitsValue digits : Int) else digitsValue digits) = n
  by_cases hn : isInt64 n = true
  · rw [if_pos hn]
    exact .of_not_word (by simp [Content.category]) rfl
  · rw [if_neg hn]
    exact .of_not_word (by simp [Content.category]) rfl

theorem proper_numberPiece (negative : Bool) (front digits cs : List Char) :
    (numberPiece negative front digits cs).Proper := by
  unfold numberPiece
  split
  · split
    · exact .of_not_word (by simp [fractionContent, Content.category]) rfl
    · exact proper_wholeContent
  · exact proper_wholeContent

theorem proper_word (c : Char) (cs : List Char) : (word c cs).Proper := by
  unfold word wordContent
  dsimp only
  split
  · next k hk =>
    refine ⟨by simp [Content.category], fun _ => ?_⟩
    have htext := List.find?_some hk
    exact (beq_iff_eq.1 htext).symm
  · split
    · exact ⟨by simp [Content.category], fun _ => rfl⟩
    · exact ⟨by simp [Content.category], fun _ => rfl⟩

theorem proper_slash (cs : List Char) : (slash cs).Proper := by
  unfold slash
  split
  · exact .of_not_word (by simp [Content.category]) rfl
  · split
    · exact .of_not_word (by simp [Content.category]) rfl
    · exact .of_not_word (by simp [Content.category]) rfl
  · exact .of_not_word (by simp [single, Content.category]) rfl

theorem proper_quote (cs : List Char) : (quote cs).Proper := by
  unfold quote
  split
  · exact .of_not_word (by simp [Content.category]) rfl
  · exact .of_not_word (by simp [Content.category]) rfl

theorem proper_minus (cs : List Char) : (minus cs).Proper := by
  unfold minus
  split
  · exact proper_numberPiece ..
  · exact .of_not_word (by simp [single, Content.category]) rfl

theorem proper_first (c : Char) (cs : List Char) : (first c cs).Proper := by
  unfold first
  split
  · exact .of_not_word (by simp [single, Content.category]) rfl
  split
  · exact proper_slash cs
  split
  · exact proper_quote cs
  split
  · exact .of_not_word (by simp [blank, Content.category]) rfl
  split
  · exact proper_word c cs
  split
  · exact proper_numberPiece ..
  split
  · exact proper_minus cs
  · exact .of_not_word (by simp [single, Content.category]) rfl

end Piece

/-! ### All tokens -/

theorem byteLength_pos {cs : List Char} (h : cs ≠ []) : 0 < byteLength cs := by
  cases cs with
  | nil => exact absurd rfl h
  | cons c cs =>
    have hpos := c.utf8Size_pos
    rw [byteLength_cons]
    omega

namespace Token

theorem proper_of_mem_stream {start : Nat} {cs : List Char} {t : Token} (h : t ∈ stream start cs) :
    t.Proper := by
  fun_induction stream start cs with
  | case1 => simp at h
  | case2 start c cs p ih =>
    rcases List.mem_cons.1 h with rfl | h
    · have hpos := byteLength_pos (Piece.lexeme_ne_nil c cs)
      have hfirst := Piece.proper_first c cs
      exact ⟨Nat.lt_add_of_pos_right hpos, hfirst.inside, hfirst.spelled⟩
    · exact ih h

/-- Leaving tokens out leaves the others in order. -/
theorem laid_filter_stream (keep : Token → Bool) (start : Nat) (cs : List Char) :
    Laid (start + byteLength cs) start ((stream start cs).filter keep) := by
  fun_induction stream start cs with
  | case1 start => exact Nat.le_refl _
  | case2 start c cs p ih =>
    have hcut : byteLength p.lexeme + byteLength p.rest = byteLength (c :: cs) := by
      rw [← byteLength_append, Piece.lexeme_append_rest]
    rw [Nat.add_assoc, hcut] at ih
    have hproper : Token.Proper ⟨p.content, p.lexeme, start⟩ := by
      refine @proper_of_mem_stream start (c :: cs) _ ?_
      rw [stream]
      exact List.mem_cons_self
    rw [List.filter_cons]
    split
    · exact ⟨Nat.le_refl _, hproper, ih⟩
    · exact ih.mono (Nat.le_add_right ..)

end Token

end SchemaLang
