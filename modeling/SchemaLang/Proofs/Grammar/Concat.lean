import SchemaLang.Proofs.Grammar.Layout
import SchemaLang.Proofs.Grammar.Persist
import SchemaLang.Proofs.Token.Lexical
import SchemaLang.Error

/-!
# Two sources in one

A source that can be read may be followed, on a new line, by another one.  What is read then is
what is read from the first and, further on, what is read from the second; and if the second one
cannot be read, the error is its error, further on.

Three things make this true.  A source that can be read has known tokens only, and a line break
ends these.  A statement is read as it was, whatever stands behind it, so the statements of the
first source come first, up to its last token.  And from there on, the tokens are those of the
second source by itself, moved.

## Main results

* `ofSource_newline` — the tokens of both sources, one behind the other.
* `Grammar.statements_extend` — the statements of the first source come first.
* `Grammar.statements_moved` — the statements of the second source, moved.
* `parseSchema_newline` — **reading commutes with putting sources one below the other.**
-/

namespace SchemaLang

open SchemaLang.Parser

/-! ### Known tokens -/

theorem Terminal.accepts_unknown (t : Terminal) : t.accepts .unknown = false := by
  cases t <;> rfl

/-- What is no token of the language stands in no sentence. -/
theorem Derives.known {e : Ebnf} {d : Derivation} {ws : List Content} (h : Derives e d ws) :
    ∀ c ∈ ws, c ≠ .unknown := by
  induction h with
  | @token t c hc =>
    intro c' hc' hunknown
    rw [List.mem_singleton.1 hc'] at hunknown
    rw [hunknown, t.accepts_unknown] at hc
    cases hc
  | symbol _ ih => exact ih
  | seq _ _ ih₁ ih₂ => exact List.forall_mem_append.2 ⟨ih₁, ih₂⟩
  | left _ ih => exact ih
  | right _ ih => exact ih
  | absent => simp
  | present _ ih => exact ih
  | stop => simp
  | more _ _ ih₁ ih₂ => exact List.forall_mem_append.2 ⟨ih₁, ih₂⟩

/-- A source whose sentence can be derived, or a part of such a sentence, has known tokens only. -/
theorem known_of_contents {source : List Char}
    (h : ∀ c ∈ (Input.ofSource source).contents, c ≠ .unknown) :
    ∀ t ∈ Token.stream 0 source, t.content ≠ .unknown := by
  intro t ht hunknown
  have hcode : t ∈ (Input.ofSource source).tokens := by
    refine List.mem_filter.2 ⟨ht, ?_⟩
    rw [Token.category, hunknown]
    rfl
  exact h _ (List.mem_map_of_mem hcode) hunknown

theorem known_of_parseSchema {source : List Char} {s : Schema} (h : parseSchema source = .ok s) :
    ∀ t ∈ Token.stream 0 source, t.content ≠ .unknown := by
  obtain ⟨d, hd, -⟩ := derives_of_parseSchema h
  refine known_of_contents ?_
  rw [contents_ofSource]
  exact hd.known

/-- The tokens of two sources on lines of their own. -/
theorem ofSource_newline {front : List Char} (back : List Char)
    (hknown : ∀ t ∈ Token.stream 0 front, t.content ≠ .unknown) :
    Input.ofSource (front ++ '\n' :: back) =
      (Input.ofSource front).extend (Token.code (byteLength front + 1) back)
        (byteLength back + 1) := by
  have hcode := Token.code_newline 0 front back hknown
  rw [Nat.zero_add] at hcode
  have hsize : byteLength (front ++ '\n' :: back) = byteLength front + (byteLength back + 1) := by
    rw [byteLength_append, byteLength_cons, Nat.add_comm (byteLength back)]
    rfl
  show Input.mk 0 (Token.code 0 (front ++ '\n' :: back)) _ = _
  rw [hcode, hsize]
  rfl

namespace Grammar

variable {more : List Token} {bytes : Nat}

/-! ### The statements of the first source -/

/-- Reading a statement and those after it. -/
theorem statements_of_node {i j : Input} {n : Node} (hi : i.Valid) (h : node i = (.ok n, j)) :
    (whileNext (· ≠ .endOfInput) node i).1 =
      (whileNext (· ≠ .endOfInput) node j).1.map (n :: ·) := by
  obtain ⟨d, ws, hd, -, hread, -⟩ := (decides_node hi).accept h
  have hlt := repeats_statement.left_lt hd hread
  have haccept : decide (i.next.category ≠ .endOfInput) = true := by
    obtain ⟨c, xs, rfl, hc⟩ := repeats_statement.opens d ws hd
    have hnext : i.next.content = c := by
      rw [← Input.upcoming_contents, hread.contents]
      rfl
    rw [Token.category, hnext]
    exact hc
  rw [whileNext, if_pos haccept, h]
  simp only [if_pos hlt]
  rcases whileNext (· ≠ .endOfInput) node j with ⟨err | ns, k⟩
  · rfl
  · rfl

/-- In front of more tokens, the statements that were read come first, and reading goes on where
it ended. -/
theorem statements_extend {i j : Input} {body : List Node} (hi : i.Valid)
    (hi' : (i.extend more bytes).Valid)
    (h : whileNext (· ≠ .endOfInput) node i = (.ok body, j)) :
    j.size = i.size ∧ (j.extend more bytes).Valid ∧
      (whileNext (· ≠ .endOfInput) node (i.extend more bytes)).1 =
        (whileNext (· ≠ .endOfInput) node (j.extend more bytes)).1.map (body ++ ·) := by
  fun_induction whileNext (fun c => decide (c ≠ Category.endOfInput)) node i
    generalizing body j with
  | case1 => cases h
  | case2 => cases h
  | case3 i _ n k hnode hlt ns l hrest ih =>
    cases h
    obtain ⟨d, ws, -, hread, hbefore, hstep⟩ := @persists_node more bytes i hi n k hnode
    have hnode' := hstep trivial
    obtain ⟨_, _, -, -, hread', -⟩ := (decides_node hi').accept hnode'
    obtain ⟨hsize, hvalid, hrun⟩ := ih hread.valid hread'.valid hrest
    refine ⟨hsize.trans hbefore.size, hvalid, ?_⟩
    rw [statements_of_node hi' hnode', hrun]
    rcases whileNext (· ≠ .endOfInput) node (l.extend more bytes) with ⟨err | ms, m⟩
    · rfl
    · rfl
  | case4 i _ n k hnode hlt =>
    obtain ⟨d, ws, hd, -, hread, -⟩ := (decides_node hi).accept hnode
    exact absurd (repeats_statement.left_lt hd hread) hlt
  | case5 i hstop =>
    cases h
    refine ⟨rfl, hi', ?_⟩
    rcases whileNext (· ≠ .endOfInput) node (i.extend more bytes) with ⟨err | ms, m⟩
    · rfl
    · rfl

/-! ### The statements of the second source -/

/-- Blanks in front of a statement do not matter. -/
theorem node_skip (i : Input) : node i.skip = node i := by
  unfold node
  rw [Input.next_skip]
  split
  · rfl
  · next kind _ => cases kind <;> rfl
  · rfl

theorem valid_skip {i : Input} (hi : i.Valid) : i.skip.Valid := by
  cases htokens : i.tokens with
  | nil =>
    have hnext : i.next.start = i.size := by
      rw [Input.next, htokens]
      rfl
    simp only [Input.Valid, Input.skip, hnext, htokens]
    exact Nat.le_refl _
  | cons t ts =>
    have hnext : i.next = t := by
      rw [Input.next, htokens]
      rfl
    have hlaid : Token.Laid i.size i.offset (t :: ts) := by
      rw [← htokens]
      exact hi
    simp only [Input.Valid, Input.skip, hnext, htokens]
    exact ⟨Nat.le_refl _, hlaid.2⟩

theorem statements_skip {i : Input} (hi : i.Valid) :
    (whileNext (· ≠ .endOfInput) node i.skip).1 = (whileNext (· ≠ .endOfInput) node i).1 := by
  rcases hnode : node i with ⟨err | n, j⟩
  · have hnode' : node i.skip = (.error err, j) := (node_skip i).trans hnode
    rw [whileNext, whileNext, Input.next_skip, hnode, hnode']
    split
    · rfl
    · rfl
  · have hnode' : node i.skip = (.ok n, j) := (node_skip i).trans hnode
    rw [statements_of_node hi hnode, statements_of_node (valid_skip hi) hnode']

/-- Positions that are `n` bytes apart stay so. -/
theorem aligned_add (n : Nat) : Aligned id (· + n) where
  add := by
    intro a b m h
    simp only [id_eq] at h ⊢
    omega
  max := by
    intro a b c d h h'
    simp only [id_eq] at h h' ⊢
    omega

/-- Moved by `n` bytes, a source has the same statements moved, or the same error. -/
theorem statements_moved (n : Nat) (source : List Char) :
    (whileNext (· ≠ .endOfInput) node ⟨n, Token.code n source, n + byteLength source⟩).1 =
      ((whileNext (· ≠ .endOfInput) node (Input.ofSource source)).1.map
        (List.map (Node.mapSpans (.shift n)))).mapError (SyntaxError.move (· + n)) := by
  have hcode := Token.code_add 0 n source
  rw [Nat.zero_add] at hcode
  have halike : (⟨n, Token.code n source, n + byteLength source⟩ : Input).Alike id (· + n)
      (Input.ofSource source) := by
    refine ⟨Token.laid_filter_stream _ n source, ofSource_valid source, ?_, ?_, ?_⟩
    · show (Token.code n source).map (move id) = (Token.code 0 source).map (move (· + n))
      rw [hcode, List.map_map]
      rfl
    · exact (Nat.zero_add n).symm
    · exact Nat.add_comm n _
  have hrun := inStep_whileNext (· ≠ .endOfInput) (inStep_node (aligned_add n)) _ _ halike
  generalize whileNext (· ≠ .endOfInput) node ⟨n, Token.code n source, n + byteLength source⟩ = r
    at hrun ⊢
  generalize whileNext (· ≠ .endOfInput) node (Input.ofSource source) = r' at hrun ⊢
  cases hrun with
  | @error e e' j j' he =>
    have hmove : e = e'.move (· + n) := by
      rw [← show e.move id = e by cases e <;> rfl]
      exact he
    rw [hmove]
    rfl
  | @ok body body' j j' hbody _ _ _ =>
    have hself : body.map (Node.mapSpans (.move id)) = body := by
      rw [← Node.mapSpansBody_eq_map]
      exact Node.mapSpansBody_eq_self (fun _ => rfl) body
    have hmove : body = body'.map (Node.mapSpans (.shift n)) := hself.symm.trans hbody
    rw [hmove]
    rfl

/-- The statements of a source that can be read, and those of the source below it. -/
theorem statements_newline {front : List Char} {s : Schema} (h : parseSchema front = .ok s)
    (back : List Char) :
    (whileNext (· ≠ .endOfInput) node (Input.ofSource (front ++ '\n' :: back))).1 =
      (((whileNext (· ≠ .endOfInput) node (Input.ofSource back)).1.map
        (List.map (Node.mapSpans (.shift (byteLength front + 1))))).mapError
          (SyntaxError.move (· + (byteLength front + 1)))).map (s.body ++ ·) := by
  have hsource := ofSource_newline back (known_of_parseSchema h)
  have hvalid := ofSource_valid (front ++ '\n' :: back)
  rw [hsource] at hvalid ⊢
  rw [parseSchema_eq] at h
  rcases hrun : whileNext (· ≠ .endOfInput) node (Input.ofSource front) with ⟨err | body, j⟩
  · rw [hrun] at h
    cases h
  rw [hrun] at h
  cases h
  obtain ⟨hsize, hvalid', hstep⟩ := statements_extend (ofSource_valid front) hvalid hrun
  -- all of the first source is read, and only the blanks behind it are left
  have hnil : j.tokens = [] := by
    obtain ⟨_, _, -, -, hread, -⟩ := (decides_statements (ofSource_valid front)).accept hrun
    exact List.map_eq_nil_iff.1 (contents_of_statements (ofSource_valid front) hread.valid hrun)
  have hskip : (j.extend (Token.code (byteLength front + 1) back) (byteLength back + 1)).skip =
      (⟨byteLength front + 1, Token.code (byteLength front + 1) back,
        byteLength front + 1 + byteLength back⟩ : Input).skip := by
    have hbytes : j.size + (byteLength back + 1) = byteLength front + 1 + byteLength back := by
      rw [hsize]
      show byteLength front + _ = _
      omega
    rw [Input.extend, hnil, hbytes]
    rfl
  have hback : (⟨byteLength front + 1, Token.code (byteLength front + 1) back,
      byteLength front + 1 + byteLength back⟩ : Input).Valid := Token.laid_filter_stream _ _ back
  rw [hstep, ← statements_skip hvalid', hskip, statements_skip hback, statements_moved]

end Grammar

/-- An error that is moved says the same about another place. -/
theorem SyntaxError.move_add (n : Nat) (e : SyntaxError) :
    (e.move (· + n)).code = e.code ∧ (e.move (· + n)).message = e.message ∧
      (e.move (· + n)).found.span = e.found.span.shift n := by
  have hspan : ∀ t : Token, (t.move (· + n)).span = t.span.shift n := by
    intro t
    simp only [Token.span, Token.stop, Token.move, Span.shift, Span.mk.injEq, true_and]
    omega
  cases e with
  | expecting expected t => exact ⟨rfl, rfl, hspan t⟩
  | unexpected t => exact ⟨rfl, rfl, hspan t⟩

/-- **Reading commutes with putting sources one below the other.**  Below a source that can be
read, another one is read as it is by itself, with all places moved behind the line break, and its
statements follow those of the first; if it cannot be read, the error is of the same kind, with
the same message, and its place is moved. -/
theorem parseSchema_newline {front : List Char} {s : Schema} (h : parseSchema front = .ok s)
    (back : List Char) :
    (∀ s', parseSchema back = .ok s' →
      parseSchema (front ++ '\n' :: back) = .ok
        ⟨s.body ++ s'.body.map (Node.mapSpans (.shift (byteLength front + 1))),
         ⟨0, byteLength front + 1 + byteLength back⟩⟩) ∧
    (∀ e, parseSchema back = .error e → ∃ e', parseSchema (front ++ '\n' :: back) = .error e' ∧
      e'.code = e.code ∧ e'.message = e.message ∧
      e'.found.span = e.found.span.shift (byteLength front + 1)) := by
  have hrun := Grammar.statements_newline h back
  have hsize : byteLength (front ++ '\n' :: back) = byteLength front + 1 + byteLength back := by
    rw [byteLength_append, byteLength_cons, ← Nat.add_assoc]
    rfl
  rw [parseSchema_eq (front ++ '\n' :: back), parseSchema_eq back, hrun, hsize]
  rcases whileNext (· ≠ .endOfInput) Grammar.node (Input.ofSource back) with ⟨err | body, j⟩
  · refine ⟨fun s' hs' => ?_, fun e he => ?_⟩
    · cases hs'
    · cases he
      exact ⟨err.move (· + (byteLength front + 1)), rfl, SyntaxError.move_add _ err⟩
  · refine ⟨fun s' hs' => ?_, fun e he => ?_⟩
    · cases hs'
      rfl
    · cases he

/-- A comment at the end of the first source, which the line break ends; below it a source that
can be read, and one that cannot. -/
theorem parseSchema_newline_comment :
    let front := "use \"a\" // one".toList
    let back := "use \"b\"".toList
    (∃ s s', parseSchema front = .ok s ∧ parseSchema back = .ok s' ∧
      parseSchema (front ++ '\n' :: back) =
        .ok ⟨s.body ++ s'.body.map (Node.mapSpans (.shift 15)), ⟨0, 22⟩⟩) ∧
    ∃ e, parseSchema (front ++ '\n' :: "enum a".toList) = .error e ∧
      e.message = "Expecting CapitalIdentifier, got a" ∧ e.found.span = ⟨20, 21⟩ := by
  intro front back
  have hok : (parseSchema front).isOk = true ∧ (parseSchema back).isOk = true := by
    decide +kernel
  have herror : (match parseSchema "enum a".toList with
      | .ok _ => none
      | .error e => some (e.message, e.found.span)) =
        some ("Expecting CapitalIdentifier, got a", ⟨5, 6⟩) := by
    decide +kernel
  have hlength : byteLength front = 14 ∧ byteLength back = 7 := by decide +kernel
  rcases hfront : parseSchema front with e | s
  · rw [hfront] at hok
    cases hok.1
  rcases hback : parseSchema back with e | s'
  · rw [hback] at hok
    cases hok.2
  rcases hbad : parseSchema "enum a".toList with e | s''
  · rw [hbad] at herror
    obtain ⟨hmessage, hspan⟩ := Prod.mk.inj (Option.some.inj herror)
    have hread := (parseSchema_newline hfront back).1 s' hback
    obtain ⟨e', he', -, hmessage', hspan'⟩ :=
      (parseSchema_newline hfront "enum a".toList).2 e hbad
    rw [hlength.1] at hread hspan'
    rw [hlength.2] at hread
    refine ⟨⟨s, s', rfl, rfl, hread⟩, e', he', hmessage'.trans hmessage, ?_⟩
    rw [hspan', hspan]
    rfl
  · rw [hbad] at herror
    cases herror

end SchemaLang
