import SchemaLang.Proofs.Grammar.Concat
import SchemaLang.Proofs.Grammar.Nesting

/-!
# A statement by itself

The span of a statement cuts it out of its source.  What is cut out can be read by itself, and is
read as that statement alone, with all its places counted from its own first byte.

The text in the span has the tokens of the statement: it begins with the first of them and ends
with the last, and between them nothing is changed.  The reader of statements does not look behind
the last token of the statement, so with nothing left there it reads the same.  And further to the
left, the same tokens are read as the same statement, further to the left.

## Main definitions

* `Span.unshift` — a span moved to the left.

## Main results

* `Token.exists_slice` — some tokens of a source, cut out of it.
* `Grammar.node_cut` — a statement with nothing behind it.
* `parseSchema_slice` — **a statement is read from its own span.**
-/

namespace SchemaLang

open SchemaLang.Parser

/-! ### Moving trees to the left -/

/-- The span moved `n` bytes to the left. -/
def Span.unshift (n : Nat) (s : Span) : Span := ⟨s.start - n, s.stop - n⟩

theorem Span.unshift_shift (n : Nat) (s : Span) : (s.shift n).unshift n = s := by
  simp [shift, unshift]

theorem Node.unshift_shift (a : Nat) (n : Node) :
    (n.mapSpans (.shift a)).mapSpans (.unshift a) = n := by
  rw [mapSpans_mapSpans]
  exact mapSpans_eq_self (Span.unshift_shift a) n

/-! ### Cutting tokens out of a source -/

namespace Token

/-- The last token of a text ends where the text does. -/
theorem reach_stream (start : Nat) (cs : List Char) :
    reach start (stream start cs) = start + byteLength cs := by
  fun_induction stream start cs with
  | case1 => rfl
  | case2 start c cs p ih =>
    have hcut : byteLength p.lexeme + byteLength p.rest = byteLength (c :: cs) := by
      rw [← byteLength_append, Piece.lexeme_append_rest]
    rw [reach_cons, ← hcut, ← Nat.add_assoc]
    exact ih

/-- Where some tokens are left out, a row can be cut right behind one of those that are kept. -/
theorem exists_cut {keep : Token → Bool} {us ts rest : List Token}
    (h : us.filter keep = ts ++ rest) :
    ∃ front back, us = front ++ back ∧ front.filter keep = ts ∧ back.filter keep = rest ∧
      ∀ offset, reach offset front = reach offset ts := by
  induction ts generalizing us with
  | nil => exact ⟨[], us, rfl, rfl, h, fun _ => rfl⟩
  | cons t ts ih =>
    obtain ⟨gap, us', rfl, hgap, ht, hus'⟩ := List.filter_eq_cons_iff.1 h
    obtain ⟨front, back, rfl, hfront, hback, hreach⟩ := ih hus'
    refine ⟨gap ++ t :: front, back, ?_, ?_, hback, fun offset => ?_⟩
    · rw [List.append_assoc, List.cons_append]
    · rw [List.filter_append, List.filter_eq_nil_iff.2 hgap, List.nil_append,
        List.filter_cons_of_pos ht, hfront]
    · rw [reach, List.foldl_append]
      exact hreach t.stop

/-- The text from the first of some tokens to the last has these tokens. -/
theorem exists_slice {source : List Char} {before ts after : List Token} {t : Token}
    (h : code 0 source = before ++ (t :: ts ++ after)) :
    ∃ text, (⟨t.start, reach t.start (t :: ts)⟩ : Span).Covers source text ∧
      code t.start text = t :: ts := by
  -- all tokens, those that are not code too: up to the first one, up to the last one, and the rest
  obtain ⟨front, back, hstream, -, hback, -⟩ := exists_cut h
  obtain ⟨gap, us, rfl, -, ht, hus⟩ := List.filter_eq_cons_iff.1 hback
  obtain ⟨middle, rest, rfl, hmiddle, -, hreach⟩ := exists_cut hus
  rw [← List.append_assoc] at hstream
  obtain ⟨cs, hsource, hcs⟩ := stream_eq_append hstream
  rw [Nat.zero_add, ← List.cons_append] at hcs
  obtain ⟨tail, htail, -⟩ := stream_eq_append hcs.symm
  -- a token stays the same when what follows it is cut short
  have htokens := stream_lexemes hcs.symm
  have hstart : t.start = byteLength (lexemes (front ++ gap)) := by
    cases cs with
    | nil => simp [stream] at hcs
    | cons c cs =>
      rw [stream_cons, List.cons_append, List.cons.injEq] at hcs
      rw [hcs.1]
  have hstop : reach t.start (t :: ts) = t.start + byteLength (lexemes (t :: middle)) := by
    rw [← reach_stream, hstart, htokens, reach_cons, reach_cons, hreach]
  refine ⟨lexemes (t :: middle), ⟨lexemes (front ++ gap), tail, ?_, hstart.symm, ?_⟩, ?_⟩
  · rw [hsource, htail]
  · rw [hstop, byteLength_append, hstart]
  · have hkeep : (t :: middle).filter (·.category.isCode) = t :: ts := by
      rw [List.filter_cons, if_pos ht, hmiddle]
    rw [code, hstart, htokens, hkeep]

theorem Laid.front {size offset : Nat} {ts us : List Token} (h : Laid size offset (ts ++ us)) :
    Laid (reach offset ts) offset ts := by
  induction ts generalizing offset with
  | nil => exact Nat.le_refl _
  | cons t ts ih =>
    obtain ⟨hstart, hproper, hrest⟩ := h
    exact ⟨hstart, hproper, ih hrest⟩

end Token

namespace Grammar

/-! ### A statement with nothing behind it -/

/-- A statement is read where reading the statements before it has led. -/
theorem exists_read_of_mem {source : List Char} {i k : Input} {body : List Node} {n : Node}
    (hi : i.In source) (h : whileNext (· ≠ .endOfInput) node i = (.ok body, k)) (hn : n ∈ body) :
    ∃ ts j l, i.Takes ts j ∧ node j = (.ok n, l) := by
  fun_induction whileNext (fun c => decide (c ≠ Category.endOfInput)) node i
    generalizing body k with
  | case1 => cases h
  | case2 => cases h
  | case3 i _ m j hnode _ ms l hrest ih =>
    cases h
    obtain ⟨⟨ts, hts⟩, -⟩ := places_node hi m j hnode
    rcases List.mem_cons.1 hn with rfl | hn
    · exact ⟨[], i, j, .refl i, hnode⟩
    · obtain ⟨us, j', l', hus, hread⟩ := ih (hi.takes hts).1 hrest hn
      exact ⟨ts ++ us, j', l', hts.trans hus, hread⟩
  | case4 i _ m j hnode _ =>
    cases h
    rw [List.mem_singleton] at hn
    exact ⟨[], i, j, .refl i, hn ▸ hnode⟩
  | case5 =>
    cases h
    cases hn

/-- A statement takes a token at least, and its span reaches from the first to the last. -/
theorem node_takes {source : List Char} {i j : Input} {n : Node} (hi : i.In source)
    (h : node i = (.ok n, j)) :
    ∃ t ts, i.Takes (t :: ts) j ∧ n.span = ⟨t.start, Token.reach t.start (t :: ts)⟩ := by
  obtain ⟨d, ws, hd, -, hread, -⟩ := (decides_node hi.valid).accept h
  obtain ⟨⟨ts, htakes⟩, hstart, -, hspan⟩ := places_node hi n j h
  cases ts with
  | nil =>
    have hleft : j.left = i.left := by
      rw [Input.left, Input.left, htakes.size, htakes.offset]
      rfl
    exact absurd (repeats_statement.left_lt hd hread) (hleft ▸ Nat.lt_irrefl _)
  | cons t ts =>
    have hnext := Input.next_of_tokens htakes.tokens
    have hstop : n.span.stop = Token.reach t.start (t :: ts) := hspan.ends.trans htakes.offset
    exact ⟨t, ts, htakes, by rw [← hstop, ← hnext, ← hstart]⟩

/-- Some of the tokens to be read, with nothing behind them. -/
theorem valid_cut {i j : Input} {t : Token} {ts : List Token} (hi : i.Valid)
    (h : i.Takes (t :: ts) j) : (⟨t.start, t :: ts, j.offset⟩ : Input).Valid := by
  have hnext := Input.next_of_tokens h.tokens
  have hskip : Token.Laid i.size i.next.start i.tokens := valid_skip hi
  rw [hnext, h.tokens] at hskip
  have hoffset : j.offset = Token.reach t.start (t :: ts) := h.offset
  rw [Input.Valid, hoffset]
  exact hskip.front

/-- A statement is read from its own tokens alone. -/
theorem node_cut {i j : Input} {n : Node} {t : Token} {ts : List Token} (hi : i.Valid)
    (h : node i = (.ok n, j)) (htakes : i.Takes (t :: ts) j) :
    node ⟨t.start, t :: ts, j.offset⟩ = (.ok n, ⟨j.offset, [], j.offset⟩) := by
  have hnext := Input.next_of_tokens htakes.tokens
  obtain ⟨d, ws, hd, -, hread, -⟩ := (decides_node hi).accept h
  have hws : ws = (t :: ts).map (·.content) := by
    have hcontents := hread.contents
    rw [Input.contents, htakes.tokens, List.map_append] at hcontents
    exact (List.append_cancel_right hcontents).symm
  have hle : j.offset ≤ i.size := htakes.size ▸ Token.Laid.le hread.valid
  -- behind the tokens of the statement, all else is added again
  have hextend : (⟨t.start, t :: ts, j.offset⟩ : Input).extend j.tokens (i.size - j.offset) =
      i.skip := by
    rw [Input.extend, Input.skip, hnext, Nat.add_sub_cancel' hle, ← htakes.tokens]
  have hvalid := valid_cut hi htakes
  rcases hrun : node ⟨t.start, t :: ts, j.offset⟩ with ⟨err | n', k⟩
  · -- the derivation that was found in front of more tokens is one here, too
    refine absurd ?_ ((decides_node hvalid).reject hrun d ws)
    refine ⟨hd, [], ?_, trivial⟩
    rw [List.append_nil, hws]
    rfl
  · obtain ⟨-, -, -, -, hbefore, hstep⟩ :=
      @persists_node j.tokens (i.size - j.offset) _ hvalid n' k hrun
    have hsame := hstep trivial
    rw [hextend, node_skip, h] at hsame
    obtain ⟨hn, hj⟩ := Prod.mk.inj hsame
    have htokens : k.tokens = [] := by
      have hlist : j.tokens = k.tokens ++ j.tokens := congrArg Input.tokens hj
      exact List.self_eq_append_left.1 hlist
    have hoffset : j.offset = (k.extend j.tokens (i.size - j.offset)).offset :=
      congrArg Input.offset hj
    have hsize : k.size = j.offset := hbefore.size
    obtain ⟨offset, tokens, size⟩ := k
    cases htokens
    cases hsize
    cases hoffset
    rw [Except.ok.inj hn]

/-- A statement from its own tokens alone makes up a source. -/
theorem statements_cut {i j : Input} {n : Node} {t : Token} {ts : List Token} (hi : i.Valid)
    (h : node i = (.ok n, j)) (htakes : i.Takes (t :: ts) j) :
    (whileNext (· ≠ .endOfInput) node ⟨t.start, t :: ts, j.offset⟩).1 = .ok [n] := by
  have hend : whileNext (· ≠ .endOfInput) node ⟨j.offset, [], j.offset⟩ =
      (.ok [], ⟨j.offset, [], j.offset⟩) := by
    rw [whileNext]
    rfl
  rw [statements_of_node (valid_cut hi htakes) (node_cut hi h htakes), hend]
  rfl

end Grammar

/-- **A statement is read from its own span.**  The text that the span of a statement stands for
is a source of that one statement, with all places counted from its first byte: moved to where the
statement stands, it is the statement, and the statement moved to the left is what is read. -/
theorem parseSchema_slice {source : List Char} {s : Schema} (h : parseSchema source = .ok s)
    {n : Node} (hn : n ∈ s.body) :
    ∃ text, n.span.Covers source text ∧
      ∃ n', parseSchema text = .ok ⟨[n'], ⟨0, byteLength text⟩⟩ ∧
        n' = n.mapSpans (.unshift n.span.start) ∧ n = n'.mapSpans (.shift n.span.start) := by
  obtain ⟨-, k, hrun⟩ := statements_of_parseSchema h
  have hroot := Input.in_ofSource source
  obtain ⟨before, i, j, hbefore, hnode⟩ := Grammar.exists_read_of_mem hroot hrun hn
  have hi := (hroot.takes hbefore).1
  obtain ⟨t, ts, htakes, hspan⟩ := Grammar.node_takes hi hnode
  have hcode : Token.code 0 source = before ++ (t :: ts ++ j.tokens) := by
    rw [← htakes.tokens]
    exact hbefore.tokens
  obtain ⟨text, hcovers, htext⟩ := Token.exists_slice hcode
  have hsize : j.offset = t.start + byteLength text := by
    obtain ⟨front, back, -, hfront, hstop⟩ := hcovers
    rw [byteLength_append, hfront] at hstop
    exact htakes.offset.trans hstop.symm
  have hread := Grammar.statements_cut hi.valid hnode htakes
  rw [← htext, hsize, Grammar.statements_moved] at hread
  rw [hspan]
  refine ⟨text, hcovers, ?_⟩
  rw [parseSchema_eq text]
  rcases hrun' : whileNext (· ≠ .endOfInput) Grammar.node (Input.ofSource text) with
    ⟨err | body', l⟩
  · rw [hrun'] at hread
    cases hread
  · rw [hrun'] at hread
    obtain ⟨n', rfl, hn'⟩ := List.map_eq_singleton_iff.1 (Except.ok.inj hread)
    refine ⟨n', rfl, ?_, hn'.symm⟩
    rw [← hn', Node.unshift_shift]

/-- A model behind a comment and a request, with an empty list of attributes and a column that has
some; the comment behind it is not cut out. -/
theorem parseSchema_slice_model :
    let source := "/* é */ use \"a\"\nmodel B \x7b c D[] @e.f(1 \x7bg 2\x7d) \x7d // h".toList
    ∃ s n, parseSchema source = .ok s ∧ n ∈ s.body ∧ n.span = ⟨17, 48⟩ ∧
      ∃ text, n.span.Covers source text ∧
        ∃ n', parseSchema text = .ok ⟨[n'], ⟨0, byteLength text⟩⟩ ∧
          n' = n.mapSpans (.unshift n.span.start) ∧ n = n'.mapSpans (.shift n.span.start) := by
  intro source
  have hread : (parseSchema source).toOption.map (fun s => s.body.map Node.span) =
      some [⟨9, 16⟩, ⟨17, 48⟩] := by
    decide +kernel
  rcases hs : parseSchema source with e | s
  · rw [hs] at hread
    cases hread
  · rw [hs] at hread
    have hspans : s.body.map Node.span = [⟨9, 16⟩, ⟨17, 48⟩] := Option.some.inj hread
    have hmem : ⟨17, 48⟩ ∈ s.body.map Node.span := by
      rw [hspans]
      simp
    obtain ⟨n, hn, hspan⟩ := List.mem_map.1 hmem
    exact ⟨s, n, rfl, hn, hspan, parseSchema_slice hs hn⟩

end SchemaLang
