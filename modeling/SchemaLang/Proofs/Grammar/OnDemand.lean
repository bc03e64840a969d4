import SchemaLang.Proofs.Grammar.Cursor

/-!
# Scanning on demand

The grammar reads tokens that were scanned beforehand, without those that are not code.  A reader
could as well keep nothing but a byte position, and scan the source from there each time it asks
for a token, past blanks and comments.  Both come to the same: wherever the cursor stands, its
position stands for all that is left to read, and the next token is the one at which scanning token
by token stops.

## Main definitions

* `SkipsTo` — scanning from one byte position leads to another, past all that is not code.
* `Input.scanned` — what is left to read from a byte position on, as it is scanned from there.

## Main results

* `Input.Stands.eq_scanned` — the position of the cursor stands for the whole input.
* `Input.Stands.find?_lexAt` — the next token is the first one that is code.
* `Input.Stands.on_demand` — **scanning where the cursor stands finds the next token.**
* `Parser.satisfy_on_demand` — reading a token by scanning it.

## References

`SPEC_FULL.md`, section 4.1 (a scanner that is nothing beyond source and offset), section 4.2
(`skipNonCode`, `expect`) and section 9 (backtracking by invoking the scanner again).
-/

namespace SchemaLang

/-! ### Scanning token by token -/

/-- Scanning one token after the other from a byte position, past those that are not code, stops at
another: a token that is code starts there, or the end. -/
inductive SkipsTo (source : List Char) : Nat → Nat → Prop where
  /-- The token at the position is code. -/
  | stop {position : Nat} (code : (scanAt source position).category.isCode = true) :
    SkipsTo source position position
  /-- The token at the position is not code, and scanning goes on behind it. -/
  | past {position stop : Nat} (noCode : (scanAt source position).category.isCode = false)
    (rest : SkipsTo source (scanAt source position).stop stop) : SkipsTo source position stop

/-- There is only one place where scanning stops. -/
theorem SkipsTo.unique {source : List Char} {position stop stop' : Nat}
    (h : SkipsTo source position stop) (h' : SkipsTo source position stop') : stop = stop' := by
  induction h with
  | stop code =>
    cases h' with
    | stop _ => rfl
    | past noCode _ => simp [code] at noCode
  | past noCode _ ih =>
    cases h' with
    | stop code => simp [code] at noCode
    | past _ rest => exact ih rest

/-- The token at a position is the first of those from there on. -/
theorem head?_lexAt (source : List Char) (position : Nat) :
    (lexAt source position).head? = some (scanAt source position) := by
  unfold lexAt scanAt
  rcases openAt source position with ⟨start, _ | ⟨c, cs⟩⟩
  · rw [lexFrom_nil]
    rfl
  · rw [lexFrom, Token.stream_cons]
    rfl

namespace Input

variable {source : List Char} {i : Input}

/-! ### What is left to read -/

/-- What is left to read from a byte position on, as it is scanned from there. -/
def scanned (source : List Char) (position : Nat) : Input :=
  ⟨position, (lexAt source position).dropLast.filter (·.category.isCode), byteLength source⟩

/-- Behind some of the tokens of a source, the others are scanned. -/
theorem lexAt_offset_behind (source : List Char) (n : Nat) :
    lexAt source (behind source n).offset =
      (Token.stream 0 source).drop n ++ [.endOfInput (byteLength source)] := by
  have hsplit := (List.take_append_drop n (Token.stream 0 source)).symm
  obtain ⟨rest, hsource, hrest⟩ := Token.stream_eq_append hsplit
  have hopen := openAt_of_boundary (Token.lexemes ((Token.stream 0 source).take n)) rest
  rw [← hsource] at hopen
  rw [Nat.zero_add] at hrest
  rw [offset_behind, lexAt, hopen, lexFrom, ← hrest, ← byteLength_append, ← hsource]

/-- **The position of the cursor stands for the whole input.** -/
theorem Stands.eq_scanned (hi : i.Stands source) : i = scanned source i.offset := by
  obtain ⟨n, rfl⟩ := hi
  rw [scanned, lexAt_offset_behind, List.dropLast_concat]
  rfl

theorem Stands.skip (hi : i.Stands source) : i.skip.Stands source := by
  obtain ⟨n, rfl⟩ := hi
  obtain ⟨k, hk⟩ := exists_skip source n
  exact ⟨n + k, hk⟩

theorem Stands.advance (hi : i.Stands source) : i.advance.Stands source := by
  obtain ⟨n, rfl⟩ := hi
  obtain ⟨k, hk⟩ := exists_advance source n
  exact ⟨n + k, hk⟩

/-! ### The next token -/

/-- The next token is the first one that is code, or the end. -/
theorem Stands.find?_lexAt (hi : i.Stands source) :
    (lexAt source i.offset).find? (·.category.isCode) = some i.next := by
  obtain ⟨n, rfl⟩ := hi
  rw [lexAt_offset_behind, List.find?_append, next, ← List.head?_filter]
  show (behind source n).tokens.head?.or _ = _
  cases (behind source n).tokens.head? with
  | none => rfl
  | some t => rfl

/-- At the cursor, the first of the tokens that are left is scanned. -/
theorem scanAt_offset_behind (source : List Char) (n : Nat) :
    scanAt source (behind source n).offset =
      ((Token.stream 0 source).drop n).head?.getD (.endOfInput (byteLength source)) := by
  have hhead := head?_lexAt source (behind source n).offset
  rw [lexAt_offset_behind, List.head?_append] at hhead
  apply Option.some.inj
  rw [← hhead]
  cases ((Token.stream 0 source).drop n).head? with
  | none => rfl
  | some t => rfl

/-- The cursor stands where the first of the tokens that are left starts. -/
theorem offset_behind_of_cons {n : Nat} {t : Token} {ts : List Token}
    (h : (Token.stream 0 source).drop n = t :: ts) : (behind source n).offset = t.start := by
  have hstream := (List.take_append_drop n (Token.stream 0 source)).symm
  rw [h] at hstream
  exact (Token.start_eq_reach hstream).symm

/-- Behind a token that is not code the same token is the next one. -/
theorem behind_succ_of_not_code {n : Nat} {t : Token} {ts : List Token}
    (h : (Token.stream 0 source).drop n = t :: ts) (hcode : t.category.isCode = false) :
    (behind source (n + 1)).next = (behind source n).next ∧
      (behind source (n + 1)).offset = t.stop := by
  have hdrop : (Token.stream 0 source).drop (n + 1) = ts := by
    rw [← List.tail_drop, h, List.tail_cons]
  have htake : (Token.stream 0 source).take (n + 1) = (Token.stream 0 source).take n ++ [t] := by
    rw [List.take_add, h]
    rfl
  constructor
  · rw [next, next, behind, behind, h, hdrop, List.filter_cons, if_neg (by simp [hcode])]
  · show Token.reach 0 _ = _
    rw [htake, Token.reach_append]
    rfl

/-- Scanning from the cursor stops at the next token. -/
theorem skipsTo_behind (source : List Char) (n : Nat) :
    SkipsTo source (behind source n).offset (behind source n).next.start ∧
      scanAt source (behind source n).next.start = (behind source n).next := by
  -- one token after the other of those that are left
  induction hleft : (Token.stream 0 source).drop n generalizing n with
  | nil =>
    have hnext : (behind source n).next = .endOfInput (byteLength source) := by
      rw [next, behind, hleft]
      rfl
    have hoffset : (behind source n).offset = byteLength source := by
      show Token.reach 0 _ = _
      rw [List.take_of_length_le (List.drop_eq_nil_iff.mp hleft), Token.reach_stream, Nat.zero_add]
    have hscan : scanAt source (byteLength source) = .endOfInput (byteLength source) := by
      rw [← hoffset, scanAt_offset_behind, hleft, hoffset]
      rfl
    rw [hnext, hoffset]
    exact ⟨.stop (by rw [hscan]; rfl), hscan⟩
  | cons t ts ih =>
    have hscan : scanAt source (behind source n).offset = t := by
      rw [scanAt_offset_behind, hleft]
      rfl
    cases hcode : t.category.isCode with
    | true =>
      have hnext : (behind source n).next = t := by
        rw [next, behind, hleft, List.filter_cons, if_pos hcode]
        rfl
      rw [offset_behind_of_cons hleft] at hscan ⊢
      rw [hnext]
      exact ⟨.stop (by rw [hscan]; exact hcode), hscan⟩
    | false =>
      obtain ⟨hnext, hstop⟩ := behind_succ_of_not_code hleft hcode
      obtain ⟨hskips, hfound⟩ := ih (n + 1) (by rw [← List.tail_drop, hleft, List.tail_cons])
      rw [hnext] at hskips hfound
      rw [hstop, ← hscan] at hskips
      exact ⟨.past (by rw [hscan]; exact hcode) hskips, hfound⟩

theorem Stands.skipsTo (hi : i.Stands source) : SkipsTo source i.offset i.next.start := by
  obtain ⟨n, rfl⟩ := hi
  exact (skipsTo_behind source n).1

/-- **Scanning where the cursor stands finds the next token.**  Token by token, and past all that is
not code, scanning stops where the next token starts, and there it is scanned; it is the first one
that is code of all those scanned from the cursor on.  Skipping leaves what is scanned from its
start on, and reading it leaves what is scanned from its end on. -/
theorem Stands.on_demand (hi : i.Stands source) (position : Nat) :
    (SkipsTo source i.offset position ↔ position = i.next.start) ∧
      scanAt source i.next.start = i.next ∧
      (lexAt source i.offset).find? (·.category.isCode) = some i.next ∧
      i.skip = scanned source i.next.start ∧ i.advance = scanned source i.next.stop := by
  refine ⟨⟨fun h => h.unique hi.skipsTo, ?_⟩, ?_, hi.find?_lexAt, ?_, ?_⟩
  · rintro rfl
    exact hi.skipsTo
  · obtain ⟨n, rfl⟩ := hi
    exact (skipsTo_behind source n).2
  · exact hi.skip.eq_scanned
  · exact hi.advance.eq_scanned

end Input

namespace Parser

variable {source : List Char} {i : Input}

/-- Reading a token is scanning one: the token at which scanning stops is taken if it is accepted,
and the cursor goes behind it; otherwise the cursor is left before it. -/
theorem satisfy_on_demand (hi : i.Stands source) {position : Nat}
    (h : SkipsTo source i.offset position) (accept : Token → Bool) (expected : String) :
    satisfy accept expected i =
      let found := scanAt source position
      if accept found then (.ok found, .scanned source found.stop)
      else (.error (.expecting expected found), .scanned source position) := by
  obtain ⟨hstop, hscan, -, hskip, hadvance⟩ := hi.on_demand position
  obtain rfl := hstop.mp h
  rw [satisfy, hskip, hadvance, hscan]

end Parser

end SchemaLang
