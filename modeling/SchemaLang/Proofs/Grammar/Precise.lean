import SchemaLang.Proofs.Grammar.Concat

/-!
# Errors name the first wrong token, or one before it

A repetition that meets a failure gives back what the failed attempt has read, and the failure
itself is forgotten; the error that is reported in the end comes from a reader further out, which
finds another token than the one it needs.  So an error is about a token in front of which all
could still be completed: the tokens before it, and one of the kind that is asked for, begin an
accepted source.

What a reader still needs after the token that is missing is marks only, an empty block at most.
That is said by expressions: one that derives marks only can be passed over at once.

## Main definitions

* `Closable` — an expression that derives marks only.
* `Awaits` — an expression that, after some contents, asks for a token of a category.
* `Parser.Precise` — a failure is about such a token.
* `Viable` — contents that the sentence of an accepted source begins with.

## Main results

* `Parser.Precise.bind`, `Grammar.precise_declaration`, `Grammar.precise_node` — the readers.
* `Grammar.statements_error` — all statements.
* `parseSchema_error` — **syntax errors are precise.**
-/

namespace SchemaLang

open SchemaLang.Parser

/-! ### Completing what was read -/

/-- The expression derives a row of marks and nothing else. -/
def Closable (e : Ebnf) : Prop :=
  ∃ (marks : List Punct) (d : Derivation), Derives e d (marks.map .punct)

/-- After the contents `ws` the expression asks for a token of the category: with any such token
behind them, marks are enough to complete what it derives. -/
def Awaits (e : Ebnf) (category : Category) (ws : List Content) : Prop :=
  ∀ c : Content, c.category = category →
    ∃ (marks : List Punct) (d : Derivation), Derives e d (ws ++ c :: marks.map .punct)

section

variable {a b : Ebnf} {category : Category} {ws xs : List Content} {d : Derivation}

namespace Closable

theorem mark (p : Punct) : Closable (Ebnf.mark p) :=
  ⟨[p], _, .token (accepts_mark_iff.2 rfl)⟩

theorem seq (ha : Closable a) (hb : Closable b) : Closable (.seq a b) := by
  obtain ⟨marks, d, hd⟩ := ha
  obtain ⟨marks', d', hd'⟩ := hb
  refine ⟨marks ++ marks', .seq d d', ?_⟩
  rw [List.map_append]
  exact .seq hd hd'

theorem opt (a : Ebnf) : Closable (.opt a) := ⟨[], _, .absent⟩

theorem many (a : Ebnf) : Closable (.many a) := ⟨[], _, .stop⟩

theorem symbol {s : Symbol} (h : Closable s.rule) : Closable (.symbol s) := by
  obtain ⟨marks, d, hd⟩ := h
  exact ⟨marks, _, .symbol hd⟩

theorem braced (a : Ebnf) : Closable (.braced a) :=
  (mark .openBrace).seq ((many a).seq (mark .closeBrace))

end Closable

namespace Awaits

theorem token {t : Terminal} (h : ∀ c : Content, c.category = category → t.accepts c = true) :
    Awaits (.token t) category [] :=
  fun c hc => ⟨[], _, .token (h c hc)⟩

/-- What comes after the part that is incomplete can be passed over. -/
theorem seq_left (h : Awaits a category ws) (hb : Closable b) : Awaits (.seq a b) category ws := by
  intro c hc
  obtain ⟨marks, d, hd⟩ := h c hc
  obtain ⟨marks', d', hd'⟩ := hb
  refine ⟨marks ++ marks', .seq d d', ?_⟩
  rw [List.map_append, ← List.cons_append, ← List.append_assoc]
  exact .seq hd hd'

theorem seq_right (hd : Derives a d ws) (h : Awaits b category xs) :
    Awaits (.seq a b) category (ws ++ xs) := by
  intro c hc
  obtain ⟨marks, d', hd'⟩ := h c hc
  refine ⟨marks, .seq d d', ?_⟩
  rw [List.append_assoc]
  exact .seq hd hd'

theorem imp (h : Awaits a category ws)
    (himp : ∀ d xs, Derives a d xs → ∃ d', Derives b d' xs) : Awaits b category ws := by
  intro c hc
  obtain ⟨marks, d, hd⟩ := h c hc
  obtain ⟨d', hd'⟩ := himp d _ hd
  exact ⟨marks, d', hd'⟩

/-- An incomplete part is the last one. -/
theorem many_last (h : Awaits a category ws) : Awaits (.many a) category ws :=
  h.imp fun d xs hd => ⟨.more d .stop, by simpa using Derives.more hd .stop⟩

theorem many_more (hd : Derives a d ws) (h : Awaits (.many a) category xs) :
    Awaits (.many a) category (ws ++ xs) := by
  intro c hc
  obtain ⟨marks, d', hd'⟩ := h c hc
  refine ⟨marks, .more d d', ?_⟩
  rw [List.append_assoc]
  exact .more hd hd'

end Awaits

end

/-! ### Failures of readers -/

/-- What an error may ask for, and its name. -/
def expectations : List (Category × String) :=
  [(.capital, "CapitalIdentifier"), (.string, "String"), (.punct .openBrace, "\x7b"),
   (.punct .closeBrace, "\x7d")]

namespace Parser

variable {α β : Type}

/-- If `p` fails at `i`, it does so before a token in whose place another one is awaited. -/
def Precise (p : Parser α) (e : Ebnf) (i : Input) : Prop :=
  ∀ (err : SyntaxError) (j : Input), p i = (.error err, j) →
    ∃ category expected ws k, (category, expected) ∈ expectations ∧ i.Reads ws k ∧ i.Before k ∧
      err = .expecting expected k.next ∧ Awaits e category ws

namespace Precise

variable {p p' : Parser α} {q : α → Parser β} {a b : Ebnf} {middle : Content → Prop} {i : Input}

/-- One parser after another that succeeds. -/
theorem after {x : α} {j : Input} (hx : p i = (.ok x, j)) (hp : Persists [] 0 p p' a middle i)
    (hq : ∀ d ws, Derives a d ws → i.Reads ws j → Precise (q x) b j) :
    Precise (p >>= q) (.seq a b) i := by
  intro err k h
  rw [bind_apply, hx] at h
  obtain ⟨d, ws, hd, hreads, hbefore, -⟩ := hp x j hx
  obtain ⟨category, expected, ws', l, hmem, hreads', hbefore', herr, hawaits⟩ :=
    hq d ws hd hreads err k h
  exact ⟨category, expected, ws ++ ws', l, hmem, hreads.trans hreads', hbefore.trans hbefore',
    herr, hawaits.seq_right hd⟩

/-- One parser after the other: what the second has to read can be passed over when the first
one fails. -/
theorem bind (hp : Precise p a i) (hread : Persists [] 0 p p' a middle i)
    (hq : ∀ x d ws j, Derives a d ws → i.Reads ws j → Precise (q x) b j) (hb : Closable b) :
    Precise (p >>= q) (.seq a b) i := by
  rcases hrun : p i with ⟨err | x, j⟩
  · intro err' k h
    rw [bind_apply, hrun] at h
    cases h
    obtain ⟨category, expected, ws, l, hmem, hreads, hbefore, herr, hawaits⟩ := hp err j hrun
    exact ⟨category, expected, ws, l, hmem, hreads, hbefore, herr, hawaits.seq_left hb⟩
  · exact after hrun hread fun d ws hd hreads => hq x d ws j hd hreads

/-- A parser followed by a computation that reads nothing. -/
theorem finish (hp : Precise p a i) (hq : ∀ x, ∃ y, q x = pure y) : Precise (p >>= q) a i := by
  intro err k h
  rcases bind_eq_error h with hfail | ⟨x, j, -, hfail⟩
  · exact hp err k hfail
  · obtain ⟨y, hy⟩ := hq x
    rw [hy, pure_apply] at hfail
    cases hfail

theorem imp (hp : Precise p a i) (himp : ∀ d ws, Derives a d ws → ∃ d', Derives b d' ws) :
    Precise p b i := by
  intro err k h
  obtain ⟨category, expected, ws, l, hmem, hreads, hbefore, herr, hawaits⟩ := hp err k h
  exact ⟨category, expected, ws, l, hmem, hreads, hbefore, herr, hawaits.imp himp⟩

theorem symbol {s : Symbol} (hp : Precise p s.rule i) : Precise p (.symbol s) i :=
  hp.imp fun _ _ hd => ⟨_, .symbol hd⟩

end Precise

theorem precise_expect {category : Category} {t : Terminal} {i : Input} (hi : i.Valid)
    (hmem : (category, category.name) ∈ expectations)
    (h : ∀ c : Content, c.category = category → t.accepts c = true) :
    Precise (expect category) (.token t) i := by
  intro err k hk
  rw [expect, satisfy] at hk
  split at hk
  · cases hk
  · cases hk
    exact ⟨category, category.name, [], i, hmem, .refl hi, .refl i, rfl, .token h⟩

end Parser

namespace Grammar

theorem precise_capital {i : Input} (hi : i.Valid) : Precise capital (.token .capital) i := by
  have hexpect := precise_expect hi (by simp [expectations, Category.name])
    fun c => (category_eq_capital_iff c).1
  exact hexpect.finish fun _ => ⟨_, rfl⟩

theorem precise_string {i : Input} (hi : i.Valid) : Precise string (.token .string) i := by
  have hexpect := precise_expect hi (by simp [expectations, Category.name])
    fun c => (category_eq_string_iff c).1
  exact hexpect.finish fun _ => ⟨_, rfl⟩

theorem precise_openBrace {i : Input} (hi : i.Valid) :
    Precise (expect (.punct .openBrace)) (Ebnf.mark .openBrace) i :=
  precise_expect hi (by decide) fun c => (category_eq_punct_iff .openBrace c).1

theorem precise_closeBrace {i : Input} (hi : i.Valid) :
    Precise (expect (.punct .closeBrace)) (Ebnf.mark .closeBrace) i :=
  precise_expect hi (by decide) fun c => (category_eq_punct_iff .closeBrace c).1

/-- Parts in braces: whatever goes wrong with a part, it is the closing brace that is missing. -/
theorem precise_braced {α β : Type} {part : Parser α} {e : Ebnf} {first middle : Content → Prop}
    {f : Token → List α → Token → β} (hrep : Repeats e first middle (· = .punct .closeBrace))
    {i : Input} (hi : i.Valid)
    (hpart : ∀ j : Input, j.Valid → Persists [] 0 part part e middle j)
    (hstop : ∀ k : Input, k.next.content = .punct .closeBrace → ∃ err l, part k = (.error err, l)) :
    Precise (do
        let s ← expect (.punct .openBrace)
        let xs ← many part
        let t ← expect (.punct .closeBrace)
        return f s xs t) (.braced e) i := by
  refine (precise_openBrace hi).bind (persists_mark .openBrace hi anything) ?_
    ((Closable.many e).seq (.mark .closeBrace))
  intro s d ws j _ hread
  refine .after rfl (persists_many hrep hread.valid (fun k hk _ => hpart k hk) hstop) ?_
  intro d' ws' _ hread'
  exact (precise_closeBrace hread'.valid).finish fun _ => ⟨_, rfl⟩

theorem precise_object {i : Input} (hi : i.Valid) : Precise object (.symbol .object) i := by
  refine .symbol (precise_braced (repeats_entry _) hi ?_ ?_)
  · intro j hj
    exact persists_property _ hj fun k hk _ => persists_data hk
  · intro k hk
    exact property_apply_of_mark _ _ hk

/-! ### Failures of statements -/

/-- The word that a statement begins with has been seen before it is read. -/
theorem expect_apply_of_keyword {word : Keyword} {i : Input} (h : i.next.content = .keyword word) :
    expect (.keyword word) i = (.ok i.next, i.advance) := by
  have hcategory : decide (i.next.category = .keyword word) = true := by
    rw [decide_eq_true_iff, Token.category, h]
    rfl
  exact satisfy_apply_of_accepts _ hcategory

theorem mergeMark_apply (i : Input) : ∃ mergeable j, mergeMark i = (.ok mergeable, j) := by
  by_cases h : i.next.category = .punct .bang
  · have hsome := optional_apply_of_accepts h
    exact ⟨false, i.advance, by rw [mergeMark, bind_apply, hsome]; rfl⟩
  · have hnone := optional_apply_of_not_accepts h
    exact ⟨true, i, by rw [mergeMark, bind_apply, hnone]; rfl⟩

/-- The heading that enums, props, types and models share. -/
theorem precise_heading {kind : Kind} {body : Token → Ident → Bool → Parser Declaration} {e : Ebnf}
    {i : Input} (hi : i.Valid) (hnext : i.next.content = .keyword (.declare kind))
    (hbody : ∀ start id mergeable (j : Input), j.Valid → Precise (body start id mergeable) e j)
    (he : Closable e) :
    Precise (do
        let start ← keyword kind
        let id ← capital
        let mergeable ← mergeMark
        body start id mergeable) (.heading kind e) i := by
  refine .after (expect_apply_of_keyword hnext) (persists_keyword kind hi anything) ?_
  intro d₁ ws₁ _ hread₁
  refine (precise_capital hread₁.valid).bind (persists_capital hread₁.valid anything) ?_
    ((Closable.opt _).seq he)
  intro id d₂ ws₂ j₂ _ hread₂
  obtain ⟨mergeable, j₃, hmark⟩ := mergeMark_apply j₂
  refine .after hmark (persists_mergeMark hread₂.valid) ?_
  intro d₃ ws₃ _ hread₃
  exact hbody _ id mergeable j₃ hread₃.valid

theorem precise_enumeration {i : Input} (hi : i.Valid)
    (hnext : i.next.content = .keyword (.declare .enum)) :
    Precise enumeration (.symbol (.declaration .enum)) i := by
  refine .symbol (precise_heading hi hnext ?_ (.braced _))
  intro start id mergeable j hj
  refine (precise_braced (repeats_entry _) hj ?_ ?_).finish fun _ => ⟨_, rfl⟩
  · intro k hk
    exact persists_property _ hk fun l hl _ => persists_scalar hl anything
  · intro k hk
    exact property_apply_of_mark _ _ hk

theorem precise_prop {i : Input} (hi : i.Valid)
    (hnext : i.next.content = .keyword (.declare .prop)) :
    Precise prop (.symbol (.declaration .prop)) i := by
  refine .symbol (precise_heading hi hnext ?_ (.symbol (.braced _)))
  intro start id mergeable j hj
  exact (precise_object hj).finish fun _ => ⟨_, rfl⟩

theorem precise_plugin {i : Input} (hi : i.Valid)
    (hnext : i.next.content = .keyword (.declare .plugin)) :
    Precise plugin (.symbol (.declaration .plugin)) i := by
  refine .symbol (.after (expect_apply_of_keyword hnext) (persists_keyword .plugin hi anything) ?_)
  intro d₁ ws₁ _ hread₁
  refine (precise_string hread₁.valid).bind (persists_string hread₁.valid anything) ?_
    (.symbol (.braced _))
  intro path d₂ ws₂ j₂ _ hread₂
  exact (precise_object hread₂.valid).finish fun _ => ⟨_, rfl⟩

theorem precise_columned {kind : Kind} {i : Input} (hi : i.Valid)
    (hnext : i.next.content = .keyword (.declare kind)) :
    Precise (columned kind) (.columned kind) i := by
  refine precise_heading hi hnext ?_ ((Closable.many _).seq (.braced _))
  intro start id mergeable j hj
  refine .after rfl (persists_attributeList hj) ?_
  intro d ws _ hread
  refine (precise_braced repeats_column hread.valid (fun k hk => persists_column hk) ?_).finish
    fun _ => ⟨_, rfl⟩
  intro k hk
  exact column_apply_of_mark hk

theorem precise_declaration (kind : Kind) {i : Input} (hi : i.Valid)
    (hnext : i.next.content = .keyword (.declare kind)) :
    Precise (declaration kind) (.symbol (.declaration kind)) i := by
  cases kind with
  | enum => exact precise_enumeration hi hnext
  | prop => exact precise_prop hi hnext
  | type => exact .symbol (precise_columned hi hnext)
  | model => exact .symbol (precise_columned hi hnext)
  | plugin => exact precise_plugin hi hnext

theorem precise_use {i : Input} (hi : i.Valid) (hnext : i.next.content = .keyword .use) :
    Precise use (.symbol .use) i := by
  refine .symbol (.after (expect_apply_of_keyword hnext)
    (persists_expect hi (category_eq_keyword_iff .use _) anything) ?_)
  intro d ws _ hread
  exact (precise_string hread.valid).finish fun _ => ⟨_, rfl⟩

/-- A declaration of any kind is a statement. -/
theorem derives_statement {kind : Kind} {d : Derivation} {ws : List Content}
    (hd : Derives (.symbol (.declaration kind)) d ws) : ∃ d', Derives statement d' ws := by
  cases kind with
  | enum => exact ⟨_, .right (.left hd)⟩
  | prop => exact ⟨_, .right (.right (.left hd))⟩
  | type => exact ⟨_, .right (.right (.right (.left hd)))⟩
  | model => exact ⟨_, .right (.right (.right (.right (.left hd))))⟩
  | plugin => exact ⟨_, .right (.right (.right (.right (.right hd))))⟩

/-- Where the next token begins no statement, the error is about it; else the statement is the
one it begins. -/
theorem precise_node {i : Input} (hi : i.Valid) :
    node i = (.error (.unexpected i.next), i.skip) ∨ Precise node statement i := by
  have hform : ∀ {r : Parser Node}, Precise r statement i → node i = r i →
      Precise node statement i := by
    intro r hr hrun err j h
    exact hr err j (hrun ▸ h)
  cases hc : i.next.content with
  | keyword k =>
    cases k with
    | use =>
      refine .inr (hform (((precise_use hi hc).finish fun u => ⟨.use u, rfl⟩).imp ?_) ?_)
      · intro d ws hd
        exact ⟨_, .left hd⟩
      · simp only [node, hc]
    | declare kind =>
      refine .inr (hform (((precise_declaration kind hi hc).finish
        fun x => ⟨.declaration x, rfl⟩).imp fun d ws hd => derives_statement hd) ?_)
      simp only [node, hc]
    | _ =>
      left
      simp only [node, hc]
  | _ =>
    left
    simp only [node, hc]

/-- Statements fail where a token begins no further one, and all before it are complete, or where
one of them awaits another token. -/
theorem statements_error {i j : Input} {err : SyntaxError} (hi : i.Valid)
    (h : whileNext (· ≠ .endOfInput) node i = (.error err, j)) :
    ∃ ws k, i.Reads ws k ∧ i.Before k ∧
      ((err = .unexpected k.next ∧ ∃ d, Derives (.many statement) d ws) ∨
        ∃ category expected, (category, expected) ∈ expectations ∧
          err = .expecting expected k.next ∧ Awaits (.many statement) category ws) := by
  fun_induction whileNext (fun c => decide (c ≠ Category.endOfInput)) node i generalizing j with
  | case1 i _ err' k hnode =>
    cases h
    rcases precise_node hi with hunexpected | hprecise
    · rw [hunexpected] at hnode
      cases hnode
      exact ⟨[], i, .refl hi, .refl i, .inl ⟨rfl, _, .stop⟩⟩
    · obtain ⟨category, expected, ws, l, hmem, hreads, hbefore, herr, hawaits⟩ :=
        hprecise err k hnode
      exact ⟨ws, l, hreads, hbefore, .inr ⟨category, expected, hmem, herr, hawaits.many_last⟩⟩
  | case2 i _ n k hnode _ err' l hrest ih =>
    cases h
    obtain ⟨d, ws, hd, hreads, hbefore, -⟩ := @persists_node [] 0 i hi n k hnode
    obtain ⟨ws', m, hreads', hbefore', hcause⟩ := ih hreads.valid hrest
    refine ⟨ws ++ ws', m, hreads.trans hreads', hbefore.trans hbefore', ?_⟩
    rcases hcause with ⟨herr, d', hd'⟩ | ⟨category, expected, hmem, herr, hawaits⟩
    · exact .inl ⟨herr, _, .more hd hd'⟩
    · exact .inr ⟨category, expected, hmem, herr, .many_more hd hawaits⟩
  | case3 => cases h
  | case4 => cases h
  | case5 => cases h

end Grammar

/-! ### Texts and their sentences -/

theorem sentence_eq (source : List Char) :
    sentence source = (Token.code 0 source).map (·.content) :=
  (contents_ofSource source).symm

/-- What the grammar sees does not depend on where the text stands. -/
theorem contents_code (start : Nat) (source : List Char) :
    (Token.code start source).map (·.content) = sentence source := by
  have hcode := Token.code_add 0 start source
  rw [Nat.zero_add] at hcode
  rw [hcode, List.map_map, sentence_eq]
  rfl

theorem sentence_newline {front : List Char} (h : ∀ c ∈ sentence front, c ≠ .unknown)
    (back : List Char) : sentence (front ++ '\n' :: back) = sentence front ++ sentence back := by
  rw [← contents_ofSource] at h
  rw [← contents_ofSource, ofSource_newline back (known_of_contents h), Input.contents_extend,
    contents_ofSource, contents_code]

/-- A row of marks can be written down. -/
theorem sentence_marks (marks : List Punct) :
    sentence (marks.map Punct.char) = marks.map .punct := by
  induction marks with
  | nil =>
    rw [List.map_nil, sentence_eq, Token.code_nil]
    rfl
  | cons p marks ih =>
    have hscans := Scans.mark p (marks.map Punct.char)
    have hcode := Token.code_of_scans hscans 0
    rw [List.map_cons, ← List.singleton_append, sentence_eq, hcode, List.map_append, contents_code,
      ih]
    rfl

/-! ### Contents that can be continued -/

/-- The sentence of some accepted source begins with these contents. -/
def Viable (ws : List Content) : Prop :=
  ∃ source s, parseSchema source = .ok s ∧ ws <+: sentence source

theorem Viable.mono {ws xs : List Content} (h : Viable ws) (hle : xs <+: ws) : Viable xs := by
  obtain ⟨source, s, hs, hws⟩ := h
  exact ⟨source, s, hs, hle.trans hws⟩

theorem parseSchema_of_derives {source : List Char} {d : Derivation}
    (h : Derives (.symbol .schema) d (sentence source)) : ∃ s, parseSchema source = .ok s :=
  (parseSchema_exact source).1.2 ⟨d, h⟩

/-- Any token of the category that is awaited may come next. -/
theorem viable_of_awaits {front text : List Char} {category : Category} {c : Content}
    (h : Awaits (.symbol .schema) category (sentence front)) (htext : sentence text = [c])
    (hc : c.category = category) : Viable (sentence front ++ [c]) := by
  obtain ⟨marks, d, hd⟩ := h c hc
  have hknown := hd.known
  -- the text so far, the token, and the marks, on a line each
  have hmarks : sentence (text ++ '\n' :: marks.map Punct.char) = c :: marks.map .punct := by
    rw [sentence_newline, htext, sentence_marks, List.singleton_append]
    rw [htext]
    intro x hx
    rw [List.mem_singleton.1 hx]
    exact hknown c (by simp)
  have hsource : sentence (front ++ '\n' :: (text ++ '\n' :: marks.map Punct.char)) =
      sentence front ++ c :: marks.map .punct := by
    rw [sentence_newline, hmarks]
    intro x hx
    exact hknown x (List.mem_append_left _ hx)
  rw [← hsource] at hd
  obtain ⟨s, hs⟩ := parseSchema_of_derives hd
  refine ⟨_, s, hs, ?_⟩
  rw [hsource]
  exact ⟨marks.map .punct, by simp⟩

/-- There are tokens of each category that an error asks for. -/
theorem exists_text_of_expectation {category : Category} {expected : String}
    (h : (category, expected) ∈ expectations) :
    ∃ text c, sentence text = [c] ∧ c.category = category := by
  simp only [expectations, List.mem_cons, Prod.mk.injEq, List.not_mem_nil, or_false] at h
  rcases h with ⟨rfl, -⟩ | ⟨rfl, -⟩ | ⟨rfl, -⟩ | ⟨rfl, -⟩
  · exact ⟨"A".toList, .capital "A", by decide +kernel, rfl⟩
  · exact ⟨"\"\"".toList, .string "", by decide +kernel, rfl⟩
  · exact ⟨_, _, sentence_marks [.openBrace], rfl⟩
  · exact ⟨_, _, sentence_marks [.closeBrace], rfl⟩

/-! ### The place of an error -/

/-- The contents of tokens that are code. -/
def significant (ts : List Token) : List Content :=
  (ts.filter (·.category.isCode)).map (·.content)

theorem significant_append (ts us : List Token) :
    significant (ts ++ us) = significant ts ++ significant us := by
  rw [significant, List.filter_append, List.map_append]
  rfl

/-- A token of a source is one before the end, or marks the end. -/
theorem lex_eq_append {source : List Char} {before after : List Token} {t : Token}
    (h : lex source = before ++ t :: after) :
    (∃ rest, Token.stream 0 source = before ++ t :: rest) ∨
      Token.stream 0 source = before ∧ t = .endOfInput (byteLength source) := by
  rw [lex, lexFrom, Nat.zero_add] at h
  rcases List.eq_nil_or_concat after with rfl | ⟨rest, u, rfl⟩
  · obtain ⟨hbefore, ht⟩ := List.append_inj' h rfl
    exact .inr ⟨hbefore, (List.cons.inj ht).1.symm⟩
  · rw [List.concat_eq_append, ← List.cons_append, ← List.append_assoc] at h
    obtain ⟨hstream, -⟩ := List.append_inj' h rfl
    exact .inl ⟨rest, hstream⟩

/-- A token starts behind the lexemes of those before it, which are read from them alone. -/
theorem start_of_lex_eq {source : List Char} {before after : List Token} {t : Token}
    (h : lex source = before ++ t :: after) :
    t.start = byteLength (Token.lexemes before) ∧
      Token.stream 0 (Token.lexemes before) = before := by
  rcases lex_eq_append h with ⟨rest, hstream⟩ | ⟨hstream, rfl⟩
  · refine ⟨?_, Token.stream_lexemes hstream⟩
    obtain ⟨cs, -, hrest⟩ := Token.stream_eq_append hstream
    cases cs with
    | nil => simp [Token.stream] at hrest
    | cons c cs =>
      rw [Token.stream_cons, List.cons.injEq] at hrest
      rw [hrest.1]
      exact Nat.zero_add _
  · subst hstream
    rw [Token.lexemes_stream]
    exact ⟨rfl, rfl⟩

/-- Every token of a source covers its lexeme there. -/
theorem covers_of_mem_lex {source : List Char} {t : Token} (h : t ∈ lex source) :
    t.span.Covers source t.lexeme := by
  rcases List.mem_append.1 h with ht | ht
  · exact (@Token.covers_of_mem_stream [] source t ht).1
  · rw [List.mem_singleton.1 ht, Nat.zero_add]
    exact covers_endOfInput source

theorem Token.describe_eq (t : Token) : t.describe =
    (if t.category = .endOfInput then "end of input" else String.ofList t.lexeme) := by
  unfold describe category
  cases t.content <;> rfl

/-- What was read, and the token that comes next, among the tokens of the source. -/
theorem lex_of_reads {source : List Char} {ws : List Content} {k : Input}
    (hread : (Input.ofSource source).Reads ws k) (hbefore : (Input.ofSource source).Before k) :
    ∃ before after, lex source = before ++ k.next :: after ∧ significant before = ws ∧
      k.next.category.isCode = true := by
  obtain ⟨ts, hts⟩ := hbefore.tokens
  have hws : ts.map (·.content) = ws := by
    have hcontents := hread.contents
    rw [Input.contents, ← hts, List.map_append] at hcontents
    exact List.append_cancel_right hcontents
  have hcode : (Token.stream 0 source).filter (·.category.isCode) = ts ++ k.tokens := hts.symm
  cases hk : k.tokens with
  | nil =>
    have hnext : k.next = .endOfInput (byteLength source) := by
      rw [Input.next, hk, hbefore.size]
      rfl
    rw [hk, List.append_nil] at hcode
    refine ⟨Token.stream 0 source, [], ?_, ?_, ?_⟩
    · rw [lex, lexFrom, Nat.zero_add, hnext]
    · rw [significant, hcode, hws]
    · rw [hnext]
      rfl
  | cons t rest =>
    have hnext : k.next = t := by
      rw [Input.next, hk]
      rfl
    rw [hk] at hcode
    obtain ⟨before, after, hstream, hbefore', hafter⟩ := List.filter_eq_append_iff.1 hcode
    obtain ⟨blanks, after', rfl, hblanks, ht, -⟩ := List.filter_eq_cons_iff.1 hafter
    refine ⟨before ++ blanks, after' ++ [.endOfInput (byteLength source)], ?_, ?_, ?_⟩
    · rw [lex, lexFrom, Nat.zero_add, hstream, hnext]
      simp
    · rw [significant_append, significant, hbefore', hws, significant,
        List.filter_eq_nil_iff.2 hblanks, List.map_nil, List.append_nil]
    · rw [hnext]
      exact ht

/-- The tokens before a token that cannot be continued are not all of those before the error. -/
theorem start_le_of_not_viable {source : List Char} {before after before' after' : List Token}
    {t u : Token} (h : lex source = before ++ t :: after) (h' : lex source = before' ++ u :: after')
    (hviable : Viable (significant before)) (hnot : ¬ Viable (significant (before' ++ [u]))) :
    t.start ≤ u.start := by
  have hle : before <+: before' := by
    have hfirst : before <+: lex source := ⟨t :: after, h.symm⟩
    have hsecond : before' ++ [u] <+: lex source := ⟨after', by rw [h']; simp⟩
    rcases List.prefix_or_prefix_of_prefix hfirst hsecond with hle | hle
    · rcases List.prefix_concat_iff.1 hle with heq | hle
      · rw [← heq] at hnot
        exact absurd hviable hnot
      · exact hle
    · obtain ⟨rest, rfl⟩ := hle
      refine absurd (hviable.mono ?_) hnot
      exact ⟨significant rest, (significant_append _ _).symm⟩
  obtain ⟨rest, rfl⟩ := hle
  have hlexemes : Token.lexemes (before ++ rest) = Token.lexemes before ++ Token.lexemes rest :=
    List.flatMap_append
  rw [(start_of_lex_eq h).1, (start_of_lex_eq h').1, hlexemes, byteLength_append]
  omega

/-- Where statements fail, the text before the token can be continued: it is a source by itself, or
any token of the kind that is missing may come next. -/
theorem viable_of_cause {front : List Char} {err : SyntaxError} {t : Token}
    (h : (err = .unexpected t ∧ ∃ d, Derives (.many Grammar.statement) d (sentence front)) ∨
      ∃ category expected, (category, expected) ∈ expectations ∧ err = .expecting expected t ∧
        Awaits (.many Grammar.statement) category (sentence front)) :
    Viable (sentence front) ∧ err.found = t ∧
      ((err = .unexpected t ∧ ∃ s, parseSchema front = .ok s) ∨
        ∃ category expected, (category, expected) ∈ expectations ∧ err = .expecting expected t ∧
          (∃ c, c.category = category ∧ Viable (sentence front ++ [c])) ∧
          ∀ text c, sentence text = [c] → c.category = category →
            Viable (sentence front ++ [c])) := by
  rcases h with ⟨rfl, d, hd⟩ | ⟨category, expected, hmem, rfl, hawaits⟩
  · have hschema : Derives (.symbol .schema) (.symbol .schema d) (sentence front) := .symbol hd
    obtain ⟨s, hs⟩ := parseSchema_of_derives hschema
    exact ⟨⟨front, s, hs, List.prefix_rfl⟩, rfl, .inl ⟨rfl, s, hs⟩⟩
  · have hschema : Awaits (.symbol .schema) category (sentence front) :=
      hawaits.imp fun d xs hd => ⟨.symbol .schema d, .symbol hd⟩
    obtain ⟨text, c, htext, hc⟩ := exists_text_of_expectation hmem
    have hviable := viable_of_awaits hschema htext hc
    refine ⟨hviable.mono ⟨[c], rfl⟩, rfl, .inr ⟨category, expected, hmem, rfl, ?_, ?_⟩⟩
    · exact ⟨c, hc, hviable⟩
    · intro text' c' htext' hc'
      exact viable_of_awaits hschema htext' hc'

/-- **Syntax errors are precise.**  The error of a source that cannot be read is about one of its
tokens that are code, or about its end; the token covers its lexeme in the source, so that its span
lies there, and is named by the lexeme, or as the end of input.  The tokens before it can be
continued to an accepted source.  Either they make up an accepted source, and the token begins no
statement; or one of four kinds of token is missing, and with any token of that kind behind them
they can be continued as well.  So the error is never behind the first token with which the source
cannot be continued. -/
theorem parseSchema_error {source : List Char} {e : SyntaxError}
    (h : parseSchema source = .error e) :
    ∃ before after, lex source = before ++ e.found :: after ∧
      e.found.category.isCode = true ∧ e.found.span.Covers source e.found.lexeme ∧
      e.found.start ≤ e.found.stop ∧ e.found.stop ≤ byteLength source ∧
      e.found.describe = (if e.found.category = .endOfInput then "end of input"
        else String.ofList e.found.lexeme) ∧
      Viable (significant before) ∧
      ((e = .unexpected e.found ∧ ∃ s, parseSchema (Token.lexemes before) = .ok s ∧
          sentence (Token.lexemes before) = significant before) ∨
        ∃ category expected, (category, expected) ∈
            [(Category.capital, "CapitalIdentifier"), (.string, "String"),
             (.punct .openBrace, "\x7b"), (.punct .closeBrace, "\x7d")] ∧
          e = .expecting expected e.found ∧
          (∃ c, c.category = category ∧ Viable (significant before ++ [c])) ∧
          ∀ text c, sentence text = [c] → c.category = category →
            Viable (significant before ++ [c])) ∧
      ∀ before' u after', lex source = before' ++ u :: after' →
        ¬ Viable (significant (before' ++ [u])) → e.found.start ≤ u.start := by
  rw [parseSchema_eq] at h
  rcases hrun : whileNext (· ≠ .endOfInput) Grammar.node (Input.ofSource source) with
    ⟨err | body, j⟩
  swap
  · rw [hrun] at h
    cases h
  rw [hrun] at h
  cases h
  obtain ⟨ws, k, hread, hbefore, hcause⟩ := Grammar.statements_error (ofSource_valid source) hrun
  obtain ⟨before, after, hlex, hws, hcode⟩ := lex_of_reads hread hbefore
  have hsentence : sentence (Token.lexemes before) = significant before := by
    rw [sentence_eq, Token.code, (start_of_lex_eq hlex).2]
    rfl
  rw [← hws, ← hsentence] at hcause
  obtain ⟨hviable, hfound, hkind⟩ := viable_of_cause hcause
  rw [← hfound] at hlex hcode hkind
  rw [hsentence] at hviable hkind
  have hcovers : e.found.span.Covers source e.found.lexeme :=
    covers_of_mem_lex (by rw [hlex]; simp)
  refine ⟨before, after, hlex, hcode, hcovers, ?_, ?_, ?_, hviable, ?_, ?_⟩
  · exact Nat.le_add_right ..
  · obtain ⟨pre, post, hsource, -, hstop⟩ := hcovers
    show e.found.span.stop ≤ byteLength source
    rw [← hstop, hsource, ← List.append_assoc, byteLength_append (pre ++ _)]
    omega
  · exact Token.describe_eq e.found
  · rcases hkind with ⟨herr, s, hs⟩ | hexpecting
    · exact .inl ⟨herr, s, hs, hsentence⟩
    · exact .inr hexpecting
  · intro before' u after' hlex' hnot
    exact start_le_of_not_viable hlex hlex' hviable hnot

/-- A value that is never closed: the block gives its property back, and the brace that closes the
block is missing where the property begins. -/
theorem parseSchema_error_unclosed :
    let source := "prop P \x7b a [1".toList
    ∃ e before after, parseSchema source = .error e ∧ lex source = before ++ e.found :: after ∧
      e.message = "Expecting \x7d, got a" ∧ e.found.span = ⟨9, 10⟩ ∧
      Viable (significant before) := by
  intro source
  have herror : (match parseSchema source with
      | .ok _ => none
      | .error e => some (e.message, e.found.span)) = some ("Expecting \x7d, got a", ⟨9, 10⟩) := by
    decide +kernel
  rcases hrun : parseSchema source with e | s
  · rw [hrun] at herror
    obtain ⟨hmessage, hspan⟩ := Prod.mk.inj (Option.some.inj herror)
    obtain ⟨before, after, hlex, -, -, -, -, -, hviable, -⟩ := parseSchema_error hrun
    exact ⟨e, before, after, rfl, hlex, hmessage, hspan, hviable⟩
  · rw [hrun] at herror
    cases herror

end SchemaLang
