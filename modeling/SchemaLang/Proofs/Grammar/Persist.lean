import SchemaLang.Proofs.Grammar.Schema

/-!
# Reading in front of more tokens

A reader that succeeds does so too when more tokens stand behind those it was given, with the
same result, as long as the first token it leaves over does not continue what it has read.  The
notion follows the one of deciding an expression: `follow` says which tokens may come next, an
expression says how what was read begins, and so what the reader before it sees.

Data is read with a bound on its nesting that the number of tokens gives.  With more tokens the
bound is another one; hence two parsers, one for each of the two inputs.

## Main definitions

* `Input.extend` — an input with more tokens at its end.
* `Parser.Persists` — success is kept.

## Main results

* `Parser.Persists.bind`, `Parser.persists_many`, `Parser.persists_whileNext` — the combinators.
* `Grammar.persists_data`, `Grammar.persists_declaration`, `Grammar.persists_node` — the readers.
-/

namespace SchemaLang

variable {more : List Token} {bytes : Nat}

/-! ### Inputs -/

namespace Input

/-- What is left to read at `j` is the end of what is left to read at `i`, in the same source. -/
structure Before (i j : Input) : Prop where
  /-- Some of the first tokens are gone. -/
  tokens : j.tokens <:+ i.tokens
  /-- The source has so many bytes. -/
  size : j.size = i.size

theorem Before.refl (i : Input) : i.Before i := ⟨List.suffix_rfl, rfl⟩

theorem Before.trans {i j k : Input} (h : i.Before j) (h' : j.Before k) : i.Before k :=
  ⟨h'.tokens.trans h.tokens, h'.size.trans h.size⟩

theorem before_advance (i : Input) : i.Before i.advance := ⟨List.tail_suffix _, rfl⟩

/-- The input with more tokens at its end, in a source of so many more bytes. -/
def extend (more : List Token) (bytes : Nat) (i : Input) : Input :=
  ⟨i.offset, i.tokens ++ more, i.size + bytes⟩

theorem contents_extend (i : Input) :
    (i.extend more bytes).contents = i.contents ++ more.map (·.content) :=
  List.map_append ..

/-- As long as there is a token, what stands behind is not seen. -/
theorem next_extend {i : Input} (h : i.tokens ≠ []) : (i.extend more bytes).next = i.next := by
  obtain ⟨t, ts, ht⟩ := List.exists_cons_of_ne_nil h
  simp [next, extend, ht]

theorem advance_extend {i : Input} (h : i.tokens ≠ []) :
    (i.extend more bytes).advance = i.advance.extend more bytes := by
  obtain ⟨t, ts, ht⟩ := List.exists_cons_of_ne_nil h
  rw [advance, next_extend h]
  simp [advance, extend, ht]

theorem left_extend {i : Input} (hi : i.Valid) :
    (i.extend more bytes).left = i.left + bytes := by
  have hle : i.offset ≤ i.size := Token.Laid.le hi
  simp only [left, extend]
  omega

/-- Fewer bytes are left in front of more tokens, too. -/
theorem left_extend_lt {i j : Input} (hi : i.Valid) (hj : j.Valid) (h : j.left < i.left) :
    (j.extend more bytes).left < (i.extend more bytes).left := by
  rw [left_extend hi, left_extend hj]
  omega

end Input

/-- What comes next in front of more tokens is what was read there or, where that is nothing, what
follows. -/
theorem Leads.next_extend {e : Ebnf} {follow start : Content → Prop} (h : Leads e follow start)
    {d : Derivation} {ws : List Content} (hd : Derives e d ws) {i j : Input} (hread : i.Reads ws j)
    (hfollow : follow (j.extend more bytes).next.content) :
    start (i.extend more bytes).next.content := by
  rw [← Input.upcoming_contents] at hfollow ⊢
  rw [Input.contents_extend, hread.contents, List.append_assoc, ← Input.contents_extend]
  exact h _ _ _ hd hfollow

namespace Parser

variable {α β : Type}

/-- If `p` succeeds at `i`, it reads a sentence of `e`; and in front of more tokens, `p'` succeeds
likewise, if the next token then is one that may follow. -/
def Persists (more : List Token) (bytes : Nat) (p p' : Parser α) (e : Ebnf)
    (follow : Content → Prop) (i : Input) : Prop :=
  ∀ (a : α) (j : Input), p i = (.ok a, j) → ∃ d ws, Derives e d ws ∧ i.Reads ws j ∧
    i.Before j ∧ (follow (j.extend more bytes).next.content →
      p' (i.extend more bytes) = (.ok a, j.extend more bytes))

namespace Persists

variable {p p' : Parser α} {q q' : α → Parser β} {a b : Ebnf} {follow middle : Content → Prop}
  {i : Input}

/-- One parser after the other, if what the second reads may follow the first. -/
theorem bind (hp : Persists more bytes p p' a middle i)
    (hq : ∀ x d ws j, Derives a d ws → i.Reads ws j →
      Persists more bytes (q x) (q' x) b follow j)
    (hlead : Leads b follow middle) :
    Persists more bytes (p >>= q) (p' >>= q') (.seq a b) follow i := by
  intro y k h
  obtain ⟨x, j, hpx, hqy⟩ := bind_eq_ok h
  obtain ⟨d, ws, hd, hread, hbefore, hstep⟩ := hp x j hpx
  obtain ⟨d', ws', hd', hread', hbefore', hstep'⟩ := hq x d ws j hd hread y k hqy
  refine ⟨.seq d d', ws ++ ws', .seq hd hd', hread.trans hread', hbefore.trans hbefore', ?_⟩
  intro hfollow
  rw [bind_apply, hstep (hlead.next_extend hd' hread' hfollow)]
  exact hstep' hfollow

/-- A parser followed by a computation that reads nothing. -/
theorem finish (hp : Persists more bytes p p' a follow i) (hq : ∀ x, ∃ y, q x = pure y) :
    Persists more bytes (p >>= q) (p' >>= q) a follow i := by
  intro y k h
  obtain ⟨x, j, hpx, hqy⟩ := bind_eq_ok h
  obtain ⟨y', hy'⟩ := hq x
  rw [hy', pure_apply] at hqy
  cases hqy
  obtain ⟨d, ws, hd, hread, hbefore, hstep⟩ := hp x k hpx
  refine ⟨d, ws, hd, hread, hbefore, fun hfollow => ?_⟩
  rw [bind_apply, hstep hfollow]
  simp only [hy', pure_apply]

/-- What is read is a sentence of another expression as well. -/
theorem imp (hp : Persists more bytes p p' a follow i)
    (himp : ∀ d ws, Derives a d ws → ∃ d', Derives b d' ws) :
    Persists more bytes p p' b follow i := by
  intro x j h
  obtain ⟨d, ws, hd, hrest⟩ := hp x j h
  obtain ⟨d', hd'⟩ := himp d ws hd
  exact ⟨d', ws, hd', hrest⟩

theorem symbol {s : Symbol} (hp : Persists more bytes p p' s.rule follow i) :
    Persists more bytes p p' (.symbol s) follow i :=
  hp.imp fun _ _ hd => ⟨_, .symbol hd⟩

theorem left (hp : Persists more bytes p p' a follow i) :
    Persists more bytes p p' (.alt a b) follow i :=
  hp.imp fun _ _ hd => ⟨_, .left hd⟩

theorem right (hp : Persists more bytes p p' b follow i) :
    Persists more bytes p p' (.alt a b) follow i :=
  hp.imp fun _ _ hd => ⟨_, .right hd⟩

/-- Where fewer tokens may follow. -/
theorem restrict (hp : Persists more bytes p p' a middle i) (hsub : ∀ c, follow c → middle c) :
    Persists more bytes p p' a follow i := by
  intro x j h
  obtain ⟨d, ws, hd, hread, hbefore, hstep⟩ := hp x j h
  exact ⟨d, ws, hd, hread, hbefore, fun hfollow => hstep (hsub _ hfollow)⟩

/-- Only the values at the two inputs count. -/
theorem congr {r r' : Parser α} (hr : Persists more bytes r r' a follow i) (h : p i = r i)
    (h' : p' (i.extend more bytes) = r' (i.extend more bytes)) :
    Persists more bytes p p' a follow i := by
  intro x j hx
  rw [h']
  exact hr x j (h ▸ hx)

end Persists

/-! ### Single tokens -/

/-- A token that was read for a terminal is the next one in front of more tokens, too. -/
theorem persists_token {p p' : Parser α} {t : Terminal} {i : Input} (hi : i.Valid)
    {f : Token → α}
    (hp : ∀ {x : α} {j : Input}, p i = (.ok x, j) →
      t.accepts i.next.content = true ∧ x = f i.next ∧ j = i.advance)
    (hp' : ∀ k : Input, k.next = i.next → t.accepts i.next.content = true →
      p' k = (.ok (f k.next), k.advance)) (follow : Content → Prop) :
    Persists more bytes p p' (.token t) follow i := by
  intro x j h
  obtain ⟨ht, rfl, rfl⟩ := hp h
  obtain ⟨ts, hts⟩ := exists_tokens_of_accepts ht
  have hne : i.tokens ≠ [] := by simp [hts]
  refine ⟨.token i.next.content, [i.next.content], .token ht, Input.reads_advance hi hts,
    Input.before_advance i, ?_⟩
  intro _
  rw [hp' _ (Input.next_extend hne) ht, Input.next_extend hne, Input.advance_extend hne]

theorem persists_satisfy {accept : Token → Bool} {expected : String} {t : Terminal} {i : Input}
    (hi : i.Valid) (h : accept i.next = t.accepts i.next.content) (follow : Content → Prop) :
    Persists more bytes (satisfy accept expected) (satisfy accept expected) (.token t) follow
      i := by
  refine persists_token hi (f := id) ?_ ?_ follow
  · intro x j hx
    rw [satisfy] at hx
    split at hx
    · next haccept =>
      cases hx
      exact ⟨h.symm.trans haccept, rfl, rfl⟩
    · cases hx
  · intro k hk ht
    refine satisfy_apply_of_accepts _ ?_
    rw [hk]
    exact h.trans ht

theorem persists_expect {category : Category} {t : Terminal} {i : Input} (hi : i.Valid)
    (hcat : i.next.content.category = category ↔ t.accepts i.next.content = true)
    (follow : Content → Prop) :
    Persists more bytes (expect category) (expect category) (.token t) follow i := by
  refine persists_satisfy hi ?_ follow
  rw [Bool.eq_iff_iff, decide_eq_true_iff]
  exact hcat

/-! ### Optional parts -/

section

variable {category : Category} {t : Terminal}

/-- What is missing stays missing in front of tokens that do not begin it. -/
theorem optional_extend_of_not_accepts {i : Input}
    (hcat : ∀ c : Content, c.category = category ↔ t.accepts c = true)
    (h : ¬ t.accepts (i.extend more bytes).next.content = true) :
    optional category (i.extend more bytes) = (.ok none, i.extend more bytes) :=
  optional_apply_of_not_accepts fun hnext => h ((hcat _).1 hnext)

theorem optional_extend_of_accepts {i : Input}
    (hcat : ∀ c : Content, c.category = category ↔ t.accepts c = true)
    (h : t.accepts i.next.content = true) :
    optional category (i.extend more bytes) = (.ok (some i.next), i.advance.extend more bytes) := by
  obtain ⟨ts, hts⟩ := exists_tokens_of_accepts h
  have hne : i.tokens ≠ [] := by simp [hts]
  have hnext : (i.extend more bytes).next = i.next := Input.next_extend hne
  have hcategory : (i.extend more bytes).next.category = category := by
    rw [hnext]
    exact (hcat _).2 h
  rw [optional_apply_of_accepts hcategory, hnext, Input.advance_extend hne]

theorem persists_optional {i : Input} (hi : i.Valid)
    (hcat : ∀ c : Content, c.category = category ↔ t.accepts c = true) :
    Persists more bytes (optional category) (optional category) (.opt (.token t))
      (fun c => ¬ t.accepts c = true) i := by
  intro x j h
  by_cases ht : t.accepts i.next.content = true
  · obtain ⟨ts, hts⟩ := exists_tokens_of_accepts ht
    rw [optional_apply_of_accepts ((hcat i.next.content).2 ht)] at h
    cases h
    exact ⟨_, _, .present (.token ht), Input.reads_advance hi hts, Input.before_advance i,
      fun _ => optional_extend_of_accepts hcat ht⟩
  · rw [optional_apply_of_not_accepts fun hnext => ht ((hcat i.next.content).1 hnext)] at h
    cases h
    exact ⟨_, _, .absent, Input.Reads.refl hi, .refl i, optional_extend_of_not_accepts hcat⟩

/-- An optional part that begins with a token of its own. -/
theorem persists_optional_bind {q q' : Option Token → Parser β} {e : Ebnf}
    {follow : Content → Prop} {i : Input} (hi : i.Valid)
    (hcat : ∀ c : Content, c.category = category ↔ t.accepts c = true)
    (hfollow : ∀ c, follow c → ¬ t.accepts c = true)
    (hnone : ∃ y, q none = pure y ∧ q' none = pure y)
    (hsome : ∀ token j, i.Reads [token.content] j →
      Persists more bytes (q (some token)) (q' (some token)) e follow j) :
    Persists more bytes (optional category >>= q) (optional category >>= q')
      (.opt (.seq (.token t) e)) follow i := by
  intro y k h
  obtain ⟨x, j, hx, hy⟩ := bind_eq_ok h
  by_cases ht : t.accepts i.next.content = true
  · obtain ⟨ts, hts⟩ := exists_tokens_of_accepts ht
    rw [optional_apply_of_accepts ((hcat i.next.content).2 ht)] at hx
    cases hx
    have hread := Input.reads_advance hi hts
    obtain ⟨d, ws, hd, hread', hbefore, hstep⟩ := hsome i.next i.advance hread y k hy
    refine ⟨_, _, .present (.seq (.token ht) hd), hread.trans hread',
      (Input.before_advance i).trans hbefore, fun hk => ?_⟩
    rw [bind_apply, optional_extend_of_accepts hcat ht]
    exact hstep hk
  · rw [optional_apply_of_not_accepts fun hnext => ht ((hcat i.next.content).1 hnext)] at hx
    cases hx
    obtain ⟨y', hq, hq'⟩ := hnone
    rw [hq, pure_apply] at hy
    cases hy
    refine ⟨_, _, .absent, Input.Reads.refl hi, .refl i, fun hk => ?_⟩
    rw [bind_apply, optional_extend_of_not_accepts hcat (hfollow _ hk)]
    simp only [hq', pure_apply]

end

/-! ### Repetition -/

section

variable {p p' : Parser α} {e : Ebnf} {first middle follow : Content → Prop}

/-- Repetition ends where it did, if the next token begins no further part. -/
theorem persists_many (hrep : Repeats e first middle follow) {i : Input} (hi : i.Valid)
    (hp : ∀ j : Input, j.Valid → j.tokens.length ≤ i.tokens.length →
      Persists more bytes p p' e middle j)
    (hstop : ∀ k : Input, follow k.next.content → ∃ err l, p' k = (.error err, l)) :
    Persists more bytes (many p) (many p') (.many e) follow i := by
  have key : ∃ d ws, Derives (.many e) d ws ∧ i.Reads ws (collect p i).2 ∧
      i.Before (collect p i).2 ∧
      (follow ((collect p i).2.extend more bytes).next.content →
        collect p' (i.extend more bytes) =
          ((collect p i).1, (collect p i).2.extend more bytes)) := by
    fun_induction collect p i with
    | case1 i err k hpi =>
      refine ⟨.stop, [], .stop, Input.Reads.refl hi, .refl i, fun hfollow => ?_⟩
      obtain ⟨err', l, hfail⟩ := hstop _ hfollow
      rw [collect, hfail]
    | case2 i a j hpi hlt r ih =>
      obtain ⟨d, ws, hd, hread, hbefore, hstep⟩ := hp i hi (Nat.le_refl _) a j hpi
      have hlen := hread.length_tokens
      obtain ⟨d', ws', hd', hread', hbefore', hrest⟩ :=
        ih hread.valid fun k hk hle => hp k hk (by omega)
      refine ⟨.more d d', ws ++ ws', .more hd hd', hread.trans hread', hbefore.trans hbefore', ?_⟩
      intro hfollow
      -- behind this part there is a further one, or what follows all parts
      have hmiddle := hrep.leads.next_extend hd' hread' hfollow
      have hlt' := @Input.left_extend_lt more bytes _ _ hi hread.valid hlt
      rw [collect, hstep hmiddle]
      simp only [if_pos hlt', hrest hfollow, r]
    | case3 i a j hpi hlt =>
      obtain ⟨d, ws, hd, hread, -⟩ := hp i hi (Nat.le_refl _) a j hpi
      exact absurd (hrep.left_lt hd hread) hlt
  intro as j h
  cases h
  obtain ⟨d, ws, hd, hread, hbefore, hstep⟩ := key
  refine ⟨d, ws, hd, hread, hbefore, fun hfollow => ?_⟩
  rw [many, hstep hfollow]

/-- Repetition that looks ahead ends where it did, if it need not go on before the next token. -/
theorem persists_whileNext {accept : Category → Bool}
    (hrep : Repeats e (fun c => accept c.category = true) middle follow) {i : Input} (hi : i.Valid)
    (hp : ∀ j : Input, j.Valid → Persists more bytes p p' e middle j) :
    Persists more bytes (whileNext accept p) (whileNext accept p') (.many e) follow i := by
  intro as k h
  fun_induction whileNext accept p i generalizing as k with
  | case1 => cases h
  | case2 => cases h
  | case3 i haccept a j hpi hlt as k' hrun ih =>
    cases h
    obtain ⟨d, ws, hd, hread, hbefore, hstep⟩ := hp i hi a j hpi
    obtain ⟨d', ws', hd', hread', hbefore', hrest⟩ := ih hread.valid as k' hrun
    refine ⟨.more d d', ws ++ ws', .more hd hd', hread.trans hread', hbefore.trans hbefore', ?_⟩
    intro hfollow
    have hmiddle := hrep.leads.next_extend hd' hread' hfollow
    have hlt' := @Input.left_extend_lt more bytes _ _ hi hread.valid hlt
    have hne : i.tokens ≠ [] := by
      obtain ⟨c, xs, rfl, -⟩ := hrep.opens d ws hd
      have hlen := hread.length_tokens
      intro hnil
      rw [hnil] at hlen
      simp at hlen
      omega
    rw [whileNext, Input.next_extend hne, if_pos haccept, hstep hmiddle]
    simp only [if_pos hlt', hrest hfollow]
  | case4 i haccept a j hpi hlt =>
    obtain ⟨d, ws, hd, hread, -⟩ := hp i hi a j hpi
    exact absurd (hrep.left_lt hd hread) hlt
  | case5 i haccept =>
    cases h
    refine ⟨.stop, [], .stop, Input.Reads.refl hi, .refl i, fun hfollow => ?_⟩
    have hstop : ¬ accept (i.extend more bytes).next.category = true :=
      fun h => hrep.apart _ h hfollow
    rw [whileNext, if_neg hstop]

end

end Parser

namespace Grammar

open SchemaLang.Parser

/-! ### Data -/

theorem persists_mark (mark : Punct) {i : Input} (hi : i.Valid) (follow : Content → Prop) :
    Persists more bytes (expect (.punct mark)) (expect (.punct mark)) (Ebnf.mark mark) follow i :=
  persists_expect hi (category_eq_punct_iff mark _) follow

theorem persists_word (expected : String) {i : Input} (hi : i.Valid) (follow : Content → Prop) :
    Persists more bytes (word expected) (word expected) (.token .word) follow i :=
  (persists_satisfy hi (isWord_category i.next.content) follow).finish fun _ => ⟨_, rfl⟩

theorem persists_capital {i : Input} (hi : i.Valid) (follow : Content → Prop) :
    Persists more bytes capital capital (.token .capital) follow i :=
  (persists_expect hi (category_eq_capital_iff _) follow).finish fun _ => ⟨_, rfl⟩

theorem persists_string {i : Input} (hi : i.Valid) (follow : Content → Prop) :
    Persists more bytes string string (.token .string) follow i :=
  (persists_expect hi (category_eq_string_iff _) follow).finish fun _ => ⟨_, rfl⟩

theorem persists_scalar {i : Input} (hi : i.Valid) (follow : Content → Prop) :
    Persists more bytes scalar scalar (.symbol .scalar) follow i := by
  intro x j h
  obtain ⟨d, ws, hd, -, hread, -⟩ := (decides_scalar hi follow).accept h
  cases hv : literal? i.next.content with
  | none =>
    rw [scalar_apply_of_none hv] at h
    cases h
  | some v =>
    rw [scalar_apply_of_literal hv] at h
    cases h
    refine ⟨d, ws, hd, hread, Input.before_advance i, fun _ => ?_⟩
    have hne : i.tokens ≠ [] := by
      intro hnil
      rw [Input.next, hnil] at hv
      cases hv
    have hnext : (i.extend more bytes).next = i.next := Input.next_extend hne
    rw [← hnext] at hv
    rw [scalar_apply_of_literal hv, hnext, Input.advance_extend hne]

theorem persists_reference {i : Input} (hi : i.Valid) (follow : Content → Prop) :
    Persists more bytes reference reference (.token .capital) follow i :=
  (persists_capital hi follow).finish fun _ => ⟨_, rfl⟩

theorem persists_environment {i : Input} (hi : i.Valid)
    (hnext : i.next.content = .identifier "env") (follow : Content → Prop) :
    Persists more bytes environment environment (.symbol .environment) follow i := by
  have hname : i.next.content.category = .identifier ↔
      (Terminal.name "env").accepts i.next.content = true := by
    rw [hnext]
    simp [Content.category, Terminal.accepts]
  refine .symbol ((persists_expect hi hname anything).bind ?_ fun _ _ _ _ _ => trivial)
  intro keyword d₁ ws₁ j₁ _ hread₁
  refine (persists_mark .openParen hread₁.valid anything).bind ?_ fun _ _ _ _ _ => trivial
  intro opening d₂ ws₂ j₂ _ hread₂
  refine (persists_string hread₂.valid anything).bind ?_ fun _ _ _ _ _ => trivial
  intro name d₃ ws₃ j₃ _ hread₃
  exact (persists_mark .closeParen hread₃.valid follow).finish fun _ => ⟨_, rfl⟩

variable {item item' : Parser Data}

theorem persists_property {e : Ebnf} (expected : String) {i : Input} (hi : i.Valid)
    (hitem : ∀ j : Input, j.Valid → j.tokens.length ≤ i.tokens.length →
      Persists more bytes item item' e anything j) :
    Persists more bytes (property expected item) (property expected item')
      (.seq (.token .word) e) anything i := by
  refine (persists_word expected hi anything).bind ?_ fun _ _ _ _ _ => trivial
  intro key d ws j _ hread
  have hlen := hread.length_tokens
  exact (hitem j hread.valid (by omega)).finish fun _ => ⟨_, rfl⟩

/-- A mark is no word. -/
theorem word_apply_of_mark (expected : String) {k : Input} {p : Punct}
    (h : k.next.content = .punct p) :
    word expected k = (.error (.expecting expected k.next), k.skip) := by
  have hword : ¬ k.next.category.isWord = true := by
    rw [Token.category, h]
    simp [Content.category, Category.isWord]
  have hfail : satisfy (·.category.isWord) expected k = _ :=
    satisfy_apply_of_not_accepts expected hword
  rw [word, bind_apply, hfail]

theorem property_apply_of_mark (expected : String) (item : Parser Data) {k : Input} {p : Punct}
    (h : k.next.content = .punct p) : ∃ err l, property expected item k = (.error err, l) := by
  refine ⟨.expecting expected k.next, k.skip, ?_⟩
  rw [property, bind_apply, word_apply_of_mark expected h]

section

variable {α β : Type} {part part' : Parser α} {e : Ebnf} {first middle : Content → Prop}

/-- Parts up to a closing mark, before which no part is read. -/
theorem persists_closed {closing : Punct} {f : List α → Token → β}
    (hrep : Repeats e first middle (· = .punct closing)) {i : Input} (hi : i.Valid)
    (hpart : ∀ j : Input, j.Valid → j.tokens.length ≤ i.tokens.length →
      Persists more bytes part part' e middle j)
    (hstop : ∀ k : Input, k.next.content = .punct closing → ∃ err l, part' k = (.error err, l))
    (follow : Content → Prop) :
    Persists more bytes
      (do let xs ← many part; let t ← expect (.punct closing); return f xs t)
      (do let xs ← many part'; let t ← expect (.punct closing); return f xs t)
      (.seq (.many e) (Ebnf.mark closing)) follow i := by
  refine (persists_many hrep hi hpart hstop).bind ?_ ?_
  · intro xs d ws j _ hread
    exact (persists_mark closing hread.valid follow).finish fun _ => ⟨_, rfl⟩
  · exact ((Opens.token (.mark closing)).mono fun c hc => accepts_mark_iff.1 hc).leads follow

/-- Parts between two marks. -/
theorem persists_enclosed {opening closing : Punct} {f : Token → List α → Token → β}
    (hrep : Repeats e first middle (· = .punct closing)) {i : Input} (hi : i.Valid)
    (hpart : ∀ j : Input, j.Valid → j.tokens.length < i.tokens.length →
      Persists more bytes part part' e middle j)
    (hstop : ∀ k : Input, k.next.content = .punct closing → ∃ err l, part' k = (.error err, l))
    (follow : Content → Prop) :
    Persists more bytes
      (do
        let s ← expect (.punct opening)
        let xs ← many part
        let t ← expect (.punct closing)
        return f s xs t)
      (do
        let s ← expect (.punct opening)
        let xs ← many part'
        let t ← expect (.punct closing)
        return f s xs t) (.enclosed opening e closing) follow i := by
  refine (persists_mark opening hi anything).bind ?_ fun _ _ _ _ _ => trivial
  intro s d ws j hd hread
  have hlen : j.tokens.length < i.tokens.length := by
    have hlen := hread.length_tokens
    cases hd with
    | token _ =>
      rw [List.length_singleton] at hlen
      omega
  exact persists_closed hrep hread.valid (fun k hk hle => hpart k hk (by omega)) hstop follow

end

theorem persists_objectOf {i : Input} (hi : i.Valid)
    (hitem : ∀ j : Input, j.Valid → j.tokens.length < i.tokens.length →
      Persists more bytes item item' (.symbol .data) anything j) (follow : Content → Prop) :
    Persists more bytes (objectOf item) (objectOf item') (.symbol .object) follow i := by
  refine .symbol (persists_enclosed (repeats_entry _) hi ?_ ?_ follow)
  · intro j hj hlt
    exact persists_property _ hj fun k hk hle => hitem k hk (by omega)
  · intro k hk
    exact property_apply_of_mark _ _ hk

/-- One level of data: in front of more tokens the next one still tells which form it has. -/
theorem persists_dataOf {i : Input} (hi : i.Valid)
    (hitem : ∀ j : Input, j.Valid → j.tokens.length < i.tokens.length →
      Persists more bytes item item' (.symbol .data) anything j)
    (hstop : ∀ k : Input, k.next.content = .punct .closeBracket →
      ∃ err l, item' k = (.error err, l)) :
    Persists more bytes (dataOf item) (dataOf item') (.symbol .data) anything i := by
  by_cases hne : i.tokens = []
  · intro x j h
    have hend : i.next = .endOfInput i.size := by
      rw [Input.next, hne]
      rfl
    simp [dataOf, scalar, hend, Token.endOfInput, literal?] at h
  -- both readings take the form that the next token tells
  have hform : ∀ {r r' : Parser Data}, Persists more bytes r r' (.symbol .data) anything i →
      (∀ k : Input, k.next.content = i.next.content → dataOf item k = r k) →
      (∀ k : Input, k.next.content = i.next.content → dataOf item' k = r' k) →
      Persists more bytes (dataOf item) (dataOf item') (.symbol .data) anything i :=
    fun hr h h' => hr.congr (h i rfl) (h' _ (congrArg Token.content (Input.next_extend hne)))
  have hscalar : Persists more bytes scalar scalar (.symbol .data) anything i :=
    .symbol (.right (.right (.right (.left (persists_scalar hi anything)))))
  cases hc : i.next.content with
  | identifier name =>
    by_cases hname : name = "env"
    · subst hname
      refine hform (.symbol (.right (.right (.left (persists_environment hi hc anything))))) ?_ ?_
      all_goals
        intro k hk
        simp only [dataOf, hk, hc, if_true]
    · refine hform hscalar ?_ ?_
      all_goals
        intro k hk
        simp only [dataOf, hk, hc, if_neg hname]
  | capital name =>
    refine hform (.symbol (.right (.right (.right (.right
      (persists_reference hi anything)))))) ?_ ?_
    all_goals
      intro k hk
      simp only [dataOf, hk, hc]
  | punct p =>
    by_cases hbrace : p = .openBrace
    · subst hbrace
      have hobject := persists_objectOf hi hitem anything
      refine hform (.symbol (.left (hobject.finish fun b => ⟨b.toData, rfl⟩))) ?_ ?_
      all_goals
        intro k hk
        simp only [dataOf, hk, hc]
    · by_cases hbracket : p = .openBracket
      · subst hbracket
        have harray : Persists more bytes (arrayOf item) (arrayOf item') (.symbol .array)
            anything i :=
          .symbol (persists_enclosed (repeats_data (by simp) (by simp)) hi hitem hstop anything)
        refine hform (.symbol (.right (.left harray))) ?_ ?_
        all_goals
          intro k hk
          simp only [dataOf, hk, hc]
      · refine hform hscalar ?_ ?_
        all_goals
          intro k hk
          cases p <;> first | contradiction | simp only [dataOf, hk, hc]
  | _ =>
    refine hform hscalar ?_ ?_
    all_goals
      intro k hk
      simp only [dataOf, hk, hc]

/-- No data begins with a mark other than the two that open it. -/
theorem dataWithin_apply_of_mark (depth : Nat) {k : Input} {p : Punct} (h₁ : p ≠ .openBrace)
    (h₂ : p ≠ .openBracket) (h : k.next.content = .punct p) :
    ∃ err l, dataWithin depth k = (.error err, l) := by
  have hscalar : scalar k = (.error (.expecting "a value" k.next), k.skip) := by
    refine scalar_apply_of_none ?_
    rw [h]
    rfl
  refine ⟨_, _, Eq.trans ?_ hscalar⟩
  cases depth with
  | zero => rfl
  | succ depth =>
    rw [dataWithin]
    cases p <;> first | contradiction | simp only [dataOf, h]

/-- The bound on nesting counts tokens, and does not matter. -/
theorem persists_dataWithin {depth depth' : Nat} {i : Input} (hi : i.Valid)
    (hdepth : i.tokens.length < depth) (hle : depth ≤ depth') :
    Persists more bytes (dataWithin depth) (dataWithin depth') (.symbol .data) anything i := by
  induction depth generalizing depth' i with
  | zero => omega
  | succ depth ih =>
    obtain ⟨depth', rfl⟩ : ∃ n, depth' = n + 1 := ⟨depth' - 1, by omega⟩
    refine persists_dataOf hi (fun j hj hlt => ih hj (by omega) (by omega)) ?_
    intro k hk
    exact dataWithin_apply_of_mark depth' (by simp) (by simp) hk

theorem persists_data {i : Input} (hi : i.Valid) :
    Persists more bytes data data (.symbol .data) anything i := by
  have hle : i.tokens.length + 1 ≤ (i.extend more bytes).tokens.length + 1 := by
    simp [Input.extend]
  exact (persists_dataWithin hi (Nat.lt_succ_self _) hle).congr rfl rfl

theorem persists_object {i : Input} (hi : i.Valid) (follow : Content → Prop) :
    Persists more bytes object object (.symbol .object) follow i :=
  persists_objectOf hi (fun _ hj _ => persists_data hj) follow

/-! ### Attributes and columns -/

theorem persists_furtherWords {i : Input} (hi : i.Valid) :
    Persists more bytes furtherWords furtherWords (.many (.seq (Ebnf.mark .dot) (.token .word)))
      (fun c => c ≠ .punct .dot) i := by
  refine persists_whileNext repeats_furtherWord hi fun j hj => ?_
  refine (persists_mark .dot hj anything).bind ?_ fun _ _ _ _ _ => trivial
  intro dot d ws k _ hread
  exact persists_word _ hread.valid anything

theorem persists_arguments (opening : Token) {i : Input} (hi : i.Valid) (follow : Content → Prop) :
    Persists more bytes (arguments opening) (arguments opening)
      (.seq (.many (.symbol .data)) (Ebnf.mark .closeParen)) follow i := by
  refine persists_closed (repeats_data (by simp) (by simp)) hi (fun j hj _ => persists_data hj) ?_
    follow
  intro k hk
  exact dataWithin_apply_of_mark _ (by simp) (by simp) hk

theorem persists_attributeEntry {i : Input} (hi : i.Valid) :
    Persists more bytes attributeEntry attributeEntry (.symbol .attributeEntry) afterAttribute
      i := by
  refine .symbol ((persists_mark .at hi anything).bind ?_ fun _ _ _ _ _ => trivial)
  intro mark d₁ ws₁ j₁ _ hread₁
  refine (persists_word _ hread₁.valid anything).bind ?_ fun _ _ _ _ _ => trivial
  intro first d₂ ws₂ j₂ _ hread₂
  refine (persists_furtherWords hread₂.valid).bind ?_ ?_
  · intro further d₃ ws₃ j₃ _ hread₃
    refine persists_optional_bind hread₃.valid (category_eq_punct_iff .openParen) ?_
      ⟨_, rfl, rfl⟩ ?_
    · intro c hc
      rw [accepts_mark_iff]
      exact hc .openParen (by simp)
    · intro opening j₄ hread₄
      exact (persists_arguments opening hread₄.valid afterAttribute).finish fun _ => ⟨_, rfl⟩
  · refine Leads.opt (Opens.token _).seq ?_ ?_
    · intro c hc
      rw [accepts_mark_iff.1 hc]
      simp
    · intro c hc
      exact hc .dot (by simp)

/-- An attribute begins with its mark. -/
theorem attributeEntry_apply_of_ne {k : Input} (h : k.next.content ≠ .punct .at) :
    ∃ err l, attributeEntry k = (.error err, l) := by
  have hmark : ¬ decide (k.next.category = .punct .at) = true := by
    rw [decide_eq_true_iff, Token.category, category_eq_punct_iff, accepts_mark_iff]
    exact h
  have hfail : expect (.punct .at) k = _ := satisfy_apply_of_not_accepts _ hmark
  refine ⟨.expecting (Category.punct .at).name k.next, k.skip, ?_⟩
  rw [attributeEntry, bind_apply, hfail]

theorem persists_attributeList {i : Input} (hi : i.Valid) :
    Persists more bytes attributeList attributeList (.many (.symbol .attributeEntry))
      afterAttributes i := by
  have hentries : Persists more bytes (many attributeEntry) (many attributeEntry)
      (.many (.symbol .attributeEntry)) afterAttributes i := by
    refine persists_many repeats_attributeEntry hi (fun j hj _ => persists_attributeEntry hj) ?_
    intro k hk
    exact attributeEntry_apply_of_ne (hk .at (by simp))
  -- where there are no attributes, their span is at the position reached
  exact (hentries.finish fun ps => ⟨⟨ps, attributesSpan i.offset ps⟩, rfl⟩).congr rfl rfl

theorem persists_brackets (stop : Nat) {i : Input} (hi : i.Valid) :
    Persists more bytes (brackets stop) (brackets stop)
      (.opt (.seq (Ebnf.mark .openBracket) (Ebnf.mark .closeBracket))) (noneOf [.openBracket])
      i := by
  refine persists_optional_bind hi (category_eq_punct_iff .openBracket) ?_ ⟨_, rfl, rfl⟩ ?_
  · intro c hc
    rw [accepts_mark_iff]
    exact hc .openBracket (by simp)
  · intro opening j hread
    exact (persists_mark .closeBracket hread.valid _).finish fun _ => ⟨_, rfl⟩

theorem persists_questionMark (stop : Nat) {i : Input} (hi : i.Valid) :
    Persists more bytes (questionMark stop) (questionMark stop) (.opt (Ebnf.mark .question))
      (noneOf [.question]) i := by
  refine ((persists_optional hi (category_eq_punct_iff .question)).restrict ?_).finish ?_
  · intro c hc
    rw [accepts_mark_iff]
    exact hc .question (by simp)
  · intro found
    cases found with
    | none => exact ⟨_, rfl⟩
    | some t => exact ⟨_, rfl⟩

theorem persists_column {i : Input} (hi : i.Valid) :
    Persists more bytes column column (.symbol .column) afterColumn i := by
  refine .symbol ((persists_word _ hi anything).bind ?_ fun _ _ _ _ _ => trivial)
  intro key d₁ ws₁ j₁ _ hread₁
  refine (persists_capital hread₁.valid anything).bind ?_ fun _ _ _ _ _ => trivial
  intro type d₂ ws₂ j₂ _ hread₂
  refine (persists_brackets _ hread₂.valid).bind ?_ ?_
  · intro multiple d₃ ws₃ j₃ _ hread₃
    refine (persists_questionMark _ hread₃.valid).bind ?_ ?_
    · intro optional d₄ ws₄ j₄ _ hread₄
      refine ((persists_attributeList hread₄.valid).restrict ?_).finish fun _ => ⟨_, rfl⟩
      exact noneOf_mono (by simp)
    · intro d ws rest hd hrest
      exact noneOf_mono (by simp) _ (leads_attributeList d ws rest hd hrest)
  · refine Leads.seq leads_attributeList (Leads.opt (Opens.token _) ?_ ?_)
    · intro c hc
      rw [accepts_mark_iff.1 hc]
      simp [noneOf]
    · exact noneOf_mono (by simp)

/-! ### Statements -/

theorem persists_mergeMark {i : Input} (hi : i.Valid) :
    Persists more bytes mergeMark mergeMark (.opt (Ebnf.mark .bang))
      (fun c => ¬ (Terminal.mark .bang).accepts c = true) i :=
  (persists_optional hi (category_eq_punct_iff .bang)).finish fun _ => ⟨_, rfl⟩

theorem persists_keyword (kind : Kind) {i : Input} (hi : i.Valid) (follow : Content → Prop) :
    Persists more bytes (keyword kind) (keyword kind) (.token (.keyword (.declare kind))) follow
      i :=
  persists_expect hi (category_eq_keyword_iff _ _) follow

/-- The heading that enums, props, types and models share. -/
theorem persists_heading {kind : Kind} {body : Token → Ident → Bool → Parser Declaration} {e : Ebnf}
    {i : Input} (hi : i.Valid)
    (hbody : ∀ start id mergeable (j : Input), j.Valid →
      Persists more bytes (body start id mergeable) (body start id mergeable) e anything j)
    (hlead : Leads e anything fun c => ¬ (Terminal.mark .bang).accepts c = true) :
    Persists more bytes
      (do
        let start ← keyword kind
        let id ← capital
        let mergeable ← mergeMark
        body start id mergeable)
      (do
        let start ← keyword kind
        let id ← capital
        let mergeable ← mergeMark
        body start id mergeable) (.heading kind e) anything i := by
  refine (persists_keyword kind hi anything).bind ?_ fun _ _ _ _ _ => trivial
  intro start d₁ ws₁ j₁ _ hread₁
  refine (persists_capital hread₁.valid anything).bind ?_ fun _ _ _ _ _ => trivial
  intro id d₂ ws₂ j₂ _ hread₂
  refine (persists_mergeMark hread₂.valid).bind ?_ hlead
  intro mergeable d₃ ws₃ j₃ _ hread₃
  exact hbody start id mergeable j₃ hread₃.valid

theorem persists_enumeration {i : Input} (hi : i.Valid) :
    Persists more bytes enumeration enumeration (.symbol (.declaration .enum)) anything i := by
  refine .symbol (persists_heading hi ?_
    (leads_not_bang (Opens.token (.mark .openBrace)).seq (by simp)))
  intro start id mergeable j hj
  refine (persists_enclosed (repeats_entry _) hj ?_ ?_ anything).finish fun _ => ⟨_, rfl⟩
  · intro k hk _
    exact persists_property _ hk fun l hl _ => persists_scalar hl anything
  · intro k hk
    exact property_apply_of_mark _ _ hk

theorem persists_prop {i : Input} (hi : i.Valid) :
    Persists more bytes prop prop (.symbol (.declaration .prop)) anything i := by
  refine .symbol (persists_heading hi ?_ (leads_not_bang opens_object (by simp)))
  intro start id mergeable j hj
  exact (persists_object hj anything).finish fun _ => ⟨_, rfl⟩

theorem persists_plugin {i : Input} (hi : i.Valid) :
    Persists more bytes plugin plugin (.symbol (.declaration .plugin)) anything i := by
  refine .symbol ((persists_keyword .plugin hi anything).bind ?_ fun _ _ _ _ _ => trivial)
  intro start d₁ ws₁ j₁ _ hread₁
  refine (persists_string hread₁.valid anything).bind ?_ fun _ _ _ _ _ => trivial
  intro path d₂ ws₂ j₂ _ hread₂
  exact (persists_object hread₂.valid anything).finish fun _ => ⟨_, rfl⟩

theorem column_apply_of_mark {k : Input} {p : Punct} (h : k.next.content = .punct p) :
    ∃ err l, column k = (.error err, l) := by
  refine ⟨.expecting "a column name" k.next, k.skip, ?_⟩
  rw [column, bind_apply, word_apply_of_mark _ h]

/-- Types and models: the attributes end where the braces begin. -/
theorem persists_columned (kind : Kind) {i : Input} (hi : i.Valid) :
    Persists more bytes (columned kind) (columned kind) (.columned kind) anything i := by
  have hbrace : Opens (.braced (.symbol .column)) fun c => c = .punct .openBrace :=
    ((Opens.token (.mark .openBrace)).mono fun c hc => accepts_mark_iff.1 hc).seq
  refine persists_heading hi ?_ ?_
  · intro start id mergeable j hj
    refine (persists_attributeList hj).bind ?_ ?_
    · intro attributes d₄ ws₄ k _ hread
      refine (persists_enclosed repeats_column hread.valid (fun l hl _ => persists_column hl) ?_
        anything).finish fun _ => ⟨_, rfl⟩
      intro l hl
      exact column_apply_of_mark hl
    · refine (hbrace.mono ?_).leads anything
      rintro _ rfl
      simp [afterAttributes, noneOf]
  · refine Leads.seq (hbrace.leads anything) (Leads.many opens_attributeEntry ?_ ?_)
    · intro c hc
      rw [accepts_mark_iff.1 hc]
      simp [Terminal.accepts]
    · rintro _ rfl
      simp [Terminal.accepts]

theorem persists_declaration (kind : Kind) {i : Input} (hi : i.Valid) :
    Persists more bytes (declaration kind) (declaration kind) (.symbol (.declaration kind))
      anything i := by
  cases kind with
  | enum => exact persists_enumeration hi
  | prop => exact persists_prop hi
  | type => exact .symbol (persists_columned .type hi)
  | model => exact .symbol (persists_columned .model hi)
  | plugin => exact persists_plugin hi

theorem persists_use {i : Input} (hi : i.Valid) :
    Persists more bytes use use (.symbol .use) anything i := by
  refine .symbol ((persists_expect hi (category_eq_keyword_iff .use _) anything).bind ?_
    fun _ _ _ _ _ => trivial)
  intro start d₁ ws₁ j _ hread
  exact (persists_string hread.valid anything).finish fun _ => ⟨_, rfl⟩

/-- **A statement is read as it was, whatever stands behind it.** -/
theorem persists_node {i : Input} (hi : i.Valid) :
    Persists more bytes node node statement anything i := by
  intro x j h
  obtain ⟨d, ws, hd, -, hread, -⟩ := (decides_node hi).accept h
  have hne : i.tokens ≠ [] := by
    obtain ⟨c, xs, rfl, -⟩ := repeats_statement.opens d ws hd
    intro hnil
    have hlen := hread.length_tokens
    rw [hnil, List.length_cons, List.length_nil] at hlen
    omega
  have hcontent : (i.extend more bytes).next.content = i.next.content :=
    congrArg Token.content (Input.next_extend hne)
  -- both readings take the form that the next token tells
  have hform : ∀ {r : Parser Node} {e : Ebnf}, Persists more bytes r r e anything i →
      (∀ l : Input, l.next.content = i.next.content → node l = r l) →
      i.Before j ∧ (anything (j.extend more bytes).next.content →
        node (i.extend more bytes) = (.ok x, j.extend more bytes)) := by
    intro r e hr hrun
    rw [hrun _ hcontent]
    obtain ⟨-, -, -, -, hstep⟩ := hr x j (hrun i rfl ▸ h)
    exact hstep
  refine ⟨d, ws, hd, hread, ?_⟩
  cases hc : i.next.content with
  | keyword k =>
    cases k with
    | use =>
      refine hform ((persists_use hi).finish fun u => ⟨.use u, rfl⟩) fun l hl => ?_
      simp only [node, hl, hc]
    | declare kind =>
      refine hform ((persists_declaration kind hi).finish fun u => ⟨.declaration u, rfl⟩)
        fun l hl => ?_
      simp only [node, hl, hc]
    | _ => simp [node, hc] at h
  | _ => simp [node, hc] at h

end Grammar

end SchemaLang
