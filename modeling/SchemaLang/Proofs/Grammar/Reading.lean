import SchemaLang.Grammar.Parser
import SchemaLang.Proofs.Grammar.Meaning
import Mathlib.Data.List.Forall2

/-!
# Parsers that decide an expression

A parser decides an expression at an input when its success is the one derivation that
the tokens to come allow, and its failure means that there is none.  A parser does not
look at all that follows; so only those derivations count after which the tokens go on
in a way that `follow` admits.  The notion joins soundness, completeness and unambiguity,
and passes through every way in which parsers are put together, so that each reader of the
grammar is settled by one proof along its own text.

## Main definitions

* `Input.Valid` — the tokens lie in order behind the position reached.
* `Input.Reads` — reading some contents leads from one input to another.
* `Competes` — a derivation of a leading part of what is to come.
* `Parser.Decides` — the parser decides the expression.

## Main results

* `Parser.Decides.bind`, `Parser.Decides.finish` — one parser after the other.
* `Parser.decides_optional`, `Parser.decides_optional_bind` — optional parts.
* `Parser.decides_many`, `Parser.decides_whileNext` — repetition.
-/

namespace SchemaLang

/-! ### Inputs -/

namespace Input

/-- The tokens to be read lie in order between the position reached and the end. -/
def Valid (i : Input) : Prop := Token.Laid i.size i.offset i.tokens

/-- The contents of the tokens to be read. -/
def contents (i : Input) : List Content := i.tokens.map (·.content)

@[simp] theorem length_contents (i : Input) : i.contents.length = i.tokens.length :=
  List.length_map ..

@[simp] theorem upcoming_contents (i : Input) : upcoming i.contents = i.next.content := by
  rw [upcoming, contents, next, List.head?_map]
  cases i.tokens.head? <;> rfl

/-- Reading the contents `ws` leads from `i` to `j`; every token takes a byte at least. -/
structure Reads (i : Input) (ws : List Content) (j : Input) : Prop where
  /-- What is read comes first, and the rest is left. -/
  contents : i.contents = ws ++ j.contents
  /-- What is left lies in order. -/
  valid : j.Valid
  /-- Fewer bytes are left. -/
  left : j.left + ws.length ≤ i.left
  /-- The source has so many bytes. -/
  size : j.size = i.size

theorem Reads.refl {i : Input} (hi : i.Valid) : i.Reads [] i :=
  ⟨rfl, hi, Nat.le_refl _, rfl⟩

theorem Reads.trans {i j k : Input} {ws xs : List Content} (h : i.Reads ws j) (h' : j.Reads xs k) :
    i.Reads (ws ++ xs) k := by
  refine ⟨?_, h'.valid, ?_, h'.size.trans h.size⟩
  · rw [h.contents, h'.contents, List.append_assoc]
  · have h₁ := h.left
    have h₂ := h'.left
    rw [List.length_append]
    omega

theorem Reads.length_tokens {i j : Input} {ws : List Content} (h : i.Reads ws j) :
    i.tokens.length = ws.length + j.tokens.length := by
  have hlen := congrArg List.length h.contents
  rwa [List.length_append, length_contents, length_contents] at hlen

theorem reads_advance {i : Input} {t : Token} {ts : List Token} (hi : i.Valid)
    (ht : i.tokens = t :: ts) : i.Reads [t.content] i.advance := by
  have hnext : i.next = t := by rw [next, ht]; rfl
  have hlaid : Token.Laid i.size i.offset (t :: ts) := by rw [← ht]; exact hi
  obtain ⟨h₁, h₂, h₃⟩ := hlaid
  have hvalid : i.advance.Valid := by
    simp only [Valid, advance, hnext, ht, List.tail_cons]
    exact h₃
  refine ⟨?_, hvalid, ?_, rfl⟩
  · simp [Input.contents, advance, ht]
  · have hlt := h₂.nonempty
    have hle := h₃.le
    simp only [left, advance, hnext, List.length_singleton]
    omega

end Input

/-! ### Deciding -/

/-- A derivation of a leading part `ws` of `cs`, after which `cs` goes on as `follow` says. -/
def Competes (e : Ebnf) (follow : Content → Prop) (cs : List Content) (d : Derivation)
    (ws : List Content) : Prop :=
  Derives e d ws ∧ ∃ rest, cs = ws ++ rest ∧ follow (upcoming rest)

/-- Nothing is derived where the next token begins nothing of the kind. -/
theorem Opens.not_competes {e : Ebnf} {first follow : Content → Prop} (h : Opens e first)
    {i : Input} (hfirst : ¬ first i.next.content) (d : Derivation) (ws : List Content) :
    ¬ Competes e follow i.contents d ws := by
  rintro ⟨hd, rest, hcs, -⟩
  obtain ⟨c, xs, rfl, hc⟩ := h d ws hd
  rw [← Input.upcoming_contents, hcs] at hfirst
  exact hfirst hc

/-- Nothing is derived where neither alternative derives anything. -/
theorem not_competes_alt {a b : Ebnf} {follow : Content → Prop} {cs : List Content}
    (ha : ∀ d ws, ¬ Competes a follow cs d ws) (hb : ∀ d ws, ¬ Competes b follow cs d ws)
    (d : Derivation) (ws : List Content) : ¬ Competes (.alt a b) follow cs d ws := by
  rintro ⟨hd, hrest⟩
  cases hd with
  | left hd => exact ha _ _ ⟨hd, hrest⟩
  | right hd => exact hb _ _ ⟨hd, hrest⟩

namespace Parser

variable {α β : Type}

/-- The parser `p` decides the expression `e` at the input `i`; `means` relates what it returns to
the derivation. -/
structure Decides (p : Parser α) (e : Ebnf) (means : α → Derivation → Prop)
    (follow : Content → Prop) (i : Input) : Prop where
  /-- A success is a derivation of what was read, and the only one that may be continued. -/
  accept : ∀ {a : α} {j : Input}, p i = (.ok a, j) → ∃ d ws, Derives e d ws ∧ means a d ∧
    i.Reads ws j ∧ ∀ d' ws', Competes e follow i.contents d' ws' → d' = d ∧ ws' = ws
  /-- After a failure there is no derivation that may be continued. -/
  reject : ∀ {err : SyntaxError} {j : Input}, p i = (.error err, j) →
    ∀ d ws, ¬ Competes e follow i.contents d ws

/-- A sequence succeeds when both parts do. -/
theorem bind_eq_ok {p : Parser α} {q : α → Parser β} {i k : Input} {b : β}
    (h : (p >>= q) i = (.ok b, k)) : ∃ a j, p i = (.ok a, j) ∧ q a j = (.ok b, k) := by
  rw [bind_apply] at h
  rcases hp : p i with ⟨_ | a, j⟩
  · rw [hp] at h
    simp at h
  · rw [hp] at h
    exact ⟨a, j, rfl, h⟩

/-- A sequence fails when its first part does, or else its second. -/
theorem bind_eq_error {p : Parser α} {q : α → Parser β} {i k : Input} {err : SyntaxError}
    (h : (p >>= q) i = (.error err, k)) :
    p i = (.error err, k) ∨ ∃ a j, p i = (.ok a, j) ∧ q a j = (.error err, k) := by
  rw [bind_apply] at h
  rcases hp : p i with ⟨_ | a, j⟩
  · rw [hp] at h
    obtain ⟨rfl, rfl⟩ : _ = err ∧ j = k := by simpa using h
    exact Or.inl rfl
  · rw [hp] at h
    exact Or.inr ⟨a, j, rfl, h⟩

namespace Decides

variable {p : Parser α} {q : α → Parser β} {a b : Ebnf} {means : α → Derivation → Prop}
  {result : β → Derivation → Prop} {follow middle : Content → Prop} {i : Input}

/-- Where the parser is known to succeed, its result decides. -/
theorem of_ok {x : α} {j : Input} {d : Derivation} {ws : List Content} (hrun : p i = (.ok x, j))
    (hd : Derives a d ws) (hmeans : means x d) (hread : i.Reads ws j)
    (huniq : ∀ d' ws', Competes a follow i.contents d' ws' → d' = d ∧ ws' = ws) :
    Decides p a means follow i := by
  constructor
  · intro y k hk
    rw [hrun] at hk
    cases hk
    exact ⟨d, ws, hd, hmeans, hread, huniq⟩
  · intro err k hk
    rw [hrun] at hk
    cases hk

/-- Where the parser is known to fail, there must be nothing to derive. -/
theorem of_error {err : SyntaxError} {j : Input} (hrun : p i = (.error err, j))
    (hnone : ∀ d ws, ¬ Competes a follow i.contents d ws) : Decides p a means follow i := by
  refine ⟨?_, fun _ => hnone⟩
  intro y k hk
  rw [hrun] at hk
  cases hk

/-- One parser after the other decides one expression after the other, if what the second
may begin with is admitted after the first. -/
theorem bind (hp : Decides p a means middle i)
    (hq : ∀ x d ws j, means x d → Derives a d ws → i.Reads ws j →
      Decides (q x) b (fun y d' => result y (.seq d d')) follow j)
    (hlead : Leads b follow middle) : Decides (p >>= q) (.seq a b) result follow i := by
  -- a competitor of the sequence gives one of its first part
  have hfirst : ∀ d₁ d₂ ws₁ ws₂ rest, Derives a d₁ ws₁ → Derives b d₂ ws₂ →
      i.contents = (ws₁ ++ ws₂) ++ rest → follow (upcoming rest) →
        Competes a middle i.contents d₁ ws₁ := by
    intro d₁ d₂ ws₁ ws₂ rest h₁ h₂ hcs hrest
    exact ⟨h₁, ws₂ ++ rest, by rw [hcs, List.append_assoc], hlead _ _ _ h₂ hrest⟩
  -- and, once the first part is settled, one of its second part
  have hsecond : ∀ d₁ d₂ ws₁ ws₂ rest j, i.Reads ws₁ j → Derives a d₁ ws₁ → Derives b d₂ ws₂ →
      i.contents = (ws₁ ++ ws₂) ++ rest → follow (upcoming rest) →
        Competes b follow j.contents d₂ ws₂ := by
    intro d₁ d₂ ws₁ ws₂ rest j hread h₁ h₂ hcs hrest
    rw [hread.contents, List.append_assoc, List.append_cancel_left_eq] at hcs
    exact ⟨h₂, rest, hcs, hrest⟩
  constructor
  · intro y k h
    obtain ⟨x, j, hpx, hqy⟩ := bind_eq_ok h
    obtain ⟨d, ws, hd, hmeans, hread, huniq⟩ := hp.accept hpx
    obtain ⟨d', ws', hd', hresult, hread', huniq'⟩ := (hq x d ws j hmeans hd hread).accept hqy
    refine ⟨.seq d d', ws ++ ws', .seq hd hd', hresult, hread.trans hread', ?_⟩
    rintro c us ⟨hc, rest, hcs, hrest⟩
    cases hc with
    | seq h₁ h₂ =>
      obtain ⟨rfl, rfl⟩ := huniq _ _ (hfirst _ _ _ _ _ h₁ h₂ hcs hrest)
      obtain ⟨rfl, rfl⟩ := huniq' _ _ (hsecond _ _ _ _ _ _ hread h₁ h₂ hcs hrest)
      exact ⟨rfl, rfl⟩
  · intro err k h c us hcomp
    obtain ⟨hc, rest, hcs, hrest⟩ := hcomp
    cases hc with
    | seq h₁ h₂ =>
      have hcomp₁ := hfirst _ _ _ _ _ h₁ h₂ hcs hrest
      rcases bind_eq_error h with hpe | ⟨x, j, hpx, hqe⟩
      · exact hp.reject hpe _ _ hcomp₁
      · obtain ⟨d, ws, hd, hmeans, hread, huniq⟩ := hp.accept hpx
        obtain ⟨rfl, rfl⟩ := huniq _ _ hcomp₁
        exact (hq x _ _ j hmeans hd hread).reject hqe _ _
          (hsecond _ _ _ _ _ _ hread h₁ h₂ hcs hrest)

/-- A parser followed by a computation that reads nothing. -/
theorem finish (hp : Decides p a means follow i)
    (hq : ∀ x d ws, means x d → Derives a d ws → ∃ y, q x = pure y ∧ result y d) :
    Decides (p >>= q) a result follow i := by
  constructor
  · intro y k h
    obtain ⟨x, j, hpx, hqy⟩ := bind_eq_ok h
    obtain ⟨d, ws, hd, hmeans, hread, huniq⟩ := hp.accept hpx
    obtain ⟨y', hy', hresult⟩ := hq x d ws hmeans hd
    rw [hy', pure_apply] at hqy
    cases hqy
    exact ⟨d, ws, hd, hresult, hread, huniq⟩
  · intro err k h
    rcases bind_eq_error h with hpe | ⟨x, j, hpx, hqe⟩
    · exact hp.reject hpe
    · obtain ⟨d, ws, hd, hmeans, -⟩ := hp.accept hpx
      obtain ⟨y', hy', -⟩ := hq x d ws hmeans hd
      rw [hy', pure_apply] at hqe
      cases hqe

/-- A weaker relation between results and derivations. -/
theorem imp {means' : α → Derivation → Prop} (hp : Decides p a means follow i)
    (himp : ∀ x d ws, means x d → Derives a d ws → means' x d) : Decides p a means' follow i := by
  refine ⟨?_, hp.reject⟩
  intro x j h
  obtain ⟨d, ws, hd, hmeans, hrest⟩ := hp.accept h
  exact ⟨d, ws, hd, himp x d ws hmeans hd, hrest⟩

/-- A parser that decides among many continuations decides among fewer. -/
theorem restrict (hp : Decides p a means middle i) (hsub : ∀ c, follow c → middle c) :
    Decides p a means follow i := by
  have hcomp : ∀ d ws, Competes a follow i.contents d ws → Competes a middle i.contents d ws := by
    rintro d ws ⟨hd, rest, hcs, hrest⟩
    exact ⟨hd, rest, hcs, hsub _ hrest⟩
  constructor
  · intro x j h
    obtain ⟨d, ws, hd, hmeans, hread, huniq⟩ := hp.accept h
    exact ⟨d, ws, hd, hmeans, hread, fun d' ws' hc => huniq d' ws' (hcomp d' ws' hc)⟩
  · intro err j h d ws hc
    exact hp.reject h d ws (hcomp d ws hc)

/-- Only the value at the input counts. -/
theorem congr {p' : Parser α} (hp : Decides p' a means follow i) (heq : p i = p' i) :
    Decides p a means follow i := by
  constructor
  · intro x j h
    exact hp.accept (heq ▸ h)
  · intro err j h
    exact hp.reject (heq ▸ h)

/-- The rule of a symbol decides the symbol. -/
theorem symbol {s : Symbol} (hp : Decides p s.rule (fun x d => means x (.symbol s d)) follow i) :
    Decides p (.symbol s) means follow i := by
  constructor
  · intro x j h
    obtain ⟨d, ws, hd, hmeans, hread, huniq⟩ := hp.accept h
    refine ⟨.symbol s d, ws, .symbol hd, hmeans, hread, ?_⟩
    rintro c us ⟨hc, hrest⟩
    cases hc with
    | symbol hc =>
      obtain ⟨rfl, rfl⟩ := huniq _ _ ⟨hc, hrest⟩
      exact ⟨rfl, rfl⟩
  · rintro err j h c us ⟨hc, hrest⟩
    cases hc with
    | symbol hc => exact hp.reject h _ _ ⟨hc, hrest⟩

/-- The first alternative, where the second has no derivation. -/
theorem left (hp : Decides p a (fun x d => means x (.left d)) follow i)
    (hb : ∀ d ws, ¬ Competes b follow i.contents d ws) :
    Decides p (.alt a b) means follow i := by
  constructor
  · intro x j h
    obtain ⟨d, ws, hd, hmeans, hread, huniq⟩ := hp.accept h
    refine ⟨.left d, ws, .left hd, hmeans, hread, ?_⟩
    rintro c us ⟨hc, hrest⟩
    cases hc with
    | left hc =>
      obtain ⟨rfl, rfl⟩ := huniq _ _ ⟨hc, hrest⟩
      exact ⟨rfl, rfl⟩
    | right hc => exact absurd ⟨hc, hrest⟩ (hb _ _)
  · rintro err j h c us ⟨hc, hrest⟩
    cases hc with
    | left hc => exact hp.reject h _ _ ⟨hc, hrest⟩
    | right hc => exact hb _ _ ⟨hc, hrest⟩

/-- The second alternative, where the first has no derivation. -/
theorem right (hp : Decides p b (fun x d => means x (.right d)) follow i)
    (ha : ∀ d ws, ¬ Competes a follow i.contents d ws) :
    Decides p (.alt a b) means follow i := by
  constructor
  · intro x j h
    obtain ⟨d, ws, hd, hmeans, hread, huniq⟩ := hp.accept h
    refine ⟨.right d, ws, .right hd, hmeans, hread, ?_⟩
    rintro c us ⟨hc, hrest⟩
    cases hc with
    | left hc => exact absurd ⟨hc, hrest⟩ (ha _ _)
    | right hc =>
      obtain ⟨rfl, rfl⟩ := huniq _ _ ⟨hc, hrest⟩
      exact ⟨rfl, rfl⟩
  · rintro err j h c us ⟨hc, hrest⟩
    cases hc with
    | left hc => exact ha _ _ ⟨hc, hrest⟩
    | right hc => exact hp.reject h _ _ ⟨hc, hrest⟩

end Decides

/-! ### Single tokens -/

theorem satisfy_apply_of_accepts {accept : Token → Bool} (expected : String) {i : Input}
    (h : accept i.next = true) : satisfy accept expected i = (.ok i.next, i.advance) := by
  rw [satisfy, if_pos h]

theorem satisfy_apply_of_not_accepts {accept : Token → Bool} (expected : String) {i : Input}
    (h : ¬ accept i.next = true) :
    satisfy accept expected i = (.error (.expecting expected i.next), i.skip) := by
  rw [satisfy, if_neg h]

/-- A terminal never asks for the end, so what it accepts is a token to be read. -/
theorem exists_tokens_of_accepts {t : Terminal} {i : Input} (h : t.accepts i.next.content = true) :
    ∃ ts, i.tokens = i.next :: ts := by
  rcases ht : i.tokens with _ | ⟨token, ts⟩
  · have hnext : i.next = .endOfInput i.size := by rw [Input.next, ht]; rfl
    rw [hnext] at h
    cases t <;> simp [Token.endOfInput, Terminal.accepts] at h
  · exact ⟨ts, by rw [Input.next, ht]; rfl⟩

/-- A terminal derives one token, in one way. -/
theorem eq_token_of_derives {t : Terminal} {i : Input} {d : Derivation} {ws rest : List Content}
    (hd : Derives (.token t) d ws) (hcs : i.contents = ws ++ rest) :
    t.accepts i.next.content = true ∧ d = .token i.next.content ∧ ws = [i.next.content] := by
  cases hd with
  | @token _ c hc =>
    have hnext : i.next.content = c := by
      rw [← Input.upcoming_contents, hcs]
      rfl
    rw [hnext]
    exact ⟨hc, rfl, rfl⟩

/-- What a token read for a terminal means: itself. -/
def TokenMeans (t : Terminal) (token : Token) (d : Derivation) : Prop :=
  d = .token token.content ∧ t.accepts token.content = true ∧ token.Proper

theorem decides_satisfy {accept : Token → Bool} {expected : String} {t : Terminal} {i : Input}
    (hi : i.Valid) (h : accept i.next = t.accepts i.next.content) (follow : Content → Prop) :
    Decides (satisfy accept expected) (.token t) (TokenMeans t) follow i := by
  by_cases ht : t.accepts i.next.content = true
  · have happ := satisfy_apply_of_accepts expected (h.trans ht)
    obtain ⟨ts, hts⟩ := exists_tokens_of_accepts ht
    have hlaid : Token.Laid i.size i.offset (i.next :: ts) := by rw [← hts]; exact hi
    refine .of_ok happ (.token ht) ⟨rfl, ht, hlaid.2.1⟩ (Input.reads_advance hi hts) ?_
    rintro d ws ⟨hd, rest, hcs, -⟩
    exact (eq_token_of_derives hd hcs).2
  · have happ := satisfy_apply_of_not_accepts expected (h ▸ ht)
    refine .of_error happ ?_
    rintro d ws ⟨hd, rest, hcs, -⟩
    exact ht (eq_token_of_derives hd hcs).1

theorem decides_expect {category : Category} {t : Terminal} {i : Input} (hi : i.Valid)
    (hcat : i.next.content.category = category ↔ t.accepts i.next.content = true)
    (follow : Content → Prop) : Decides (expect category) (.token t) (TokenMeans t) follow i := by
  refine decides_satisfy hi ?_ follow
  rw [Bool.eq_iff_iff, decide_eq_true_iff]
  exact hcat

/-! ### Optional parts -/

theorem optional_apply_of_accepts {category : Category} {i : Input}
    (h : i.next.category = category) : optional category i = (.ok (some i.next), i.advance) := by
  rw [optional, expect, satisfy_apply_of_accepts _ (by simpa using h)]

theorem optional_apply_of_not_accepts {category : Category} {i : Input}
    (h : i.next.category ≠ category) : optional category i = (.ok none, i) := by
  rw [optional, expect, satisfy_apply_of_not_accepts _ (by simpa using h)]

variable {category : Category} {t : Terminal}

/-- Nothing of an optional part that begins with `t` stands before another token. -/
theorem absent_of_competes {e : Ebnf} {follow : Content → Prop} {i : Input}
    (hopen : Opens e fun c => t.accepts c = true) (ht : ¬ t.accepts i.next.content = true)
    {d : Derivation} {ws : List Content} (h : Competes (.opt e) follow i.contents d ws) :
    d = .absent ∧ ws = [] := by
  obtain ⟨hd, hrest⟩ := h
  cases hd with
  | absent => exact ⟨rfl, rfl⟩
  | present hd => exact absurd ⟨hd, hrest⟩ (hopen.not_competes ht _ _)

/-- What an optional mark means: whether it stands. -/
def MarkMeans (found : Option Token) (d : Derivation) : Prop :=
  (found = none ∧ d = .absent) ∨ ∃ t, found = some t ∧ d = .present (.token t.content)

theorem decides_optional {i : Input} (hi : i.Valid)
    (hcat : ∀ c : Content, c.category = category ↔ t.accepts c = true) :
    Decides (optional category) (.opt (.token t)) MarkMeans (fun c => ¬ t.accepts c = true) i := by
  by_cases ht : t.accepts i.next.content = true
  · have happ := optional_apply_of_accepts ((hcat i.next.content).2 ht)
    obtain ⟨ts, hts⟩ := exists_tokens_of_accepts ht
    refine .of_ok happ (.present (.token ht)) (Or.inr ⟨_, rfl, rfl⟩)
      (Input.reads_advance hi hts) ?_
    rintro d ws ⟨hd, rest, hcs, hrest⟩
    cases hd with
    | absent =>
      rw [List.nil_append] at hcs
      rw [← hcs, Input.upcoming_contents] at hrest
      exact absurd ht hrest
    | present hd =>
      obtain ⟨-, rfl, rfl⟩ := eq_token_of_derives hd hcs
      exact ⟨rfl, rfl⟩
  · have happ := optional_apply_of_not_accepts (fun h => ht ((hcat i.next.content).1 h))
    exact .of_ok happ .absent (Or.inl ⟨rfl, rfl⟩) (Input.Reads.refl hi)
      fun d ws hcomp => absent_of_competes (Opens.token t) ht hcomp

/-- An optional part that begins with a token of its own: where that token stands, the rest of
the part must follow. -/
theorem decides_optional_bind {q : Option Token → Parser β} {e : Ebnf}
    {result : β → Derivation → Prop} {follow : Content → Prop} {i : Input} (hi : i.Valid)
    (hcat : ∀ c : Content, c.category = category ↔ t.accepts c = true)
    (hfollow : ∀ c, follow c → ¬ t.accepts c = true)
    (hnone : ∃ y, q none = pure y ∧ result y .absent)
    (hsome : ∀ token j, i.Reads [token.content] j →
      Decides (q (some token)) e
        (fun y d => result y (.present (.seq (.token token.content) d))) follow j) :
    Decides (optional category >>= q) (.opt (.seq (.token t) e)) result follow i := by
  have hopen : Opens (.seq (.token t) e) fun c => t.accepts c = true := (Opens.token t).seq
  by_cases ht : t.accepts i.next.content = true
  · have happ := optional_apply_of_accepts ((hcat i.next.content).2 ht)
    obtain ⟨ts, hts⟩ := exists_tokens_of_accepts ht
    have hread := Input.reads_advance hi hts
    have hq := hsome i.next i.advance hread
    have hrun : (optional category >>= q) i = q (some i.next) i.advance := by
      rw [bind_apply, happ]
    -- a competitor must take the token, since no continuation starts with it
    have hcomp : ∀ d ws, Competes (.opt (.seq (.token t) e)) follow i.contents d ws →
        ∃ d' ws', d = .present (.seq (.token i.next.content) d') ∧ ws = i.next.content :: ws' ∧
          Competes e follow i.advance.contents d' ws' := by
      rintro d ws ⟨hd, rest, hcs, hrest⟩
      cases hd with
      | absent =>
        rw [List.nil_append] at hcs
        rw [← hcs, Input.upcoming_contents] at hrest
        exact absurd ht (hfollow _ hrest)
      | present hd =>
        cases hd with
        | seq h₁ h₂ =>
          obtain ⟨-, rfl, rfl⟩ := eq_token_of_derives h₁ (hcs.trans (List.append_assoc ..))
          rw [hread.contents, List.append_assoc, List.append_cancel_left_eq] at hcs
          exact ⟨_, _, rfl, rfl, h₂, rest, hcs, hrest⟩
    constructor
    · intro y k hk
      rw [hrun] at hk
      obtain ⟨d, ws, hd, hresult, hread', huniq⟩ := hq.accept hk
      refine ⟨_, _, .present (.seq (.token ht) hd), hresult, hread.trans hread', ?_⟩
      intro d' ws' hc
      obtain ⟨d'', ws'', rfl, rfl, hc'⟩ := hcomp d' ws' hc
      obtain ⟨rfl, rfl⟩ := huniq _ _ hc'
      exact ⟨rfl, rfl⟩
    · intro err k hk d ws hc
      rw [hrun] at hk
      obtain ⟨d', ws', -, -, hc'⟩ := hcomp d ws hc
      exact hq.reject hk _ _ hc'
  · have happ := optional_apply_of_not_accepts (fun h => ht ((hcat i.next.content).1 h))
    obtain ⟨y, hy, hresult⟩ := hnone
    have hrun : (optional category >>= q) i = (.ok y, i) := by
      rw [bind_apply, happ]
      simp only [hy, pure_apply]
    exact .of_ok hrun .absent hresult (Input.Reads.refl hi)
      fun d ws hcomp => absent_of_competes hopen ht hcomp

end Parser

/-! ### Repetition -/

/-- The conditions under which it is clear where a repetition of `e` ends: what may follow all
parts is nothing that a part begins with, and a part admits both after it. -/
structure Repeats (e : Ebnf) (first middle follow : Content → Prop) : Prop where
  /-- A part begins with a content in `first`. -/
  opens : Opens e first
  /-- What follows the parts is none of these. -/
  apart : ∀ c, first c → ¬ follow c
  /-- A part may be followed by a part. -/
  again : ∀ c, first c → middle c
  /-- The last part may be followed by what follows the parts. -/
  last : ∀ c, follow c → middle c

namespace Repeats

variable {e : Ebnf} {first middle follow : Content → Prop}

theorem leads (h : Repeats e first middle follow) : Leads (.many e) follow middle :=
  Leads.many h.opens h.again h.last

/-- Where no part can be derived, the repetition is over. -/
theorem eq_stop (h : Repeats e first middle follow) {cs : List Content}
    (hnone : ∀ d ws, ¬ Competes e middle cs d ws) {c : Derivation} {us : List Content}
    (hc : Competes (.many e) follow cs c us) : c = .stop ∧ us = [] := by
  obtain ⟨hd, rest, rfl, hrest⟩ := hc
  cases hd with
  | stop => exact ⟨rfl, rfl⟩
  | more h₁ h₂ =>
    exact absurd ⟨h₁, _, List.append_assoc .., h.leads _ _ _ h₂ hrest⟩ (hnone _ _)

/-- Where one part can be derived in one way only, the repetition goes on with it. -/
theorem eq_more (h : Repeats e first middle follow) {cs ws rest : List Content} {d : Derivation}
    (hd : Derives e d ws) (hcs : cs = ws ++ rest)
    (huniq : ∀ d' ws', Competes e middle cs d' ws' → d' = d ∧ ws' = ws)
    {c : Derivation} {us : List Content} (hc : Competes (.many e) follow cs c us) :
    ∃ c' us', c = .more d c' ∧ us = ws ++ us' ∧ Competes (.many e) follow rest c' us' := by
  obtain ⟨hc, rest', hcs', hrest'⟩ := hc
  cases hc with
  | stop =>
    obtain ⟨x, xs, rfl, hx⟩ := h.opens d ws hd
    rw [List.nil_append] at hcs'
    rw [← hcs', hcs] at hrest'
    exact absurd hrest' (h.apart x hx)
  | more h₁ h₂ =>
    have hcomp : Competes e middle cs _ _ :=
      ⟨h₁, _, hcs'.trans (List.append_assoc ..), h.leads _ _ _ h₂ hrest'⟩
    obtain ⟨rfl, rfl⟩ := huniq _ _ hcomp
    rw [hcs, List.append_assoc, List.append_cancel_left_eq] at hcs'
    exact ⟨_, _, rfl, rfl, h₂, rest', hcs', hrest'⟩

/-- A part is not empty, so reading one leaves fewer bytes. -/
theorem left_lt (h : Repeats e first middle follow) {d : Derivation} {ws : List Content}
    (hd : Derives e d ws) {i j : Input} (hread : i.Reads ws j) : j.left < i.left := by
  obtain ⟨x, xs, rfl, -⟩ := h.opens d ws hd
  have hleft := hread.left
  rw [List.length_cons] at hleft
  omega

end Repeats

namespace Parser

variable {α : Type}

/-- What a repeated part means, part by part. -/
def ItemsMean (means : α → Derivation → Prop) (xs : List α) (d : Derivation) : Prop :=
  List.Forall₂ means xs d.items

/-- **Greedy repetition decides repetition**: giving up at the first failure never drops a part
that could be derived, and never splits the tokens otherwise. -/
theorem decides_many {p : Parser α} {e : Ebnf} {means : α → Derivation → Prop}
    {first middle follow : Content → Prop} (hrep : Repeats e first middle follow) {i : Input}
    (hi : i.Valid) (hp : ∀ j : Input, j.Valid → j.tokens.length ≤ i.tokens.length →
      Decides p e means middle j) :
    Decides (many p) (.many e) (ItemsMean means) follow i := by
  -- repetition never fails, so all is said by the one success
  have key : ∃ d ws, Derives (.many e) d ws ∧ ItemsMean means (collect p i).1 d ∧
      i.Reads ws (collect p i).2 ∧
        ∀ d' ws', Competes (.many e) follow i.contents d' ws' → d' = d ∧ ws' = ws := by
    fun_induction collect p i with
    | case1 i err k hpi =>
      have hnone := (hp i hi (Nat.le_refl _)).reject hpi
      exact ⟨.stop, [], .stop, .nil, Input.Reads.refl hi, fun d' ws' hc => hrep.eq_stop hnone hc⟩
    | case2 i a j hpi hlt r ih =>
      obtain ⟨d, ws, hd, hmeans, hread, huniq⟩ := (hp i hi (Nat.le_refl _)).accept hpi
      have hlen := hread.length_tokens
      obtain ⟨d', ws', hd', hitems, hread', huniq'⟩ :=
        ih hread.valid fun k hk hle => hp k hk (by omega)
      refine ⟨.more d d', ws ++ ws', .more hd hd', .cons hmeans hitems, hread.trans hread', ?_⟩
      intro c us hc
      obtain ⟨c', us', rfl, rfl, hc'⟩ := hrep.eq_more hd hread.contents huniq hc
      obtain ⟨rfl, rfl⟩ := huniq' _ _ hc'
      exact ⟨rfl, rfl⟩
    | case3 i a j hpi hlt =>
      obtain ⟨d, ws, hd, -, hread, -⟩ := (hp i hi (Nat.le_refl _)).accept hpi
      exact absurd (hrep.left_lt hd hread) hlt
  obtain ⟨d, ws, hd, hitems, hread, huniq⟩ := key
  exact .of_ok rfl hd hitems hread huniq

/-- Repetition that looks ahead decides repetition, if the parts begin where it goes on and what
follows lies where it stops. -/
theorem decides_whileNext {p : Parser α} {accept : Category → Bool} {e : Ebnf}
    {means : α → Derivation → Prop} {middle follow : Content → Prop}
    (hrep : Repeats e (fun c => accept c.category = true) middle follow) {i : Input} (hi : i.Valid)
    (hp : ∀ j : Input, j.Valid → j.tokens.length ≤ i.tokens.length → Decides p e means middle j) :
    Decides (whileNext accept p) (.many e) (ItemsMean means) follow i := by
  induction hn : i.left using Nat.strongRecOn generalizing i with
  | ind n ih =>
  have hpi := hp i hi (Nat.le_refl _)
  by_cases haccept : accept i.next.category = true
  · rcases hrun : p i with ⟨err | x, j⟩
    · -- a part must stand here, and there is none
      have hfail : whileNext accept p i = (.error err, j) := by
        rw [whileNext, if_pos haccept, hrun]
      refine .of_error hfail ?_
      intro d ws hc
      obtain ⟨rfl, rfl⟩ := hrep.eq_stop (hpi.reject hrun) hc
      obtain ⟨-, rest, hcs, hrest⟩ := hc
      rw [List.nil_append] at hcs
      rw [← hcs, Input.upcoming_contents] at hrest
      exact hrep.apart _ haccept hrest
    · obtain ⟨d, ws, hd, hmeans, hread, huniq⟩ := hpi.accept hrun
      have hlt := hrep.left_lt hd hread
      have hlen := hread.length_tokens
      have hrest := ih j.left (hn ▸ hlt) hread.valid (fun k hk hle => hp k hk (by omega)) rfl
      rcases hrun' : whileNext accept p j with ⟨err | xs, k⟩
      · have hfail : whileNext accept p i = (.error err, k) := by
          rw [whileNext, if_pos haccept, hrun]
          simp only [if_pos hlt, hrun']
        refine .of_error hfail ?_
        intro c us hc
        obtain ⟨c', us', -, -, hc'⟩ := hrep.eq_more hd hread.contents huniq hc
        exact hrest.reject hrun' _ _ hc'
      · have hok : whileNext accept p i = (.ok (x :: xs), k) := by
          rw [whileNext, if_pos haccept, hrun]
          simp only [if_pos hlt, hrun']
        obtain ⟨d', ws', hd', hitems, hread', huniq'⟩ := hrest.accept hrun'
        refine .of_ok hok (.more hd hd') (.cons hmeans hitems) (hread.trans hread') ?_
        intro c us hc
        obtain ⟨c', us', rfl, rfl, hc'⟩ := hrep.eq_more hd hread.contents huniq hc
        obtain ⟨rfl, rfl⟩ := huniq' _ _ hc'
        exact ⟨rfl, rfl⟩
  · have hstop : whileNext accept p i = (.ok [], i) := by
      rw [whileNext, if_neg haccept]
    exact .of_ok hstop .stop .nil (Input.Reads.refl hi)
      fun d ws hc => hrep.eq_stop (hrep.opens.not_competes haccept) hc

/-- Repetition that looks ahead ends where it need not go on. -/
theorem not_accept_of_whileNext {p : Parser α} {accept : Category → Bool}
    (hstep : ∀ (j : Input) (x : α) (k : Input), j.Valid → p j = (.ok x, k) →
      k.Valid ∧ k.left < j.left)
    {i j : Input} {xs : List α} (hi : i.Valid) (h : whileNext accept p i = (.ok xs, j)) :
    ¬ accept j.next.category = true := by
  fun_induction whileNext accept p i generalizing xs j with
  | case1 => cases h
  | case2 => cases h
  | case3 i _ x k hrun _ ys l hrec ih =>
    cases h
    exact ih (hstep i x k hi hrun).1 hrec
  | case4 i _ x k hrun hlt => exact absurd (hstep i x k hi hrun).2 hlt
  | case5 i haccept =>
    cases h
    exact haccept

end Parser

end SchemaLang
