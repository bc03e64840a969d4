import SchemaLang.Token.Scanner

/-!
# Derivations

The grammar of schemas as data, and what it derives.  Nothing here refers to a
parser: a rule is an expression over terminals and symbols, and a derivation is the
tree of choices that leads from an expression to a row of token contents.  Every
choice is kept — which alternative, whether an optional part stands, how often a part
repeats — so two derivations are equal only if they agree in all of them.

## Main definitions

* `Terminal`, `Symbol`, `Ebnf` — the language grammars are written in.
* `Symbol.rule` — the grammar.
* `Derivation`, `Derives` — derivations, and what they derive.
* `sentence` — what the grammar sees of a source.
* `Opens`, `Leads` — how the sentences of an expression begin.
-/

namespace SchemaLang

/-! ### Expressions -/

/-- What a rule may ask of a single token. -/
inductive Terminal where
  /-- A given punctuation mark. -/
  | mark (mark : Punct) : Terminal
  /-- A given reserved word. -/
  | keyword (word : Keyword) : Terminal
  /-- A given name that does not start with a capital letter. -/
  | name (name : String) : Terminal
  /-- Any name that starts with a capital letter. -/
  | capital : Terminal
  /-- Any name or reserved word. -/
  | word : Terminal
  /-- Any string. -/
  | string : Terminal
  /-- Any number. -/
  | number : Terminal
  /-- One of the two truth values. -/
  | boolean : Terminal
  deriving DecidableEq, Repr, Inhabited

/-- Whether a token content is what a terminal asks for. -/
def Terminal.accepts : Terminal → Content → Bool
  | .mark p, .punct q => p = q
  | .keyword k, .keyword l => k = l
  | .name n, .identifier m => n = m
  | .capital, .capital _ => true
  | .word, .identifier _ => true
  | .word, .capital _ => true
  | .word, .keyword _ => true
  | .string, .string _ => true
  | .number, .integer _ => true
  | .number, .float _ => true
  | .boolean, .keyword (.boolean _) => true
  | _, _ => false

/-- What has a rule of its own. -/
inductive Symbol where
  /-- A whole source. -/
  | schema : Symbol
  /-- A request for another source. -/
  | use : Symbol
  /-- A declaration of a kind. -/
  | declaration (kind : Kind) : Symbol
  /-- An attribute of a declaration or a column. -/
  | attributeEntry : Symbol
  /-- A column of a type or a model. -/
  | column : Symbol
  /-- Any value. -/
  | data : Symbol
  /-- Properties in braces. -/
  | object : Symbol
  /-- Values in brackets. -/
  | array : Symbol
  /-- An environment variable. -/
  | environment : Symbol
  /-- A value of one token. -/
  | scalar : Symbol
  deriving DecidableEq, Repr, Inhabited

/-- The right side of a rule, or a part of one. -/
inductive Ebnf where
  /-- One token. -/
  | token (terminal : Terminal) : Ebnf
  /-- Whatever the rule of a symbol says. -/
  | symbol (symbol : Symbol) : Ebnf
  /-- One after the other. -/
  | seq (first second : Ebnf) : Ebnf
  /-- One or the other. -/
  | alt (first second : Ebnf) : Ebnf
  /-- Once or not at all. -/
  | opt (part : Ebnf) : Ebnf
  /-- Any number of times. -/
  | many (part : Ebnf) : Ebnf
  deriving DecidableEq, Repr, Inhabited

namespace Ebnf

/-- A punctuation mark. -/
def mark (p : Punct) : Ebnf := .token (.mark p)

/-- A part repeated between two marks. -/
def enclosed (opening : Punct) (part : Ebnf) (closing : Punct) : Ebnf :=
  .seq (mark opening) (.seq (.many part) (mark closing))

/-- Properties in braces: words with what follows each. -/
def braced (entry : Ebnf) : Ebnf := enclosed .openBrace entry .closeBrace

/-- The word that starts declarations of a kind, and the name declared, which may be
marked as one that does not merge. -/
def heading (kind : Kind) (body : Ebnf) : Ebnf :=
  .seq (.token (.keyword (.declare kind)))
    (.seq (.token .capital) (.seq (.opt (mark .bang)) body))

/-- A declaration of columns. -/
def columned (kind : Kind) : Ebnf :=
  heading kind (.seq (.many (.symbol .attributeEntry)) (braced (.symbol .column)))

end Ebnf

open Ebnf in
/-- The grammar: what each symbol stands for. -/
def Symbol.rule : Symbol → Ebnf
  | .schema =>
    .many (.alt (.symbol .use)
      (.alt (.symbol (.declaration .enum))
      (.alt (.symbol (.declaration .prop))
      (.alt (.symbol (.declaration .type))
      (.alt (.symbol (.declaration .model))
        (.symbol (.declaration .plugin)))))))
  | .use => .seq (.token (.keyword .use)) (.token .string)
  | .declaration .enum => heading .enum (braced (.seq (.token .word) (.symbol .scalar)))
  | .declaration .prop => heading .prop (.symbol .object)
  | .declaration .type => columned .type
  | .declaration .model => columned .model
  | .declaration .plugin =>
    .seq (.token (.keyword (.declare .plugin))) (.seq (.token .string) (.symbol .object))
  | .attributeEntry =>
    .seq (mark .at) (.seq (.token .word)
      (.seq (.many (.seq (mark .dot) (.token .word)))
        (.opt (enclosed .openParen (.symbol .data) .closeParen))))
  | .column =>
    .seq (.token .word) (.seq (.token .capital)
      (.seq (.opt (.seq (mark .openBracket) (mark .closeBracket)))
        (.seq (.opt (mark .question)) (.many (.symbol .attributeEntry)))))
  | .data =>
    .alt (.symbol .object) (.alt (.symbol .array) (.alt (.symbol .environment)
      (.alt (.symbol .scalar) (.token .capital))))
  | .object => braced (.seq (.token .word) (.symbol .data))
  | .array => enclosed .openBracket (.symbol .data) .closeBracket
  | .environment =>
    .seq (.token (.name "env")) (.seq (mark .openParen) (.seq (.token .string) (mark .closeParen)))
  | .scalar =>
    .alt (.token .string) (.alt (.token .number) (.alt (.token .boolean) (.token (.keyword .null))))

/-! ### Derivations -/

/-- A derivation: every choice on the way from an expression to a row of tokens. -/
inductive Derivation where
  /-- The token that stands for a terminal. -/
  | token (content : Content) : Derivation
  /-- A symbol, by its rule. -/
  | symbol (symbol : Symbol) (body : Derivation) : Derivation
  /-- Both parts. -/
  | seq (first second : Derivation) : Derivation
  /-- The first of two alternatives. -/
  | left (chosen : Derivation) : Derivation
  /-- The second of two alternatives. -/
  | right (chosen : Derivation) : Derivation
  /-- An optional part that does not stand. -/
  | absent : Derivation
  /-- An optional part that stands. -/
  | present (part : Derivation) : Derivation
  /-- No further repetition. -/
  | stop : Derivation
  /-- A repetition and those after it. -/
  | more (part rest : Derivation) : Derivation
  deriving DecidableEq, Repr, Inhabited

/-- `Derives e d ws`: by the choices `d` the expression `e` derives the contents `ws`. -/
inductive Derives : Ebnf → Derivation → List Content → Prop where
  /-- A terminal derives each token it asks for. -/
  | token {t : Terminal} {c : Content} (accepted : t.accepts c = true) :
      Derives (.token t) (.token c) [c]
  /-- A symbol derives what its rule derives. -/
  | symbol {s : Symbol} {d : Derivation} {ws : List Content} (body : Derives s.rule d ws) :
      Derives (.symbol s) (.symbol s d) ws
  /-- Two parts derive one after the other. -/
  | seq {a b : Ebnf} {d e : Derivation} {ws xs : List Content} (first : Derives a d ws)
      (second : Derives b e xs) : Derives (.seq a b) (.seq d e) (ws ++ xs)
  /-- An alternative derives what its first part derives. -/
  | left {a b : Ebnf} {d : Derivation} {ws : List Content} (chosen : Derives a d ws) :
      Derives (.alt a b) (.left d) ws
  /-- An alternative derives what its second part derives. -/
  | right {a b : Ebnf} {d : Derivation} {ws : List Content} (chosen : Derives b d ws) :
      Derives (.alt a b) (.right d) ws
  /-- An optional part may be missing. -/
  | absent {a : Ebnf} : Derives (.opt a) .absent []
  /-- An optional part may stand. -/
  | present {a : Ebnf} {d : Derivation} {ws : List Content} (part : Derives a d ws) :
      Derives (.opt a) (.present d) ws
  /-- A repetition may end. -/
  | stop {a : Ebnf} : Derives (.many a) .stop []
  /-- A repetition may go on. -/
  | more {a : Ebnf} {d e : Derivation} {ws xs : List Content} (part : Derives a d ws)
      (rest : Derives (.many a) e xs) : Derives (.many a) (.more d e) (ws ++ xs)

/-- What the grammar sees of a source: the contents of its tokens up to the end, without
blanks and comments. -/
def sentence (source : List Char) : List Content :=
  ((((lex source).takeWhile (·.category ≠ .endOfInput)).filter (·.category.isCode)).map (·.content))

/-! ### How sentences begin -/

/-- The content that a row of contents goes on with. -/
def upcoming (ws : List Content) : Content := ws.head?.getD .endOfInput

@[simp] theorem upcoming_nil : upcoming [] = .endOfInput := rfl

@[simp] theorem upcoming_cons (c : Content) (ws : List Content) : upcoming (c :: ws) = c := rfl

/-- Whatever `e` derives begins with a content in `first`. -/
def Opens (e : Ebnf) (first : Content → Prop) : Prop :=
  ∀ d ws, Derives e d ws → ∃ c xs, ws = c :: xs ∧ first c

/-- Whatever `e` derives, in front of anything that goes on as `follow` says, goes on as
`start` says. -/
def Leads (e : Ebnf) (follow start : Content → Prop) : Prop :=
  ∀ d ws rest, Derives e d ws → follow (upcoming rest) → start (upcoming (ws ++ rest))

namespace Opens

variable {a b : Ebnf} {first other : Content → Prop}

theorem mono (h : Opens a first) (hsub : ∀ c, first c → other c) : Opens a other := by
  intro d ws hd
  obtain ⟨c, xs, rfl, hc⟩ := h d ws hd
  exact ⟨c, xs, rfl, hsub c hc⟩

theorem token (t : Terminal) : Opens (.token t) (fun c => t.accepts c = true) := by
  intro d ws hd
  cases hd with
  | token hc => exact ⟨_, [], rfl, hc⟩

theorem symbol {s : Symbol} (h : Opens s.rule first) : Opens (.symbol s) first := by
  intro d ws hd
  cases hd with
  | symbol hd => exact h _ _ hd

theorem seq (h : Opens a first) : Opens (.seq a b) first := by
  intro d ws hd
  cases hd with
  | seq hd he =>
    obtain ⟨c, xs, rfl, hc⟩ := h _ _ hd
    exact ⟨c, _, rfl, hc⟩

theorem alt (ha : Opens a first) (hb : Opens b other) :
    Opens (.alt a b) (fun c => first c ∨ other c) := by
  intro d ws hd
  cases hd with
  | left hd =>
    obtain ⟨c, xs, rfl, hc⟩ := ha _ _ hd
    exact ⟨c, xs, rfl, Or.inl hc⟩
  | right hd =>
    obtain ⟨c, xs, rfl, hc⟩ := hb _ _ hd
    exact ⟨c, xs, rfl, Or.inr hc⟩

theorem leads (h : Opens a first) (follow : Content → Prop) : Leads a follow first := by
  intro d ws rest hd _
  obtain ⟨c, xs, rfl, hc⟩ := h d ws hd
  exact hc

end Opens

namespace Leads

variable {a b : Ebnf} {follow middle start first : Content → Prop}

theorem seq (hb : Leads b follow middle) (ha : Leads a middle start) :
    Leads (.seq a b) follow start := by
  intro d ws rest hd hrest
  cases hd with
  | seq hd he =>
    rw [List.append_assoc]
    exact ha _ _ _ hd (hb _ _ _ he hrest)

theorem opt (h : Opens a first) (hstart : ∀ c, first c → start c)
    (hfollow : ∀ c, follow c → start c) : Leads (.opt a) follow start := by
  intro d ws rest hd hrest
  cases hd with
  | absent => exact hfollow _ hrest
  | present hd => exact hstart _ (h.leads follow _ _ _ hd hrest)

theorem many (h : Opens a first) (hstart : ∀ c, first c → start c)
    (hfollow : ∀ c, follow c → start c) : Leads (.many a) follow start := by
  intro d ws rest hd hrest
  cases hd with
  | stop => exact hfollow _ hrest
  | more hd he =>
    obtain ⟨c, xs, rfl, hc⟩ := h _ _ hd
    exact hstart c hc

end Leads

end SchemaLang
