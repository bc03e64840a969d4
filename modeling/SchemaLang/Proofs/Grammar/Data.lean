import SchemaLang.Grammar.Data
import SchemaLang.Proofs.Grammar.Reading

/-!
# The readers of data decide the grammar of data

Data needs no look at what follows it: its sentences are told apart by the token they
begin with, and each ends with a token of its own.  The proof goes by the bound on
nesting, each level of which has read a token more.

## Main results

* `Grammar.decides_scalar`, `Grammar.decides_environment`, `Grammar.decides_reference`
* `Grammar.decides_blockOf`, `Grammar.decides_arrayOf` — parts between two marks.
* `Grammar.decides_data`, `Grammar.decides_object` — data of any nesting.
-/

namespace SchemaLang

open SchemaLang.Parser

/-- Any continuation is admitted. -/
def anything (_ : Content) : Prop := True

/-! ### Categories and terminals -/

theorem category_eq_punct_iff (p : Punct) (c : Content) :
    c.category = .punct p ↔ (Terminal.mark p).accepts c = true := by
  cases c <;> simp [Content.category, Terminal.accepts, eq_comm]

theorem category_eq_keyword_iff (k : Keyword) (c : Content) :
    c.category = .keyword k ↔ (Terminal.keyword k).accepts c = true := by
  cases c <;> simp [Content.category, Terminal.accepts, eq_comm]

theorem category_eq_capital_iff (c : Content) :
    c.category = .capital ↔ Terminal.capital.accepts c = true := by
  cases c <;> simp [Content.category, Terminal.accepts]

theorem category_eq_string_iff (c : Content) :
    c.category = .string ↔ Terminal.string.accepts c = true := by
  cases c <;> simp [Content.category, Terminal.accepts]

theorem isWord_category (c : Content) : c.category.isWord = Terminal.word.accepts c := by
  cases c <;> rfl

theorem accepts_mark_iff {p : Punct} {c : Content} :
    (Terminal.mark p).accepts c = true ↔ c = .punct p := by
  cases c <;> simp [Terminal.accepts, eq_comm]

/-! ### What readers return -/

/-- A name read is the one derived. -/
def IdentMeans (id : Ident) (d : Derivation) : Prop := id.mapSpan Span.forget = d.name

/-- Data read is, but for its spans, the data derived. -/
def DataMeans (v : Data) (d : Derivation) : Prop := v.mapSpans Span.forget = d.data

/-- A property read is, but for its spans, what `item` makes of the derivation. -/
def PropertyMeans (item : Derivation → Property) (p : Property) (d : Derivation) : Prop :=
  p.mapSpans Span.forget = item d

/-- A block read is, but for its spans, what `item` makes of the parts of the derivation. -/
def BlockMeans (item : Derivation → Property) (b : Block) (d : Derivation) : Prop :=
  b.mapSpans Span.forget = d.block (·.items.map item)

theorem map_of_itemsMean {α β : Type} {f : α → β} {g : Derivation → β} {xs : List α}
    {d : Derivation} (h : ItemsMean (fun x d => f x = g d) xs d) : xs.map f = d.items.map g := by
  unfold ItemsMean at h
  generalize d.items = ds at h
  induction h with
  | nil => rfl
  | cons hx _ ih => rw [List.map_cons, List.map_cons, hx, ih]

namespace Grammar

/-! ### Names and strings -/

theorem decides_mark (p : Punct) {i : Input} (hi : i.Valid) (follow : Content → Prop) :
    Decides (expect (.punct p)) (Ebnf.mark p) (TokenMeans (.mark p)) follow i :=
  decides_expect hi (category_eq_punct_iff p _) follow

theorem decides_word (expected : String) {i : Input} (hi : i.Valid) (follow : Content → Prop) :
    Decides (word expected) (.token .word) IdentMeans follow i := by
  have hword : Decides (satisfy (·.category.isWord) expected) (.token .word) (TokenMeans .word)
      follow i := decides_satisfy hi (isWord_category i.next.content) follow
  refine hword.finish ?_
  rintro t d ws ⟨rfl, haccept, hproper⟩ -
  refine ⟨_, rfl, ?_⟩
  have htext := hproper.spelled ((isWord_category t.content).trans haccept)
  simp only [IdentMeans, Ident.mapSpan, htext]
  rfl

theorem decides_capital {i : Input} (hi : i.Valid) (follow : Content → Prop) :
    Decides capital (.token .capital) IdentMeans follow i := by
  refine (decides_expect hi (category_eq_capital_iff _) follow).finish ?_
  rintro t d ws ⟨rfl, haccept, hproper⟩ -
  refine ⟨_, rfl, ?_⟩
  have hword : t.category.isWord = true := by
    rw [Token.category, (category_eq_capital_iff t.content).2 haccept]
    rfl
  simp only [IdentMeans, Ident.mapSpan, hproper.spelled hword]
  rfl

/-- A string read has the value of the token derived. -/
def StringMeans (s : String × Span) (d : Derivation) : Prop := s.1 = d.content.quoted

theorem decides_string {i : Input} (hi : i.Valid) (follow : Content → Prop) :
    Decides string (.token .string) StringMeans follow i := by
  refine (decides_expect hi (category_eq_string_iff _) follow).finish ?_
  rintro t d ws ⟨rfl, haccept, -⟩ -
  refine ⟨_, rfl, ?_⟩
  simp only [StringMeans, stringValue, Derivation.content]
  cases hc : t.content <;> rfl

/-! ### Data without parts -/

theorem decides_reference {i : Input} (hi : i.Valid) (follow : Content → Prop) :
    Decides reference (.token .capital) DataMeans follow i := by
  refine (decides_capital hi follow).finish ?_
  intro id d ws hid hd
  refine ⟨_, rfl, ?_⟩
  cases hd with
  | token _ =>
    rw [DataMeans, Data.mapSpans_reference, hid]
    rfl

theorem scalar_apply_of_literal {i : Input} {v : Literal} (h : literal? i.next.content = some v) :
    scalar i = (.ok (.literal v i.next.span), i.advance) := by
  rw [scalar, h]

theorem scalar_apply_of_none {i : Input} (h : literal? i.next.content = none) :
    scalar i = (.error (.expecting "a value" i.next), i.skip) := by
  rw [scalar, h]

/-- Where the next token is one of the tokens of a terminal, reading it decides the terminal. -/
theorem decides_scalar_token (t : Terminal) {v : Literal} {i : Input} (hi : i.Valid)
    (ht : t.accepts i.next.content = true) (hv : literal? i.next.content = some v)
    (follow : Content → Prop) :
    Decides scalar (.token t)
      (fun x d => x.mapSpans Span.forget = .literal v .nowhere ∧ d = .token i.next.content)
      follow i := by
  obtain ⟨ts, hts⟩ := exists_tokens_of_accepts ht
  refine .of_ok (scalar_apply_of_literal hv) (.token ht) ⟨rfl, rfl⟩ (Input.reads_advance hi hts) ?_
  rintro d ws ⟨hd, rest, hcs, -⟩
  exact (eq_token_of_derives hd hcs).2

/-- What a scalar begins with. -/
def ScalarStart (c : Content) : Prop :=
  Terminal.string.accepts c = true ∨ Terminal.number.accepts c = true ∨
    Terminal.boolean.accepts c = true ∨ (Terminal.keyword .null).accepts c = true

theorem opens_scalar : Opens (.symbol .scalar) ScalarStart :=
  .symbol ((Opens.token _).alt ((Opens.token _).alt ((Opens.token _).alt (Opens.token _))))

/-- A literal stands for itself, whichever alternative of the rule it is. -/
theorem decides_scalar {i : Input} (hi : i.Valid) (follow : Content → Prop) :
    Decides scalar (.symbol .scalar) DataMeans follow i := by
  have hstring := Opens.token .string
  have hnumber := Opens.token .number
  have hboolean := Opens.token .boolean
  have hnull := Opens.token (.keyword .null)
  -- all that is left of an alternative once its token is known
  have hmeans : ∀ {v : Literal} {d : Derivation}, d.literal = v → ∀ x : Data,
      x.mapSpans Span.forget = .literal v .nowhere → DataMeans x (.symbol .scalar d) := by
    intro v d hd x hx
    rw [DataMeans, hx, Derivation.data, hd]
  -- and where no alternative has a token, there is none
  have hfail : literal? i.next.content = none → ¬ ScalarStart i.next.content →
      Decides scalar (.symbol .scalar) DataMeans follow i := by
    intro hnone hstart
    exact .of_error (scalar_apply_of_none hnone) (opens_scalar.not_competes hstart)
  cases hc : i.next.content with
  | string s =>
    have hp := decides_scalar_token .string hi (by rw [hc]; rfl) (by rw [hc]; rfl) follow
    refine .symbol (.left (hp.imp ?_) ((hnumber.alt (hboolean.alt hnull)).not_competes ?_))
    · rintro x d ws ⟨hx, rfl⟩ -
      exact hmeans (by rw [hc]; rfl) x hx
    · simp [hc, Terminal.accepts]
  | integer n =>
    have hp := decides_scalar_token .number hi (by rw [hc]; rfl) (by rw [hc]; rfl) follow
    refine .symbol (.right (.left (hp.imp ?_) ((hboolean.alt hnull).not_competes ?_))
      (hstring.not_competes ?_))
    · rintro x d ws ⟨hx, rfl⟩ -
      exact hmeans (by rw [hc]; rfl) x hx
    · simp [hc, Terminal.accepts]
    · simp [hc, Terminal.accepts]
  | float y =>
    have hp := decides_scalar_token .number hi (by rw [hc]; rfl) (by rw [hc]; rfl) follow
    refine .symbol (.right (.left (hp.imp ?_) ((hboolean.alt hnull).not_competes ?_))
      (hstring.not_competes ?_))
    · rintro x d ws ⟨hx, rfl⟩ -
      exact hmeans (by rw [hc]; rfl) x hx
    · simp [hc, Terminal.accepts]
    · simp [hc, Terminal.accepts]
  | keyword k =>
    cases k with
    | boolean b =>
      have hp := decides_scalar_token .boolean hi (by rw [hc]; rfl) (by rw [hc]; rfl) follow
      refine .symbol (.right (.right (.left (hp.imp ?_) (hnull.not_competes ?_))
        (hnumber.not_competes ?_)) (hstring.not_competes ?_))
      · rintro x d ws ⟨hx, rfl⟩ -
        exact hmeans (by rw [hc]; rfl) x hx
      · simp [hc, Terminal.accepts]
      · simp [hc, Terminal.accepts]
      · simp [hc, Terminal.accepts]
    | null =>
      have hp := decides_scalar_token (.keyword .null) hi (by rw [hc]; rfl) (by rw [hc]; rfl) follow
      refine .symbol (.right (.right (.right (hp.imp ?_) (hboolean.not_competes ?_))
        (hnumber.not_competes ?_)) (hstring.not_competes ?_))
      · rintro x d ws ⟨hx, rfl⟩ -
        exact hmeans (by rw [hc]; rfl) x hx
      · simp [hc, Terminal.accepts]
      · simp [hc, Terminal.accepts]
      · simp [hc, Terminal.accepts]
    | _ => exact hfail (by rw [hc]; rfl) (by simp [hc, ScalarStart, Terminal.accepts])
  | _ => exact hfail (by rw [hc]; rfl) (by simp [hc, ScalarStart, Terminal.accepts])

theorem opens_environment :
    Opens (.symbol .environment) fun c => (Terminal.name "env").accepts c = true :=
  .symbol (Opens.token _).seq

/-- The word `env` is a name like any other; it is read as such only where it stands. -/
theorem decides_environment {i : Input} (hi : i.Valid)
    (hnext : i.next.content = .identifier "env") (follow : Content → Prop) :
    Decides environment (.symbol .environment) DataMeans follow i := by
  have hname : i.next.content.category = .identifier ↔
      (Terminal.name "env").accepts i.next.content = true := by
    rw [hnext]
    simp [Content.category, Terminal.accepts]
  refine .symbol ((decides_expect hi hname anything).bind ?_ fun _ _ _ _ _ => trivial)
  rintro keyword d₁ ws₁ j₁ - - hread₁
  refine (decides_mark .openParen hread₁.valid anything).bind ?_ fun _ _ _ _ _ => trivial
  rintro opening d₂ ws₂ j₂ - - hread₂
  refine (decides_string hread₂.valid anything).bind ?_ fun _ _ _ _ _ => trivial
  intro name d₃ ws₃ j₃ hname _ hread₃
  refine (decides_mark .closeParen hread₃.valid follow).finish ?_
  intro close d₄ ws₄ _ _
  refine ⟨_, rfl, ?_⟩
  rw [DataMeans, Data.mapSpans_environment, Derivation.data, ← hname]
  rfl

/-! ### Data made of parts -/

variable {α β : Type}

/-- Parts up to a closing mark, which no part begins with. -/
theorem decides_closed {item : Parser α} {e : Ebnf} {means : α → Derivation → Prop}
    {first middle : Content → Prop} {closing : Punct} {f : List α → Token → β}
    {result : β → Derivation → Prop} (hrep : Repeats e first middle (· = .punct closing))
    {i : Input} (hi : i.Valid)
    (hitem : ∀ j : Input, j.Valid → j.tokens.length ≤ i.tokens.length → Decides item e means middle j)
    (hf : ∀ xs ds t d, ItemsMean means xs ds → result (f xs t) (.seq ds d))
    (follow : Content → Prop) :
    Decides (do let xs ← many item; let t ← expect (.punct closing); return f xs t)
      (.seq (.many e) (Ebnf.mark closing)) result follow i := by
  refine (decides_many hrep hi hitem).bind ?_ ?_
  · intro xs ds ws j hxs _ hread
    refine (decides_mark closing hread.valid follow).finish ?_
    intro t d ws' _ _
    exact ⟨_, rfl, hf xs ds t d hxs⟩
  · exact ((Opens.token (.mark closing)).mono fun c hc => accepts_mark_iff.1 hc).leads follow

/-- Parts between two marks. -/
theorem decides_enclosed {item : Parser α} {e : Ebnf} {means : α → Derivation → Prop}
    {first middle : Content → Prop} {opening closing : Punct} {f : Token → List α → Token → β}
    {result : β → Derivation → Prop} (hrep : Repeats e first middle (· = .punct closing))
    {i : Input} (hi : i.Valid)
    (hitem : ∀ j : Input, j.Valid → j.tokens.length < i.tokens.length → Decides item e means middle j)
    (hf : ∀ s xs t d ds d', ItemsMean means xs ds → result (f s xs t) (.seq d (.seq ds d')))
    (follow : Content → Prop) :
    Decides (do
        let s ← expect (.punct opening)
        let xs ← many item
        let t ← expect (.punct closing)
        return f s xs t) (.enclosed opening e closing) result follow i := by
  refine (decides_mark opening hi anything).bind ?_ fun _ _ _ _ _ => trivial
  intro s d ws j _ hd hread
  -- the opening mark is read, so that fewer tokens are left for the parts
  have hlen : j.tokens.length < i.tokens.length := by
    have hlen := hread.length_tokens
    cases hd with
    | token _ =>
      rw [List.length_singleton] at hlen
      omega
  refine decides_closed hrep hread.valid (fun k hk hle => hitem k hk (by omega)) ?_ follow
  intro xs ds t d' hxs
  exact hf s xs t d ds d' hxs

theorem decides_blockOf {entry : Parser Property} {e : Ebnf} {item : Derivation → Property}
    {first middle : Content → Prop} (hrep : Repeats e first middle (· = .punct .closeBrace))
    {i : Input} (hi : i.Valid)
    (hentry : ∀ j : Input, j.Valid → j.tokens.length < i.tokens.length →
      Decides entry e (PropertyMeans item) middle j) (follow : Content → Prop) :
    Decides (blockOf entry) (.braced e) (BlockMeans item) follow i := by
  refine decides_enclosed hrep hi hentry ?_ follow
  intro s ps t d ds d' hps
  rw [BlockMeans, Block.mapSpans, Derivation.block]
  rw [map_of_itemsMean hps]
  rfl

theorem decides_arrayOf {item : Parser Data} {e : Ebnf} {first middle : Content → Prop}
    (hrep : Repeats e first middle (· = .punct .closeBracket)) {i : Input} (hi : i.Valid)
    (hitem : ∀ j : Input, j.Valid → j.tokens.length < i.tokens.length →
      Decides item e DataMeans middle j) (follow : Content → Prop) :
    Decides (arrayOf item) (.enclosed .openBracket e .closeBracket)
      (fun v d => DataMeans v (.symbol .array d)) follow i := by
  refine decides_enclosed hrep hi hitem ?_ follow
  intro s vs t d ds d' hvs
  rw [DataMeans, Data.mapSpans_array, map_of_itemsMean hvs, Derivation.data,
    Derivation.elements_eq_map]
  rfl

/-! ### Data of any nesting -/

theorem opens_object : Opens (.symbol .object) fun c => (Terminal.mark .openBrace).accepts c = true :=
  .symbol (Opens.token _).seq

theorem opens_array : Opens (.symbol .array) fun c => (Terminal.mark .openBracket).accepts c = true :=
  .symbol (Opens.token _).seq

/-- What data begins with. -/
def DataStart (c : Content) : Prop :=
  (Terminal.mark .openBrace).accepts c = true ∨ (Terminal.mark .openBracket).accepts c = true ∨
    (Terminal.name "env").accepts c = true ∨ ScalarStart c ∨ Terminal.capital.accepts c = true

theorem opens_data : Opens (.symbol .data) DataStart :=
  .symbol (opens_object.alt (opens_array.alt (opens_environment.alt
    (opens_scalar.alt (Opens.token _)))))

theorem not_dataStart_punct {p : Punct} (h₁ : p ≠ .openBrace) (h₂ : p ≠ .openBracket) :
    ¬ DataStart (.punct p) := by
  simp [DataStart, ScalarStart, Terminal.accepts, h₁.symm, h₂.symm]

/-- Data is repeated up to any mark that begins none. -/
theorem repeats_data {p : Punct} (h₁ : p ≠ .openBrace) (h₂ : p ≠ .openBracket) :
    Repeats (.symbol .data) DataStart anything (· = .punct p) where
  opens := opens_data
  apart := by
    rintro _ hc rfl
    exact not_dataStart_punct h₁ h₂ hc
  again := fun _ _ => trivial
  last := fun _ _ => trivial

theorem repeats_entry (e : Ebnf) {p : Punct} :
    Repeats (.seq (.token .word) e) (fun c => Terminal.word.accepts c = true) anything
      (· = .punct p) where
  opens := (Opens.token _).seq
  apart := by
    rintro _ hc rfl
    simp [Terminal.accepts] at hc
  again := fun _ _ => trivial
  last := fun _ _ => trivial

/-- A key and its value decide a word and data. -/
theorem decides_property {value : Parser Data} {e : Ebnf} (expected : String) {i : Input}
    (hi : i.Valid)
    (hvalue : ∀ j : Input, j.Valid → j.tokens.length ≤ i.tokens.length →
      Decides value e DataMeans anything j) :
    Decides (property expected value) (.seq (.token .word) e) (PropertyMeans Derivation.property)
      anything i := by
  refine (decides_word expected hi anything).bind ?_ fun _ _ _ _ _ => trivial
  intro key d ws j hkey _ hread
  have hlen := hread.length_tokens
  refine (hvalue j hread.valid (by omega)).finish ?_
  intro v d' ws' hv _
  refine ⟨_, rfl, ?_⟩
  rw [PropertyMeans, Property.mapSpans, hkey, hv, Derivation.property]

theorem decides_objectOf {item : Parser Data} {i : Input} (hi : i.Valid)
    (hitem : ∀ j : Input, j.Valid → j.tokens.length < i.tokens.length →
      Decides item (.symbol .data) DataMeans anything j) (follow : Content → Prop) :
    Decides (objectOf item) (.symbol .object)
      (fun b d => b.mapSpans Span.forget = d.object) follow i := by
  have hentry : ∀ j : Input, j.Valid → j.tokens.length < i.tokens.length →
      Decides (property "a property key" item) (.seq (.token .word) (.symbol .data))
        (PropertyMeans Derivation.property) anything j := by
    intro j hj hlt
    exact decides_property _ hj fun k hk hle => hitem k hk (by omega)
  refine .symbol ((decides_blockOf (repeats_entry _) hi hentry follow).imp ?_)
  intro b d ws hb _
  rw [Derivation.object, Derivation.block_properties]
  exact hb

/-- An object is the same as data and as a block. -/
theorem data_eq_object {d : Derivation} {ws : List Content} (hd : Derives (.symbol .object) d ws) :
    d.data = d.object.toData := by
  cases hd with
  | symbol hd =>
    cases hd with
    | seq h₁ h₂ =>
      cases h₂ with
      | seq h₂ h₃ => rfl

/-- One level of data: the next token tells which alternative of the rule it is. -/
theorem decides_dataOf {item : Parser Data} {i : Input} (hi : i.Valid)
    (hitem : ∀ j : Input, j.Valid → j.tokens.length < i.tokens.length →
      Decides item (.symbol .data) DataMeans anything j) :
    Decides (dataOf item) (.symbol .data) DataMeans anything i := by
  -- a scalar, wherever nothing else begins
  have hscalar : dataOf item i = scalar i →
      ¬ (Terminal.mark .openBrace).accepts i.next.content = true →
      ¬ (Terminal.mark .openBracket).accepts i.next.content = true →
      ¬ (Terminal.name "env").accepts i.next.content = true →
      ¬ Terminal.capital.accepts i.next.content = true →
      Decides (dataOf item) (.symbol .data) DataMeans anything i := by
    intro hrun hbrace hbracket henv hcapital
    refine (Decides.symbol (.right (.right (.right (.left ?_ ?_) ?_) ?_) ?_)).congr hrun
    · exact (decides_scalar hi anything).imp fun x d ws hx _ => hx
    · exact (Opens.token _).not_competes hcapital
    · exact opens_environment.not_competes henv
    · exact opens_array.not_competes hbracket
    · exact opens_object.not_competes hbrace
  cases hc : i.next.content with
  | identifier name =>
    by_cases hname : name = "env"
    · subst hname
      have hrun : dataOf item i = environment i := by
        simp only [dataOf, hc, if_true]
      refine (Decides.symbol (.right (.right (.left ?_ ?_) ?_) ?_)).congr hrun
      · exact (decides_environment hi hc anything).imp fun x d ws hx _ => hx
      · refine (opens_scalar.alt (Opens.token _)).not_competes ?_
        simp [hc, ScalarStart, Terminal.accepts]
      · exact opens_array.not_competes (by simp [hc, Terminal.accepts])
      · exact opens_object.not_competes (by simp [hc, Terminal.accepts])
    · refine hscalar (by simp only [dataOf, hc, hname, if_false]) ?_ ?_ ?_ ?_
      all_goals simp [hc, Terminal.accepts, Ne.symm hname]
  | capital name =>
    have hrun : dataOf item i = reference i := by simp only [dataOf, hc]
    refine (Decides.symbol (.right (.right (.right (.right ?_ ?_) ?_) ?_) ?_)).congr hrun
    · exact (decides_reference hi anything).imp fun x d ws hx _ => hx
    · exact opens_scalar.not_competes (by simp [hc, ScalarStart, Terminal.accepts])
    · exact opens_environment.not_competes (by simp [hc, Terminal.accepts])
    · exact opens_array.not_competes (by simp [hc, Terminal.accepts])
    · exact opens_object.not_competes (by simp [hc, Terminal.accepts])
  | punct p =>
    by_cases hbrace : p = .openBrace
    · subst hbrace
      have hrun : dataOf item i = (do return (← objectOf item).toData : Parser Data) i := by
        simp only [dataOf, hc]
      refine (Decides.symbol (.left ?_ ?_)).congr hrun
      · refine (decides_objectOf hi hitem anything).finish ?_
        intro b d ws hb hd
        refine ⟨_, rfl, ?_⟩
        rw [DataMeans, ← Block.toData_mapSpans, hb]
        exact (data_eq_object hd).symm
      · refine (opens_array.alt (opens_environment.alt (opens_scalar.alt (Opens.token _)))).not_competes ?_
        simp [hc, ScalarStart, Terminal.accepts]
    · by_cases hbracket : p = .openBracket
      · subst hbracket
        have hrun : dataOf item i = arrayOf item i := by simp only [dataOf, hc]
        refine (Decides.symbol (.right (.left ?_ ?_) ?_)).congr hrun
        · have harray : Decides (arrayOf item) (.symbol .array) DataMeans anything i :=
            .symbol (decides_arrayOf (repeats_data (by simp) (by simp)) hi hitem anything)
          exact harray.imp fun x d ws hx _ => hx
        · refine (opens_environment.alt (opens_scalar.alt (Opens.token _))).not_competes ?_
          simp [hc, ScalarStart, Terminal.accepts]
        · exact opens_object.not_competes (by simp [hc, Terminal.accepts])
      · refine hscalar ?_ ?_ ?_ ?_ ?_
        · cases p <;> first | contradiction | simp only [dataOf, hc]
        all_goals simp [hc, Terminal.accepts, Ne.symm hbrace, Ne.symm hbracket]
  | _ =>
    refine hscalar (by simp only [dataOf, hc]) ?_ ?_ ?_ ?_
    all_goals simp [hc, Terminal.accepts]

theorem decides_dataWithin (depth : Nat) {i : Input} (hi : i.Valid)
    (hdepth : i.tokens.length < depth) :
    Decides (dataWithin depth) (.symbol .data) DataMeans anything i := by
  induction depth generalizing i with
  | zero => omega
  | succ depth ih => exact decides_dataOf hi fun j hj hlt => ih hj (by omega)

/-- **Reading data decides the grammar of data**, at any nesting and whatever follows. -/
theorem decides_data {i : Input} (hi : i.Valid) :
    Decides data (.symbol .data) DataMeans anything i :=
  (decides_dataWithin (i.tokens.length + 1) hi (by omega)).congr rfl

theorem decides_object {i : Input} (hi : i.Valid) (follow : Content → Prop) :
    Decides object (.symbol .object) (fun b d => b.mapSpans Span.forget = d.object) follow i :=
  decides_objectOf hi (fun _ hj _ => decides_data hj) follow

end Grammar

end SchemaLang
