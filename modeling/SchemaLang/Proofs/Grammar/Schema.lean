import SchemaLang.Grammar.Schema
import SchemaLang.Proofs.Grammar.Data

/-!
# The readers of schemas decide the grammar of schemas

Attributes and columns end without a mark of their own, so they are decided only before
tokens that continue neither.  Declarations and requests end with a mark or a string,
and are decided before anything.

## Main results

* `Grammar.decides_attributeEntry`, `Grammar.decides_column` — the parts of types and models.
* `Grammar.decides_declaration`, `Grammar.decides_use` — statements.
* `parseSchema_exact` — **a source is read exactly if its sentence can be derived**, the
  derivation is then the only one, and the tree read is its tree.
-/

namespace SchemaLang

open SchemaLang.Parser

/-- No mark of a list comes next. -/
def noneOf (marks : List Punct) (c : Content) : Prop := ∀ p ∈ marks, c ≠ .punct p

theorem noneOf_mono {marks others : List Punct} (h : others ⊆ marks) (c : Content)
    (hc : noneOf marks c) : noneOf others c :=
  fun p hp => hc p (h hp)

/-- What may follow an attribute: nothing that continues its name or begins its arguments. -/
def afterAttribute : Content → Prop := noneOf [.dot, .openParen]

/-- What may follow attributes: moreover no further one. -/
def afterAttributes : Content → Prop := noneOf [.dot, .openParen, .at]

/-- What may follow a column: moreover no mark of its type. -/
def afterColumn : Content → Prop := noneOf [.dot, .openParen, .at, .openBracket, .question]

namespace Grammar

/-! ### Attributes -/

theorem repeats_furtherWord :
    Repeats (.seq (Ebnf.mark .dot) (.token .word))
      (fun c => decide (c.category = .punct .dot) = true) anything (fun c => c ≠ .punct .dot) where
  opens := ((Opens.token (.mark .dot)).mono fun c hc =>
    decide_eq_true ((category_eq_punct_iff .dot c).2 hc)).seq
  apart := by
    intro c hc hne
    rw [decide_eq_true_iff, category_eq_punct_iff, accepts_mark_iff] at hc
    exact hne hc
  again := fun _ _ => trivial
  last := fun _ _ => trivial

/-- Further words read are those derived. -/
def WordsMean (ids : List Ident) (d : Derivation) : Prop :=
  ids.map (·.name) = d.items.map (·.second.content.spelling)

theorem decides_furtherWords {i : Input} (hi : i.Valid) :
    Decides furtherWords (.many (.seq (Ebnf.mark .dot) (.token .word))) WordsMean
      (fun c => c ≠ .punct .dot) i := by
  have hword : ∀ j : Input, j.Valid → j.tokens.length ≤ i.tokens.length →
      Decides (do let _ ← expect (.punct .dot); word "an attribute name")
        (.seq (Ebnf.mark .dot) (.token .word))
        (fun id d => id.name = d.second.content.spelling) anything j := by
    intro j hj _
    refine (decides_mark .dot hj anything).bind ?_ fun _ _ _ _ _ => trivial
    intro dot d ws k _ _ hread
    refine (decides_word _ hread.valid anything).imp ?_
    intro id d' ws' hid _
    exact congrArg Ident.name hid
  exact (decides_whileNext repeats_furtherWord hi hword).imp fun ids d ws h _ => map_of_itemsMean h

theorem dottedName_eq_intercalate (first : Ident) (further : List Ident) :
    dottedName first further = String.intercalate "." (first.name :: further.map (·.name)) := by
  rw [dottedName]
  generalize first.name = start
  induction further generalizing start with
  | nil => rw [List.map_nil, String.intercalate_singleton, List.foldl_nil]
  | cons id ids ih =>
    rw [List.foldl_cons, ih, List.map_cons, String.intercalate_cons_append,
      String.intercalate_cons_cons]

theorem opens_attributeEntry :
    Opens (.symbol .attributeEntry) fun c => (Terminal.mark .at).accepts c = true :=
  .symbol (Opens.token _).seq

/-- The value of an attribute read is, but for its spans, the one derived. -/
def ValueMeans (v : Data) (d : Derivation) : Prop := v.mapSpans Span.forget = d.arguments

theorem decides_arguments {opening : Token} {i : Input} (hi : i.Valid) (follow : Content → Prop) :
    Decides (arguments opening) (.seq (.many (.symbol .data)) (Ebnf.mark .closeParen))
      (fun v d => ValueMeans v (.present (.seq (.token opening.content) d))) follow i := by
  refine decides_closed (repeats_data (by simp) (by simp)) hi (fun j hj _ => decides_data hj) ?_ follow
  intro vs ds t d hvs
  rw [ValueMeans, Data.mapSpans_array, map_of_itemsMean hvs, Derivation.arguments,
    Derivation.elements_eq_map]
  rfl

/-- An attribute: its words, each further one after a dot, and its arguments. -/
theorem decides_attributeEntry {i : Input} (hi : i.Valid) :
    Decides attributeEntry (.symbol .attributeEntry) (PropertyMeans Derivation.attributeEntry)
      afterAttribute i := by
  refine .symbol ((decides_mark .at hi anything).bind ?_ fun _ _ _ _ _ => trivial)
  intro mark d₁ ws₁ j₁ _ _ hread₁
  refine (decides_word _ hread₁.valid anything).bind ?_ fun _ _ _ _ _ => trivial
  intro first d₂ ws₂ j₂ hfirst _ hread₂
  refine (decides_furtherWords hread₂.valid).bind ?_ ?_
  · intro further d₃ ws₃ j₃ hfurther _ hread₃
    have hname : dottedName first further =
        String.intercalate "." (d₂.content.spelling :: d₃.items.map (·.second.content.spelling)) := by
      rw [dottedName_eq_intercalate, hfurther]
      exact congrArg (fun id : Ident => String.intercalate "." (id.name :: _)) hfirst
    -- whatever the value, the property is the one derived
    have hproperty : ∀ (span : Span) (v : Data) (d₄ : Derivation), ValueMeans v d₄ →
        PropertyMeans Derivation.attributeEntry (⟨dottedName first further, span⟩, v)
          (.symbol .attributeEntry (.seq d₁ (.seq d₂ (.seq d₃ d₄)))) := by
      intro span v d₄ hv
      rw [PropertyMeans, Property.mapSpans, Ident.mapSpan, hname, hv, Derivation.attributeEntry]
      rfl
    refine decides_optional_bind hread₃.valid (category_eq_punct_iff .openParen) ?_
      ⟨_, rfl, hproperty _ _ _ rfl⟩ ?_
    · intro c hc
      rw [accepts_mark_iff]
      exact hc .openParen (by simp)
    · intro opening j₄ hread₄
      refine (decides_arguments hread₄.valid afterAttribute).finish ?_
      intro v d₄ ws₄ hv _
      exact ⟨_, rfl, hproperty _ _ _ hv⟩
  · refine Leads.opt (Opens.token _).seq ?_ ?_
    · intro c hc
      rw [accepts_mark_iff.1 hc]
      simp
    · intro c hc
      exact hc .dot (by simp)

theorem repeats_attributeEntry :
    Repeats (.symbol .attributeEntry) (fun c => (Terminal.mark .at).accepts c = true) afterAttribute
      afterAttributes where
  opens := opens_attributeEntry
  apart := by
    intro c hc hafter
    exact hafter .at (by simp) (accepts_mark_iff.1 hc)
  again := by
    intro c hc
    rw [accepts_mark_iff.1 hc]
    simp [afterAttribute, noneOf]
  last := noneOf_mono (by simp)

/-- Attributes read are, but for their spans, those derived. -/
def AttributesMean (b : Block) (d : Derivation) : Prop := b.mapSpans Span.forget = d.attributes

theorem decides_attributeList {i : Input} (hi : i.Valid) :
    Decides attributeList (.many (.symbol .attributeEntry)) AttributesMean afterAttributes i := by
  have hrun : Decides (do
      let properties ← many attributeEntry
      return ⟨properties, attributesSpan i.offset properties⟩) (.many (.symbol .attributeEntry))
      AttributesMean afterAttributes i := by
    refine (decides_many repeats_attributeEntry hi fun j hj _ => decides_attributeEntry hj).finish ?_
    intro ps d ws hps _
    refine ⟨_, rfl, ?_⟩
    rw [AttributesMean, Block.mapSpans, map_of_itemsMean hps]
    rfl
  exact hrun.congr rfl

/-! ### Columns -/

/-- The marks after the name of a type, as the text they add to it. -/
def SuffixMeans (text : String) (s : String × Nat) (d : Derivation) : Prop :=
  s.1 = d.whenPresent text

theorem decides_brackets (stop : Nat) {i : Input} (hi : i.Valid) :
    Decides (brackets stop) (.opt (.seq (Ebnf.mark .openBracket) (Ebnf.mark .closeBracket)))
      (SuffixMeans "[]") (noneOf [.openBracket]) i := by
  refine decides_optional_bind hi (category_eq_punct_iff .openBracket) ?_ ⟨_, rfl, rfl⟩ ?_
  · intro c hc
    rw [accepts_mark_iff]
    exact hc .openBracket (by simp)
  · intro opening j hread
    refine (decides_mark .closeBracket hread.valid _).finish ?_
    intro closing d ws _ _
    exact ⟨_, rfl, rfl⟩

theorem decides_questionMark (stop : Nat) {i : Input} (hi : i.Valid) :
    Decides (questionMark stop) (.opt (Ebnf.mark .question)) (SuffixMeans "?")
      (noneOf [.question]) i := by
  have hmark := decides_optional hi (category_eq_punct_iff .question)
  refine (hmark.restrict ?_).finish ?_
  · intro c hc
    rw [accepts_mark_iff]
    exact hc .question (by simp)
  · rintro found d ws (⟨rfl, rfl⟩ | ⟨t, rfl, rfl⟩) -
    · exact ⟨_, rfl, rfl⟩
    · exact ⟨_, rfl, rfl⟩

theorem opens_column : Opens (.symbol .column) fun c => Terminal.word.accepts c = true :=
  .symbol (Opens.token _).seq

theorem leads_attributeList :
    Leads (.many (.symbol .attributeEntry)) afterColumn (noneOf [.openBracket, .question]) := by
  refine Leads.many opens_attributeEntry ?_ ?_
  · intro c hc
    rw [accepts_mark_iff.1 hc]
    simp [noneOf]
  · exact noneOf_mono (by simp)

/-- A column: what follows its type is told apart mark by mark. -/
theorem decides_column {i : Input} (hi : i.Valid) :
    Decides column (.symbol .column) (PropertyMeans Derivation.column) afterColumn i := by
  refine .symbol ((decides_word _ hi anything).bind ?_ fun _ _ _ _ _ => trivial)
  intro key d₁ ws₁ j₁ hkey _ hread₁
  refine (decides_capital hread₁.valid anything).bind ?_ fun _ _ _ _ _ => trivial
  intro type d₂ ws₂ j₂ htype _ hread₂
  refine (decides_brackets _ hread₂.valid).bind ?_ ?_
  · intro multiple d₃ ws₃ j₃ hmultiple _ hread₃
    refine (decides_questionMark _ hread₃.valid).bind ?_ ?_
    · intro optional d₄ ws₄ j₄ hoptional _ hread₄
      refine ((decides_attributeList hread₄.valid).restrict ?_).finish ?_
      · exact noneOf_mono (by simp)
      · intro attributes d₅ ws₅ hattributes _
        refine ⟨_, rfl, ?_⟩
        have hname : type.name = d₂.content.spelling := congrArg Ident.name htype
        rw [PropertyMeans, columnProperty, Property.mapSpans, hkey, hname, hmultiple, hoptional]
        simp only [Data.mapSpans_object, List.map_cons, List.map_nil, Property.mapSpans,
          Data.mapSpans_literal, ← Block.toData_mapSpans]
        rw [hattributes]
        rfl
    · intro d ws rest hd hrest
      exact noneOf_mono (by simp) _ (leads_attributeList d ws rest hd hrest)
  · refine Leads.seq leads_attributeList (Leads.opt (Opens.token _) ?_ ?_)
    · intro c hc
      rw [accepts_mark_iff.1 hc]
      simp [noneOf]
    · exact noneOf_mono (by simp)

theorem repeats_column :
    Repeats (.symbol .column) (fun c => Terminal.word.accepts c = true) afterColumn
      (· = .punct .closeBrace) where
  opens := opens_column
  apart := by
    rintro _ hc rfl
    simp [Terminal.accepts] at hc
  again := by
    rintro c hc p - rfl
    simp [Terminal.accepts] at hc
  last := by
    rintro _ rfl
    simp [afterColumn, noneOf]

/-! ### Declarations -/

/-- A declaration read is, but for its spans, the one derived. -/
def DeclarationMeans (x : Declaration) (d : Derivation) : Prop :=
  x.mapSpans Span.forget = d.declaration

theorem decides_mergeMark {i : Input} (hi : i.Valid) :
    Decides mergeMark (.opt (Ebnf.mark .bang)) (fun mergeable d => mergeable = d.isAbsent)
      (fun c => ¬ (Terminal.mark .bang).accepts c = true) i := by
  refine (decides_optional hi (category_eq_punct_iff .bang)).finish ?_
  rintro found d ws (⟨rfl, rfl⟩ | ⟨t, rfl, rfl⟩) -
  · exact ⟨_, rfl, rfl⟩
  · exact ⟨_, rfl, rfl⟩

theorem decides_keyword (kind : Kind) {i : Input} (hi : i.Valid) (follow : Content → Prop) :
    Decides (keyword kind) (.token (.keyword (.declare kind)))
      (TokenMeans (.keyword (.declare kind))) follow i :=
  decides_expect hi (category_eq_keyword_iff _ _) follow

/-- The heading that enums, props, types and models share. -/
theorem decides_heading {kind : Kind} {body : Token → Ident → Bool → Parser Declaration} {e : Ebnf}
    {i : Input} (hi : i.Valid)
    (hbody : ∀ start id mergeable d₁ d₂ d₃ j, IdentMeans id d₂ → mergeable = d₃.isAbsent →
      Input.Valid j → Decides (body start id mergeable) e (fun x d => DeclarationMeans x
        (.symbol (.declaration kind) (.seq d₁ (.seq d₂ (.seq d₃ d))))) anything j)
    (hlead : Leads e anything fun c => ¬ (Terminal.mark .bang).accepts c = true) :
    Decides (do
        let start ← keyword kind
        let id ← capital
        let mergeable ← mergeMark
        body start id mergeable) (.heading kind e)
      (fun x d => DeclarationMeans x (.symbol (.declaration kind) d)) anything i := by
  refine (decides_keyword kind hi anything).bind ?_ fun _ _ _ _ _ => trivial
  intro start d₁ ws₁ j₁ _ _ hread₁
  refine (decides_capital hread₁.valid anything).bind ?_ fun _ _ _ _ _ => trivial
  intro id d₂ ws₂ j₂ hid _ hread₂
  refine (decides_mergeMark hread₂.valid).bind ?_ hlead
  intro mergeable d₃ ws₃ j₃ hmergeable _ hread₃
  exact hbody start id mergeable d₁ d₂ d₃ j₃ hid hmergeable hread₃.valid

theorem leads_not_bang {e : Ebnf} {p : Punct} (h : Opens e fun c => (Terminal.mark p).accepts c = true)
    (hp : p ≠ .bang) : Leads e anything fun c => ¬ (Terminal.mark .bang).accepts c = true := by
  refine (h.mono ?_).leads anything
  intro c hc
  rw [accepts_mark_iff.1 hc, accepts_mark_iff]
  simpa using hp

theorem decides_enumeration {i : Input} (hi : i.Valid) :
    Decides enumeration (.symbol (.declaration .enum)) DeclarationMeans anything i := by
  refine .symbol (decides_heading hi ?_ (leads_not_bang (Opens.token (.mark .openBrace)).seq (by simp)))
  intro start id mergeable d₁ d₂ d₃ j hid hmergeable hj
  have hentry : ∀ k : Input, k.Valid → k.tokens.length < j.tokens.length →
      Decides (property "an enum key" scalar) (.seq (.token .word) (.symbol .scalar))
        (PropertyMeans Derivation.property) anything k := by
    intro k hk _
    exact decides_property _ hk fun l hl _ => decides_scalar hl anything
  refine (decides_blockOf (repeats_entry _) hj hentry anything).finish ?_
  intro init d ws hinit _
  refine ⟨_, rfl, ?_⟩
  rw [DeclarationMeans, Declaration.mapSpans, hid, hmergeable, hinit, ← Derivation.block_properties]
  rfl

theorem decides_prop {i : Input} (hi : i.Valid) :
    Decides prop (.symbol (.declaration .prop)) DeclarationMeans anything i := by
  refine .symbol (decides_heading hi ?_ (leads_not_bang opens_object (by simp)))
  intro start id mergeable d₁ d₂ d₃ j hid hmergeable hj
  refine (decides_object hj anything).finish ?_
  intro init d ws hinit _
  refine ⟨_, rfl, ?_⟩
  rw [DeclarationMeans, Declaration.mapSpans, hid, hmergeable, hinit]
  rfl

theorem decides_plugin {i : Input} (hi : i.Valid) :
    Decides plugin (.symbol (.declaration .plugin)) DeclarationMeans anything i := by
  refine .symbol ((decides_keyword .plugin hi anything).bind ?_ fun _ _ _ _ _ => trivial)
  intro start d₁ ws₁ j₁ _ _ hread₁
  refine (decides_string hread₁.valid anything).bind ?_ fun _ _ _ _ _ => trivial
  intro path d₂ ws₂ j₂ hpath _ hread₂
  refine (decides_object hread₂.valid anything).finish ?_
  intro init d ws hinit _
  refine ⟨_, rfl, ?_⟩
  rw [DeclarationMeans, Declaration.mapSpans, Ident.mapSpan, hpath, hinit]
  rfl

/-- Types and models: the attributes end where the braces begin. -/
theorem decides_columned {kind : Kind} (hkind : kind.isColumned = true) {i : Input} (hi : i.Valid) :
    Decides (columned kind) (.columned kind)
      (fun x d => DeclarationMeans x (.symbol (.declaration kind) d)) anything i := by
  have hbrace : Opens (.braced (.symbol .column)) fun c => c = .punct .openBrace :=
    ((Opens.token (.mark .openBrace)).mono fun c hc => accepts_mark_iff.1 hc).seq
  refine decides_heading hi ?_ ?_
  · intro start id mergeable d₁ d₂ d₃ j hid hmergeable hj
    refine (decides_attributeList hj).bind ?_ ?_
    · intro attributes d₄ ws₄ k hattributes _ hread
      have hcolumn : ∀ l : Input, l.Valid → l.tokens.length < k.tokens.length →
          Decides column (.symbol .column) (PropertyMeans Derivation.column) afterColumn l :=
        fun l hl _ => decides_column hl
      refine (decides_blockOf repeats_column hread.valid hcolumn anything).finish ?_
      intro columns d₅ ws₅ hcolumns _
      refine ⟨_, rfl, ?_⟩
      have hmeans : (columnedBlock id attributes columns).mapSpans Span.forget =
          ⟨[(⟨"attributes", .nowhere⟩, d₄.attributes.toData),
            (⟨"columns", .nowhere⟩, d₅.columns.toData)], .nowhere⟩ := by
        rw [columnedBlock, Block.mapSpans]
        simp only [List.map_cons, List.map_nil, Property.mapSpans, ← Block.toData_mapSpans]
        rw [hattributes, hcolumns]
        rfl
      rw [DeclarationMeans, Declaration.mapSpans, hid, hmergeable, hmeans]
      cases kind with
      | type => rfl
      | model => rfl
      | _ => simp [Kind.isColumned] at hkind
    · refine (hbrace.mono ?_).leads anything
      rintro _ rfl
      simp [afterAttributes, noneOf]
  · refine Leads.seq (hbrace.leads anything) (Leads.many opens_attributeEntry ?_ ?_)
    · intro c hc
      rw [accepts_mark_iff.1 hc]
      simp [Terminal.accepts]
    · rintro _ rfl
      simp [Terminal.accepts]

/-- A declaration of any kind. -/
theorem decides_declaration (kind : Kind) {i : Input} (hi : i.Valid) :
    Decides (declaration kind) (.symbol (.declaration kind)) DeclarationMeans anything i := by
  cases kind with
  | enum => exact decides_enumeration hi
  | prop => exact decides_prop hi
  | type => exact .symbol (decides_columned rfl hi)
  | model => exact .symbol (decides_columned rfl hi)
  | plugin => exact decides_plugin hi

/-! ### Sources -/

theorem decides_use {i : Input} (hi : i.Valid) :
    Decides use (.symbol .use) (fun u d => u.mapSpans Span.forget = d.use) anything i := by
  refine .symbol ((decides_expect hi (category_eq_keyword_iff .use _) anything).bind ?_
    fun _ _ _ _ _ => trivial)
  intro start d₁ ws₁ j _ _ hread
  refine (decides_string hread.valid anything).finish ?_
  intro path d₂ ws₂ hpath _
  refine ⟨_, rfl, ?_⟩
  rw [Use.mapSpans, hpath]
  rfl

/-- A declaration of any kind, as the rule of sources has it. -/
def anyDeclaration : Ebnf :=
  .alt (.symbol (.declaration .enum))
    (.alt (.symbol (.declaration .prop))
    (.alt (.symbol (.declaration .type))
    (.alt (.symbol (.declaration .model))
      (.symbol (.declaration .plugin)))))

/-- A statement, as the rule of sources has it. -/
def statement : Ebnf := .alt (.symbol .use) anyDeclaration

theorem opens_use : Opens (.symbol .use) fun c => (Terminal.keyword .use).accepts c = true :=
  .symbol (Opens.token _).seq

theorem opens_declaration (kind : Kind) : Opens (.symbol (.declaration kind))
    fun c => (Terminal.keyword (.declare kind)).accepts c = true := by
  cases kind <;> exact .symbol (Opens.token _).seq

/-- No declaration begins with another token than the word of its kind. -/
theorem not_competes_declaration {kind : Kind} {i : Input}
    (h : i.next.content ≠ .keyword (.declare kind)) (d : Derivation) (ws : List Content) :
    ¬ Competes (.symbol (.declaration kind)) anything i.contents d ws := by
  refine (opens_declaration kind).not_competes ?_ d ws
  rw [← category_eq_keyword_iff]
  intro hcat
  cases hc : i.next.content <;> simp_all [Content.category]

theorem not_competes_anyDeclaration {i : Input}
    (h : ∀ kind, i.next.content ≠ .keyword (.declare kind)) (d : Derivation) (ws : List Content) :
    ¬ Competes anyDeclaration anything i.contents d ws :=
  not_competes_alt (not_competes_declaration (h _)) (not_competes_alt (not_competes_declaration (h _))
    (not_competes_alt (not_competes_declaration (h _)) (not_competes_alt
      (not_competes_declaration (h _)) (not_competes_declaration (h _))))) d ws

/-- The word that stands next picks one of the five alternatives. -/
theorem decides_anyDeclaration {kind : Kind} {i : Input} (hi : i.Valid)
    (hc : i.next.content = .keyword (.declare kind)) :
    Decides (declaration kind) anyDeclaration (fun x d => DeclarationMeans x d.chosen) anything i := by
  have hkind : Decides (declaration kind) (.symbol (.declaration kind))
      (fun x d => DeclarationMeans x d.chosen) anything i := by
    refine (decides_declaration kind hi).imp ?_
    intro x d ws hx hd
    cases hd with
    | symbol _ => exact hx
  have hother : ∀ other, other ≠ kind → ∀ d ws,
      ¬ Competes (.symbol (.declaration other)) anything i.contents d ws := by
    intro other hne
    refine not_competes_declaration ?_
    rw [hc]
    simpa using hne.symm
  cases kind with
  | enum =>
    exact .left hkind (not_competes_alt (hother .prop (by simp)) (not_competes_alt
      (hother .type (by simp)) (not_competes_alt (hother .model (by simp)) (hother .plugin (by simp)))))
  | prop =>
    exact .right (.left hkind (not_competes_alt (hother .type (by simp)) (not_competes_alt
      (hother .model (by simp)) (hother .plugin (by simp))))) (hother .enum (by simp))
  | type =>
    exact .right (.right (.left hkind (not_competes_alt (hother .model (by simp))
      (hother .plugin (by simp)))) (hother .prop (by simp))) (hother .enum (by simp))
  | model =>
    exact .right (.right (.right (.left hkind (hother .plugin (by simp)))
      (hother .type (by simp))) (hother .prop (by simp))) (hother .enum (by simp))
  | plugin =>
    exact .right (.right (.right (.right hkind (hother .model (by simp)))
      (hother .type (by simp))) (hother .prop (by simp))) (hother .enum (by simp))

/-- A statement read is, but for its spans, the one derived. -/
def NodeMeans (n : Node) (d : Derivation) : Prop := n.mapSpans Span.forget = d.node

/-- A statement: the next token tells which it is. -/
theorem decides_node {i : Input} (hi : i.Valid) :
    Decides node statement NodeMeans anything i := by
  have hfail : node i = (.error (.unexpected i.next), i.skip) →
      ¬ (Terminal.keyword .use).accepts i.next.content = true →
      (∀ kind, i.next.content ≠ .keyword (.declare kind)) →
      Decides node statement NodeMeans anything i := by
    intro hrun huse hdeclare
    exact .of_error hrun (not_competes_alt (opens_use.not_competes huse)
      (not_competes_anyDeclaration hdeclare))
  cases hc : i.next.content with
  | keyword k =>
    cases k with
    | use =>
      have hrun : node i = (do return .use (← use) : Parser Node) i := by
        simp only [node, hc]
      refine (Decides.left ?_ (not_competes_anyDeclaration (by simp [hc]))).congr hrun
      refine (decides_use hi).finish ?_
      intro u d ws hu _
      refine ⟨_, rfl, ?_⟩
      rw [NodeMeans, Node.mapSpans_use, hu, Derivation.node]
    | declare kind =>
      have hrun : node i = (do return .declaration (← declaration kind) : Parser Node) i := by
        simp only [node, hc]
      refine (Decides.right ?_ (opens_use.not_competes (by simp [hc, Terminal.accepts]))).congr hrun
      refine (decides_anyDeclaration hi hc).finish ?_
      intro x d ws hx _
      refine ⟨_, rfl, ?_⟩
      rw [NodeMeans, Node.mapSpans_declaration, hx]
      rfl
    | _ =>
      refine hfail (by simp only [node, hc]) ?_ ?_
      all_goals simp [hc, Terminal.accepts]
  | _ =>
    refine hfail (by simp only [node, hc]) ?_ ?_
    all_goals simp [hc, Terminal.accepts]

theorem repeats_statement :
    Repeats statement (fun c => decide (c.category ≠ .endOfInput) = true) anything
      (· = .endOfInput) where
  opens := by
    have hkeyword : ∀ (k : Keyword) (c : Content), (Terminal.keyword k).accepts c = true →
        decide (c.category ≠ .endOfInput) = true := by
      intro k c hc
      rw [(category_eq_keyword_iff k c).2 hc]
      rfl
    have hkind := fun kind => (opens_declaration kind).mono (hkeyword (.declare kind))
    refine ((opens_use.mono (hkeyword .use)).alt ((hkind .enum).alt ((hkind .prop).alt
      ((hkind .type).alt ((hkind .model).alt (hkind .plugin)))))).mono ?_
    intro c hc
    simpa using hc
  apart := by
    rintro _ hc rfl
    simp [Content.category] at hc
  again := fun _ _ => trivial
  last := fun _ _ => trivial

/-- Statements up to the end. -/
theorem decides_statements {i : Input} (hi : i.Valid) :
    Decides (whileNext (· ≠ .endOfInput) node) (.many statement) (ItemsMean NodeMeans)
      (· = .endOfInput) i :=
  decides_whileNext repeats_statement hi fun _ hj _ => decides_node hj

/-- Statements are read up to the end or not at all. -/
theorem contents_of_statements {i j : Input} {body : List Node} (hi : i.Valid) (hj : j.Valid)
    (h : whileNext (· ≠ .endOfInput) node i = (.ok body, j)) : j.contents = [] := by
  have hend : ¬ decide (j.next.category ≠ .endOfInput) = true := by
    refine not_accept_of_whileNext ?_ hi h
    intro k n l hk hrun
    obtain ⟨d, ws, hd, -, hread, -⟩ := (decides_node hk).accept hrun
    exact ⟨hread.valid, repeats_statement.left_lt hd hread⟩
  rcases ht : j.tokens with _ | ⟨t, ts⟩
  · rw [Input.contents, ht, List.map_nil]
  · have hnext : j.next = t := by rw [Input.next, ht]; rfl
    have hlaid : Token.Laid j.size j.offset (t :: ts) := by rw [← ht]; exact hj
    rw [hnext] at hend
    exact absurd (decide_eq_true hlaid.2.1.inside) hend

end Grammar

/-! ### From text to tree -/

theorem ofSource_valid (source : List Char) : (Input.ofSource source).Valid := by
  have hlaid := Token.laid_filter_stream (·.category.isCode) 0 source
  rw [Nat.zero_add] at hlaid
  exact hlaid

theorem contents_ofSource (source : List Char) :
    (Input.ofSource source).contents = sentence source := by
  have htokens : (lex source).takeWhile (·.category ≠ .endOfInput) = Token.stream 0 source := by
    rw [lex, lexFrom, List.takeWhile_append_of_pos]
    · simp [List.takeWhile]
    · intro t ht
      exact decide_eq_true (Token.proper_of_mem_stream ht).inside
  rw [sentence, htokens]
  rfl

/-- The statements of a source are read up to its last byte. -/
theorem next_start_of_statements {source : List Char} {body : List Node} {j : Input}
    (h : whileNext (· ≠ .endOfInput) Grammar.node (Input.ofSource source) = (.ok body, j)) :
    j.next.start = byteLength source := by
  have hvalid := ofSource_valid source
  obtain ⟨-, ws, -, -, hread, -⟩ := (Grammar.decides_statements hvalid).accept h
  have hnone : j.tokens = [] :=
    List.map_eq_nil_iff.mp (Grammar.contents_of_statements hvalid hread.valid h)
  rw [Input.next, hnone]
  exact hread.size

/-- Reading a source is reading its statements; the position reached behind them is the end. -/
theorem parseSchema_eq (source : List Char) :
    parseSchema source = match (whileNext (· ≠ .endOfInput) Grammar.node (Input.ofSource source)).1 with
      | .ok body => .ok ⟨body, ⟨0, byteLength source⟩⟩
      | .error err => .error err := by
  show ((whileNext (· ≠ .endOfInput) Grammar.node >>= fun body =>
    skip >>= fun _ => position >>= fun stop => pure ⟨body, ⟨0, stop⟩⟩ : Parser Schema)
      (Input.ofSource source)).1 = _
  rw [bind_apply]
  rcases hrun : whileNext (· ≠ .endOfInput) Grammar.node (Input.ofSource source) with ⟨err | body, j⟩
  · rfl
  · show Except.ok (Schema.mk body ⟨0, j.next.start⟩) = _
    rw [next_start_of_statements hrun]

/-- A derivation of a whole source competes for all of its tokens. -/
theorem exists_competes_of_derives {source : List Char} {d : Derivation}
    (h : Derives (.symbol .schema) d (sentence source)) :
    ∃ body, d = .symbol .schema body ∧ Competes (.many Grammar.statement) (· = .endOfInput)
      (Input.ofSource source).contents body (sentence source) := by
  cases h with
  | symbol hbody => exact ⟨_, rfl, hbody, [], by rw [contents_ofSource, List.append_nil], rfl⟩

/-- What is read is derived, in one way only. -/
theorem derives_of_parseSchema {source : List Char} {s : Schema} (h : parseSchema source = .ok s) :
    ∃ d, Derives (.symbol .schema) d (sentence source) ∧ s.mapSpans Span.forget = d.schema ∧
      ∀ d', Derives (.symbol .schema) d' (sentence source) → d' = d := by
  have hvalid := ofSource_valid source
  rw [parseSchema_eq] at h
  rcases hrun : whileNext (· ≠ .endOfInput) Grammar.node (Input.ofSource source) with ⟨err | body, j⟩
  · rw [hrun] at h
    cases h
  · rw [hrun] at h
    cases h
    obtain ⟨d, ws, hd, hitems, hread, huniq⟩ := (Grammar.decides_statements hvalid).accept hrun
    have hrest := Grammar.contents_of_statements hvalid hread.valid hrun
    have hws : ws = sentence source := by
      rw [← contents_ofSource, hread.contents, hrest, List.append_nil]
    subst hws
    refine ⟨.symbol .schema d, .symbol hd, ?_, ?_⟩
    · rw [Schema.mapSpans, map_of_itemsMean hitems, Derivation.schema]
      rfl
    · intro d' hd'
      obtain ⟨body', rfl, hcomp⟩ := exists_competes_of_derives hd'
      rw [(huniq _ _ hcomp).1]

/-- What is not read cannot be derived. -/
theorem not_derives_of_parseSchema {source : List Char} {err : SyntaxError}
    (h : parseSchema source = .error err) (d : Derivation) :
    ¬ Derives (.symbol .schema) d (sentence source) := by
  intro hd
  rw [parseSchema_eq] at h
  rcases hrun : whileNext (· ≠ .endOfInput) Grammar.node (Input.ofSource source) with ⟨err' | body, j⟩
  · obtain ⟨body, -, hcomp⟩ := exists_competes_of_derives hd
    exact (Grammar.decides_statements (ofSource_valid source)).reject hrun _ _ hcomp
  · rw [hrun] at h
    cases h

/-- **The grammar is exact.**  A source is read if and only if its sentence can be derived from
the rule of sources; it can be derived in one way at most; and the tree that is read is, but for
its spans, the tree of that derivation. -/
theorem parseSchema_exact (source : List Char) :
    ((∃ s, parseSchema source = .ok s) ↔ ∃ d, Derives (.symbol .schema) d (sentence source)) ∧
    (∀ d d', Derives (.symbol .schema) d (sentence source) →
      Derives (.symbol .schema) d' (sentence source) → d = d') ∧
    (∀ s d, parseSchema source = .ok s → Derives (.symbol .schema) d (sentence source) →
      s.mapSpans Span.forget = d.schema) := by
  rcases hrun : parseSchema source with err | s
  · have hnone := not_derives_of_parseSchema hrun
    refine ⟨⟨?_, ?_⟩, ?_, ?_⟩
    · rintro ⟨s, hs⟩
      cases hs
    · rintro ⟨d, hd⟩
      exact absurd hd (hnone d)
    · intro d _ hd
      exact absurd hd (hnone d)
    · intro s d hs
      cases hs
  · obtain ⟨d, hd, htree, huniq⟩ := derives_of_parseSchema hrun
    refine ⟨⟨fun _ => ⟨d, hd⟩, fun _ => ⟨s, rfl⟩⟩, ?_, ?_⟩
    · intro d₁ d₂ h₁ h₂
      rw [huniq d₁ h₁, huniq d₂ h₂]
    · intro s' d' hs' hd'
      cases hs'
      rw [huniq d' hd', htree]

end SchemaLang
