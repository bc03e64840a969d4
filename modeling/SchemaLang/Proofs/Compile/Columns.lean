import SchemaLang.Proofs.Compile.Failure
import SchemaLang.Proofs.Compile.Shape
import SchemaLang.Proofs.Grammar.Slice

/-!
# Columns and attributes as they were written

A column is written as a word, the name of its type, brackets, a question mark and attributes.
The reader keeps the type and the marks behind it as one text, and the attributes as properties
of an object; compiling takes the marks off again and looks the properties up.  Nothing is lost
on the way: no name of a type ends in a mark, and the properties are found under the names they
were kept under, whatever the columns and the attributes themselves are called.

What was written is described by its tokens alone, so that neither the reader nor the tree takes
part in it.

## Main definitions

* `Written.Argument`, `Written.AttributeEntry`, `Written.Column`, `Written.Table` — rows of tokens
  of the form that the grammar asks for.
* `Written.AttributeEntry.Compiles`, `Written.Column.Compiles` — what they compile to.

## Main results

* `Written.exists_attributeEntry`, `Written.exists_column`, `Written.exists_table` — tokens with a
  derivation are of that form, and are read as it says.
* `Written.Column.exists_compiled` — compiling undoes what reading does to a column.
* `columns_as_written` — **types and models compile to what was written.**
-/

namespace SchemaLang

/-! ### Rows of tokens -/

namespace Written

/-- An argument: tokens that are data. -/
structure Argument where
  /-- The tokens. -/
  tokens : List Token
  /-- How they are data. -/
  derivation : Derivation
  /-- They are data in that way. -/
  derives : Derives (.symbol .data) derivation (tokens.map (·.content))

/-- An attribute: `@`, words with dots between them, and perhaps arguments in parentheses. -/
structure AttributeEntry where
  /-- The mark that starts it. -/
  mark : Token
  /-- The first word of its name. -/
  first : Token
  /-- The further words, each behind its dot. -/
  further : List (Token × Token)
  /-- The arguments between their marks, if there are these marks. -/
  arguments : Option (Token × List Argument × Token)
  mark_category : mark.category = .punct .at
  first_category : first.category.isWord = true
  further_category : ∀ w ∈ further, w.1.category = .punct .dot ∧ w.2.category.isWord = true
  arguments_category : ∀ a ∈ arguments, a.1.category = .punct .openParen ∧
    a.2.2.category = .punct .closeParen

/-- A column: a word, the name of its type, perhaps brackets, perhaps a question mark, and
attributes. -/
structure Column where
  /-- The word that names it. -/
  key : Token
  /-- The name of its type. -/
  type : Token
  /-- The brackets of a column of many values. -/
  brackets : Option (Token × Token)
  /-- The mark of an optional column. -/
  question : Option Token
  /-- The attributes. -/
  attributes : List AttributeEntry
  key_category : key.category.isWord = true
  type_category : type.category = .capital
  brackets_category : ∀ b ∈ brackets, b.1.category = .punct .openBracket ∧
    b.2.category = .punct .closeBracket
  question_category : ∀ q ∈ question, q.category = .punct .question

/-- A type or a model. -/
structure Table where
  /-- What is declared. -/
  kind : Kind
  /-- The word that starts it. -/
  keyword : Token
  /-- The declared name. -/
  name : Token
  /-- The mark of a declaration that does not merge. -/
  bang : Option Token
  /-- Its own attributes. -/
  attributes : List AttributeEntry
  /-- The brace before the columns. -/
  opening : Token
  /-- The columns. -/
  columns : List Column
  /-- The brace behind the columns. -/
  closing : Token
  kind_isColumned : kind.isColumned = true
  keyword_category : keyword.category = .keyword (.declare kind)
  name_category : name.category = .capital
  bang_category : ∀ b ∈ bang, b.category = .punct .bang
  opening_category : opening.category = .punct .openBrace
  closing_category : closing.category = .punct .closeBrace

namespace AttributeEntry

/-- The tokens of the arguments, with the marks around them. -/
def argumentTokens (a : AttributeEntry) : List Token :=
  match a.arguments with
  | none => []
  | some (opening, arguments, closing) =>
    opening :: (arguments.flatMap Argument.tokens ++ [closing])

/-- The tokens in order. -/
def tokens (a : AttributeEntry) : List Token :=
  a.mark :: a.first :: (a.further.flatMap (fun w => [w.1, w.2]) ++ a.argumentTokens)

/-- The name: its words with dots between them. -/
def name (a : AttributeEntry) : String :=
  String.intercalate "." (a.first.text :: a.further.map (·.2.text))

/-- What an attribute compiles to: `true` without arguments, else the array of what these compile
to. -/
def Compiles (ctx : Context) (a : AttributeEntry) (v : Value) : Prop :=
  match a.arguments with
  | none => v = .bool true
  | some (_, arguments, _) =>
    ∃ vs, v = .arr vs ∧
      List.Forall₂ (fun x w => ctx.data x.derivation.data = .ok w) arguments vs

end AttributeEntry

namespace Column

/-- The tokens in order. -/
def tokens (c : Column) : List Token :=
  c.key :: c.type :: (c.brackets.elim [] (fun b => [b.1, b.2]) ++
    (c.question.toList ++ c.attributes.flatMap AttributeEntry.tokens))

end Column

/-- The members that attributes compile to: one for each of them, in their order. -/
def CompileTo (ctx : Context) (attributes : List AttributeEntry) (ms : Entries Value) : Prop :=
  List.Forall₂ (fun a m => m.1 = a.name ∧ a.Compiles ctx m.2) attributes ms

/-- What a column compiles to. -/
structure Column.Compiles (ctx : Context) (c : Column) (compiled : SchemaLang.Column) : Prop where
  /-- Its name is the text of its word. -/
  name : compiled.name = c.key.text
  /-- Its type is the name of the type and nothing else. -/
  type : compiled.type = c.type.text
  /-- It has many values exactly if there are brackets. -/
  multiple : compiled.multiple = c.brackets.isSome
  /-- It is required exactly if there is no question mark. -/
  required : compiled.required = c.question.isNone
  /-- Its attributes are those written. -/
  attributes : CompileTo ctx c.attributes compiled.attributes

namespace Table

/-- The tokens in order. -/
def tokens (t : Table) : List Token :=
  t.keyword :: t.name :: (t.bang.toList ++ (t.attributes.flatMap AttributeEntry.tokens ++
    (t.opening :: (t.columns.flatMap Column.tokens ++ [t.closing]))))

end Table

/-! ### Tokens with a derivation -/

theorem exists_token {t : Terminal} {d : Derivation} {ts : List Token}
    (h : Derives (.token t) d (ts.map (·.content))) :
    ∃ token, ts = [token] ∧ d = .token token.content ∧ t.accepts token.content = true := by
  generalize hws : ts.map (·.content) = ws at h
  cases h with
  | token haccept =>
    obtain ⟨token, rfl, rfl⟩ := List.map_eq_singleton_iff.mp hws
    exact ⟨token, rfl, rfl, haccept⟩

theorem exists_mark {p : Punct} {d : Derivation} {ts : List Token}
    (h : Derives (Ebnf.mark p) d (ts.map (·.content))) :
    ∃ token, ts = [token] ∧ d = .token token.content ∧ token.category = .punct p := by
  obtain ⟨token, hts, hd, haccept⟩ := exists_token h
  exact ⟨token, hts, hd, (category_eq_punct_iff p _).mpr haccept⟩

theorem exists_seq {a b : Ebnf} {d : Derivation} {ts : List Token}
    (h : Derives (.seq a b) d (ts.map (·.content))) :
    ∃ d₁ d₂ ts₁ ts₂, d = .seq d₁ d₂ ∧ ts = ts₁ ++ ts₂ ∧ Derives a d₁ (ts₁.map (·.content)) ∧
      Derives b d₂ (ts₂.map (·.content)) := by
  generalize hws : ts.map (·.content) = ws at h
  cases h with
  | seq first second =>
    obtain ⟨ts₁, ts₂, rfl, rfl, rfl⟩ := List.map_eq_append_iff.mp hws
    exact ⟨_, _, ts₁, ts₂, rfl, rfl, first, second⟩

/-- A part that repeats: what is found for one of them is found for each. -/
theorem exists_many {α : Type} {e : Ebnf} {tokens : α → List Token} {means : Derivation → α → Prop}
    {good : Token → Prop}
    (hitem : ∀ d ts, (∀ t ∈ ts, good t) → Derives e d (ts.map (·.content)) →
      ∃ x, tokens x = ts ∧ means d x) {d : Derivation} {ts : List Token} (hts : ∀ t ∈ ts, good t)
    (h : Derives (.many e) d (ts.map (·.content))) :
    ∃ xs : List α, xs.flatMap tokens = ts ∧ List.Forall₂ means d.items xs := by
  generalize hws : ts.map (·.content) = ws at h
  generalize hmany : Ebnf.many e = e' at h
  induction h generalizing ts with
  | stop => exact ⟨[], (List.map_eq_nil_iff.mp hws).symm, .nil⟩
  | more part _ _ ih =>
    cases hmany
    obtain ⟨ts₁, ts₂, rfl, rfl, rfl⟩ := List.map_eq_append_iff.mp hws
    rw [List.forall_mem_append] at hts
    obtain ⟨x, hx, hmeans⟩ := hitem _ ts₁ hts.1 part
    obtain ⟨xs, hxs, hrest⟩ := ih hts.2 rfl rfl
    exact ⟨x :: xs, by rw [List.flatMap_cons, hx, hxs], .cons hmeans hrest⟩
  | _ => cases hmany

theorem exists_opt {e : Ebnf} {d : Derivation} {ts : List Token}
    (h : Derives (.opt e) d (ts.map (·.content))) :
    (ts = [] ∧ d = .absent) ∨ ∃ d', d = .present d' ∧ Derives e d' (ts.map (·.content)) := by
  generalize hws : ts.map (·.content) = ws at h
  cases h with
  | absent => exact .inl ⟨List.map_eq_nil_iff.mp hws, rfl⟩
  | present part => exact .inr ⟨_, rfl, part⟩

/-- Parts that mean the same one by one mean the same in a row. -/
theorem map_eq_map_of_forall₂ {α β γ : Type} {f : α → γ} {g : β → γ} {as : List α} {bs : List β}
    (h : List.Forall₂ (fun a b => f a = g b) as bs) : as.map f = bs.map g := by
  rw [← List.forall₂_eq_eq_eq, List.forall₂_map_left_iff, List.forall₂_map_right_iff]
  exact h

/-- A part repeated between two marks. -/
theorem exists_enclosed {α : Type} {e : Ebnf} {opening closing : Punct} {tokens : α → List Token}
    {means : Derivation → α → Prop} {good : Token → Prop}
    (hitem : ∀ d ts, (∀ t ∈ ts, good t) → Derives e d (ts.map (·.content)) →
      ∃ x, tokens x = ts ∧ means d x) {d : Derivation} {ts : List Token} (hts : ∀ t ∈ ts, good t)
    (h : Derives (.enclosed opening e closing) d (ts.map (·.content))) :
    ∃ front back xs d₁ d₂ d₃, d = .seq d₁ (.seq d₂ d₃) ∧
      ts = front :: (xs.flatMap tokens ++ [back]) ∧ front.category = .punct opening ∧
      back.category = .punct closing ∧ List.Forall₂ means d₂.items xs := by
  obtain ⟨d₁, _, ts₁, _, rfl, rfl, hfront, h⟩ := exists_seq h
  obtain ⟨d₂, d₃, ts₂, ts₃, rfl, rfl, hmany, hback⟩ := exists_seq h
  obtain ⟨front, rfl, -, hfront⟩ := exists_mark hfront
  obtain ⟨back, rfl, -, hback⟩ := exists_mark hback
  have hts₂ : ∀ t ∈ ts₂, good t := by
    intro t ht
    exact hts t (List.mem_append_right _ (List.mem_append_left _ ht))
  obtain ⟨xs, rfl, hxs⟩ := exists_many hitem hts₂ hmany
  exact ⟨front, back, xs, d₁, d₂, d₃, rfl, rfl, hfront, hback, hxs⟩

end Written

/-- The token is one of a text. -/
def Token.Scanned (t : Token) : Prop := ∃ start cs, t ∈ Token.stream start cs

namespace Written

/-- A word is spelled as it is written. -/
theorem exists_word {d : Derivation} {ts : List Token} (hts : ∀ t ∈ ts, t.Scanned)
    (h : Derives (.token .word) d (ts.map (·.content))) :
    ∃ token, ts = [token] ∧ d = .token token.content ∧ token.category.isWord = true ∧
      d.content.spelling = token.text := by
  obtain ⟨token, rfl, rfl, haccept⟩ := exists_token h
  have hword : token.category.isWord = true := (isWord_category token.content).trans haccept
  obtain ⟨start, cs, hmem⟩ := hts token (List.mem_singleton_self token)
  exact ⟨token, rfl, rfl, hword, ((Token.proper_of_mem_stream hmem).spelled hword).symm⟩

/-- So is a name with a capital letter. -/
theorem exists_capital {d : Derivation} {ts : List Token} (hts : ∀ t ∈ ts, t.Scanned)
    (h : Derives (.token .capital) d (ts.map (·.content))) :
    ∃ token, ts = [token] ∧ d = .token token.content ∧ token.category = .capital ∧
      d.content.spelling = token.text := by
  obtain ⟨token, rfl, rfl, haccept⟩ := exists_token h
  have hcapital : token.category = .capital := (category_eq_capital_iff token.content).mpr haccept
  obtain ⟨start, cs, hmem⟩ := hts token (List.mem_singleton_self token)
  refine ⟨token, rfl, rfl, hcapital, ((Token.proper_of_mem_stream hmem).spelled ?_).symm⟩
  rw [hcapital]
  rfl

/-! ### Attributes -/

namespace AttributeEntry

/-- What the value of an attribute is kept as, but for its spans. -/
def data (a : AttributeEntry) : Data :=
  match a.arguments with
  | none => .literal (.boolean true) .nowhere
  | some (_, arguments, _) => .array (arguments.map (·.derivation.data)) .nowhere

/-- The property that an attribute is kept as, but for its spans. -/
def property (a : AttributeEntry) : Property := (⟨a.name, .nowhere⟩, a.data)

end AttributeEntry

/-- The further words of a name. -/
theorem exists_furtherWords {d : Derivation} {ts : List Token} (hts : ∀ t ∈ ts, t.Scanned)
    (h : Derives (.many (.seq (Ebnf.mark .dot) (.token .word))) d (ts.map (·.content))) :
    ∃ further : List (Token × Token), further.flatMap (fun w => [w.1, w.2]) = ts ∧
      (∀ w ∈ further, w.1.category = .punct .dot ∧ w.2.category.isWord = true) ∧
      d.items.map (·.second.content.spelling) = further.map (·.2.text) := by
  have hword : ∀ (d : Derivation) (ts : List Token), (∀ t ∈ ts, t.Scanned) →
      Derives (.seq (Ebnf.mark .dot) (.token .word)) d (ts.map (·.content)) →
      ∃ w : Token × Token, [w.1, w.2] = ts ∧
        (w.1.category = .punct .dot ∧ w.2.category.isWord = true) ∧
        d.second.content.spelling = w.2.text := by
    intro d ts hts h
    obtain ⟨d₁, d₂, ts₁, ts₂, rfl, rfl, hdot, hword⟩ := exists_seq h
    rw [List.forall_mem_append] at hts
    obtain ⟨dot, rfl, -, hdot⟩ := exists_mark hdot
    obtain ⟨word, rfl, -, hword, htext⟩ := exists_word hts.2 hword
    exact ⟨(dot, word), rfl, ⟨hdot, hword⟩, htext⟩
  obtain ⟨further, hflat, hall⟩ := exists_many hword hts h
  refine ⟨further, hflat, ?_, ?_⟩
  · intro w hw
    obtain ⟨d', -, hform, -⟩ := Context.exists_of_forall₂ hall hw
    exact hform
  · exact map_eq_map_of_forall₂ (hall.imp fun _ _ hw => hw.2)

/-- The tokens of an attribute. -/
theorem exists_attributeEntry {d : Derivation} {ts : List Token} (hts : ∀ t ∈ ts, t.Scanned)
    (h : Derives (.symbol .attributeEntry) d (ts.map (·.content))) :
    ∃ a : AttributeEntry, a.tokens = ts ∧ d.attributeEntry = a.property := by
  cases h with
  | symbol h =>
    obtain ⟨d₁, _, ts₁, _, rfl, rfl, hmark, h⟩ := exists_seq h
    obtain ⟨d₂, _, ts₂, _, rfl, rfl, hfirst, h⟩ := exists_seq h
    obtain ⟨d₃, d₄, ts₃, ts₄, rfl, rfl, hfurther, hopt⟩ := exists_seq h
    simp only [List.forall_mem_append] at hts
    obtain ⟨-, hts₂, hts₃, hts₄⟩ := hts
    obtain ⟨mark, rfl, -, hmark⟩ := exists_mark hmark
    obtain ⟨first, rfl, -, hfirst, htext⟩ := exists_word hts₂ hfirst
    obtain ⟨further, rfl, hfurther, htexts⟩ := exists_furtherWords hts₃ hfurther
    rcases exists_opt hopt with ⟨rfl, rfl⟩ | ⟨d', rfl, harguments⟩
    · refine ⟨⟨mark, first, further, none, hmark, hfirst, hfurther, by simp⟩, rfl, ?_⟩
      rw [Derivation.attributeEntry, htext, htexts]
      rfl
    · have hargument : ∀ (d : Derivation) (ts : List Token), (∀ t ∈ ts, t.Scanned) →
          Derives (.symbol .data) d (ts.map (·.content)) →
          ∃ x : Argument, x.tokens = ts ∧ x.derivation = d :=
        fun d ts _ h => ⟨⟨ts, d, h⟩, rfl, rfl⟩
      obtain ⟨opening, closing, args, d₅, d₆, d₇, rfl, rfl, hopening, hclosing, hargs⟩ :=
        exists_enclosed hargument hts₄ harguments
      refine ⟨⟨mark, first, further, some (opening, args, closing), hmark, hfirst, hfurther, ?_⟩,
        rfl, ?_⟩
      · simpa using ⟨hopening, hclosing⟩
      · have hdata : d₆.elements = args.map (·.derivation.data) := by
          rw [Derivation.elements_eq_map]
          exact map_eq_map_of_forall₂ (hargs.imp fun _ _ h => congrArg Derivation.data h.symm)
        rw [Derivation.attributeEntry, htext, htexts, Derivation.arguments, hdata]
        rfl

/-- The tokens of attributes in a row. -/
theorem exists_attributes {d : Derivation} {ts : List Token} (hts : ∀ t ∈ ts, t.Scanned)
    (h : Derives (.many (.symbol .attributeEntry)) d (ts.map (·.content))) :
    ∃ as : List AttributeEntry, as.flatMap AttributeEntry.tokens = ts ∧
      d.attributes = ⟨as.map AttributeEntry.property, .nowhere⟩ := by
  obtain ⟨as, hflat, hall⟩ := exists_many (fun d ts hts h => exists_attributeEntry hts h) hts h
  refine ⟨as, hflat, ?_⟩
  rw [Derivation.attributes, map_eq_map_of_forall₂ hall]

/-! ### Columns and tables -/

/-- The text of a mark that may be missing. -/
def markText (text : String) (present : Bool) : String := if present then text else ""

/-- A mark that may be missing. -/
theorem exists_optMark {p : Punct} {d : Derivation} {ts : List Token}
    (h : Derives (.opt (Ebnf.mark p)) d (ts.map (·.content))) :
    ∃ found : Option Token, found.toList = ts ∧ (∀ t ∈ found, t.category = .punct p) ∧
      d.isAbsent = found.isNone ∧ ∀ text, d.whenPresent text = markText text found.isSome := by
  rcases exists_opt h with ⟨rfl, rfl⟩ | ⟨d', rfl, hmark⟩
  · exact ⟨none, rfl, by simp, rfl, fun _ => rfl⟩
  · obtain ⟨mark, rfl, -, hmark⟩ := exists_mark hmark
    exact ⟨some mark, rfl, by simpa using hmark, rfl, fun _ => rfl⟩

/-- The brackets of a column of many values, which may be missing. -/
theorem exists_brackets {d : Derivation} {ts : List Token}
    (h : Derives (.opt (.seq (Ebnf.mark .openBracket) (Ebnf.mark .closeBracket))) d
      (ts.map (·.content))) :
    ∃ found : Option (Token × Token), found.elim [] (fun b => [b.1, b.2]) = ts ∧
      (∀ b ∈ found, b.1.category = .punct .openBracket ∧ b.2.category = .punct .closeBracket) ∧
      ∀ text, d.whenPresent text = markText text found.isSome := by
  rcases exists_opt h with ⟨rfl, rfl⟩ | ⟨d', rfl, hboth⟩
  · exact ⟨none, rfl, by simp, fun _ => rfl⟩
  · obtain ⟨d₁, d₂, ts₁, ts₂, rfl, rfl, hopening, hclosing⟩ := exists_seq hboth
    obtain ⟨opening, rfl, -, hopening⟩ := exists_mark hopening
    obtain ⟨closing, rfl, -, hclosing⟩ := exists_mark hclosing
    exact ⟨some (opening, closing), rfl, by simpa using ⟨hopening, hclosing⟩, fun _ => rfl⟩

namespace Column

/-- The type as it is kept: with the marks behind it. -/
def declared (c : Column) : String :=
  c.type.text ++ markText "[]" c.brackets.isSome ++ markText "?" c.question.isSome

/-- The property that a column is kept as, but for its spans. -/
def property (c : Column) : Property :=
  (⟨c.key.text, .nowhere⟩, .object
    [(⟨"type", .nowhere⟩, .literal (.string c.declared) .nowhere),
     (⟨"attributes", .nowhere⟩,
      .object (c.attributes.map AttributeEntry.property) .nowhere)] .nowhere)

end Column

/-- The tokens of a column. -/
theorem exists_column {d : Derivation} {ts : List Token} (hts : ∀ t ∈ ts, t.Scanned)
    (h : Derives (.symbol .column) d (ts.map (·.content))) :
    ∃ c : Column, c.tokens = ts ∧ d.column = c.property := by
  cases h with
  | symbol h =>
    obtain ⟨d₁, _, ts₁, _, rfl, rfl, hkey, h⟩ := exists_seq h
    obtain ⟨d₂, _, ts₂, _, rfl, rfl, htype, h⟩ := exists_seq h
    obtain ⟨d₃, _, ts₃, _, rfl, rfl, hbrackets, h⟩ := exists_seq h
    obtain ⟨d₄, d₅, ts₄, ts₅, rfl, rfl, hquestion, hmany⟩ := exists_seq h
    simp only [List.forall_mem_append] at hts
    obtain ⟨hts₁, hts₂, -, -, hts₅⟩ := hts
    obtain ⟨key, rfl, rfl, hkey, hname⟩ := exists_word hts₁ hkey
    obtain ⟨type, rfl, -, htype, htext⟩ := exists_capital hts₂ htype
    obtain ⟨brackets, rfl, hbrackets, hmultiple⟩ := exists_brackets hbrackets
    obtain ⟨question, rfl, hquestion, -, hoptional⟩ := exists_optMark hquestion
    obtain ⟨attributes, rfl, hattributes⟩ := exists_attributes hts₅ hmany
    refine ⟨⟨key, type, brackets, question, attributes, hkey, htype, hbrackets, hquestion⟩, rfl, ?_⟩
    rw [Derivation.column, htext, hmultiple, hoptional, hattributes, Derivation.name, hname]
    rfl

namespace Table

/-- The declaration that a type or a model is kept as, but for its spans. -/
def declaration (t : Table) : Declaration where
  kind := t.kind
  mergeable := t.bang.isNone
  id := ⟨t.name.text, .nowhere⟩
  init := ⟨[(⟨"attributes", .nowhere⟩,
      .object (t.attributes.map AttributeEntry.property) .nowhere),
    (⟨"columns", .nowhere⟩, .object (t.columns.map Column.property) .nowhere)], .nowhere⟩
  span := .nowhere

end Table

/-- The tokens of a type or a model. -/
theorem exists_table {kind : Kind} (hkind : kind.isColumned = true) {d : Derivation}
    {ts : List Token} (hts : ∀ t ∈ ts, t.Scanned)
    (h : Derives (.symbol (.declaration kind)) d (ts.map (·.content))) :
    ∃ t : Table, t.kind = kind ∧ t.tokens = ts ∧ d.declaration = t.declaration := by
  have hrule : Symbol.rule (.declaration kind) = .columned kind := by
    cases kind with
    | type => rfl
    | model => rfl
    | _ => cases hkind
  cases h with
  | symbol h =>
    rw [hrule] at h
    obtain ⟨d₁, _, ts₁, _, rfl, rfl, hkeyword, h⟩ := exists_seq h
    obtain ⟨d₂, _, ts₂, _, rfl, rfl, hname, h⟩ := exists_seq h
    obtain ⟨d₃, _, ts₃, _, rfl, rfl, hbang, h⟩ := exists_seq h
    obtain ⟨d₄, d₅, ts₄, ts₅, rfl, rfl, hmany, hbraced⟩ := exists_seq h
    simp only [List.forall_mem_append] at hts
    obtain ⟨-, hts₂, -, hts₄, hts₅⟩ := hts
    obtain ⟨keyword, rfl, -, hkeyword⟩ := exists_token hkeyword
    obtain ⟨name, rfl, -, hname, htext⟩ := exists_capital hts₂ hname
    obtain ⟨bang, rfl, hbang, hmergeable, -⟩ := exists_optMark hbang
    obtain ⟨attributes, rfl, hattributes⟩ := exists_attributes hts₄ hmany
    obtain ⟨opening, closing, columns, d₆, d₇, d₈, rfl, rfl, hopening, hclosing, hcolumns⟩ :=
      exists_enclosed (fun d ts hts h => exists_column hts h) hts₅ hbraced
    have hproperties : d₇.items.map Derivation.column = columns.map Column.property :=
      map_eq_map_of_forall₂ hcolumns
    refine ⟨⟨kind, keyword, name, bang, attributes, opening, columns, closing, hkind,
      (category_eq_keyword_iff _ _).mpr hkeyword, hname, hbang, hopening, hclosing⟩, rfl, rfl, ?_⟩
    cases kind with
    | type | model =>
      rw [Derivation.declaration, Derivation.declarationOf, hmergeable, hattributes,
        Derivation.name, htext, Derivation.columns, Derivation.block, hproperties]
      · rfl
      all_goals simp
    | _ => cases hkind

/-! ### Compiling what was written -/

variable {ctx : Context}

/-- Each argument is compiled by itself. -/
theorem forall₂_of_elements {ds : List Data} {vs : List Value} (h : ctx.elements ds = .ok vs) :
    List.Forall₂ (fun d v => ctx.data d = .ok v) ds vs := by
  induction ds generalizing vs with
  | nil =>
    cases h
    exact .nil
  | cons d ds ih =>
    obtain ⟨v, vs', hv, hvs', rfl⟩ := Context.elements_cons_eq_ok h
    exact .cons hv (ih hvs')

/-- Each property is compiled by itself, under its own name. -/
theorem forall₂_of_properties {seen : List String} {ps : List Property} {ms : Entries Value}
    (h : ctx.properties seen ps = .ok ms) :
    List.Forall₂ (fun p m => m.1 = p.1.name ∧ ctx.data p.2 = .ok m.2) ps ms := by
  induction ps generalizing seen ms with
  | nil =>
    cases h
    exact .nil
  | cons p ps ih =>
    obtain ⟨v, ms', hv, hms', rfl⟩ := Context.properties_cons_eq_ok h
    exact .cons ⟨rfl, hv⟩ (ih hms')

theorem AttributeEntry.compiles_data {a : AttributeEntry} {v : Value}
    (h : ctx.data a.data = .ok v) : a.Compiles ctx v := by
  obtain ⟨mark, first, further, arguments, h₁, h₂, h₃, h₄⟩ := a
  cases arguments with
  | none =>
    cases h
    rfl
  | some arguments =>
    obtain ⟨vs, hvs, rfl⟩ := Context.data_array_eq_ok h
    have hall := forall₂_of_elements hvs
    rw [List.forall₂_map_left_iff] at hall
    exact ⟨vs, rfl, hall⟩

theorem compileTo_of_attributes {owner : Ident} {as : List AttributeEntry} {span : Span} {v : Value}
    (h : ctx.attributes owner (some (.object (as.map AttributeEntry.property) span)) = .ok v) :
    ∃ ms, v = .obj ms ∧ CompileTo ctx as ms := by
  obtain ⟨ms, hms, rfl⟩ := Except.map_eq_ok_iff.mp h
  have hall := forall₂_of_properties hms
  rw [List.forall₂_map_left_iff] at hall
  exact ⟨ms, rfl, hall.imp fun a m hm => ⟨hm.1, AttributeEntry.compiles_data hm.2⟩⟩

end Written

/-! ### Taking the marks off a type -/

namespace Context

theorem stripEnding_append (ending cs : List Char) :
    stripEnding ending (cs ++ ending) = (cs, true) := by
  rw [stripEnding, if_pos (by simp)]
  simp

theorem stripEnding_of_not_mem {ending cs : List Char} {c : Char} (hc : c ∈ ending) (hcs : c ∉ cs) :
    stripEnding ending cs = (cs, false) := by
  have hnot : ¬ ending.isSuffixOf cs = true := by
    intro h
    exact hcs ((List.isSuffixOf_iff_suffix.mp h).subset hc)
  rw [stripEnding, if_neg hnot]

/-- A text of name characters holds no mark of a type. -/
theorem mark_not_mem {cs : List Char} (h : ∀ c ∈ cs, isNamePart c = true) :
    '?' ∉ cs ∧ ']' ∉ cs := by
  constructor
  · intro hmem
    exact absurd (h _ hmem) (by decide)
  · intro hmem
    exact absurd (h _ hmem) (by decide)

/-- The marks behind the name of a type are told from the name. -/
theorem columnValue_declared {type : String} (htype : ∀ c ∈ type.toList, isNamePart c = true)
    (name : String) (multiple optional : Bool) (attributes : Value) :
    columnValue name
        (type ++ Written.markText "[]" multiple ++ Written.markText "?" optional) attributes =
      .obj [("type", .str type), ("name", .str name), ("required", .bool !optional),
        ("multiple", .bool multiple), ("attributes", attributes)] := by
  obtain ⟨hquestion, hbracket⟩ := mark_not_mem htype
  have hbrackets : stripEnding ['[', ']'] (type ++ Written.markText "[]" multiple).toList =
      (type.toList, multiple) := by
    cases multiple with
    | true =>
      rw [String.toList_append]
      exact stripEnding_append ['[', ']'] type.toList
    | false =>
      rw [String.toList_append]
      simpa [Written.markText] using
        stripEnding_of_not_mem (show ']' ∈ ['[', ']'] by simp) hbracket
  have hmark : stripEnding ['?']
        (type ++ Written.markText "[]" multiple ++ Written.markText "?" optional).toList =
      ((type ++ Written.markText "[]" multiple).toList, optional) := by
    cases optional with
    | true =>
      rw [String.toList_append]
      exact stripEnding_append ['?'] _
    | false =>
      have hnone : '?' ∉ (type ++ Written.markText "[]" multiple).toList := by
        cases multiple <;> simp [Written.markText, hquestion]
      rw [String.toList_append]
      simpa [Written.markText] using stripEnding_of_not_mem (show '?' ∈ ['?'] by simp) hnone
  rw [columnValue, hmark, hbrackets, String.ofList_toList]

end Context

/-- A name is made of name characters. -/
theorem Scans.isNamePart_of_mem {lexeme rest : List Char} {content : Content}
    (h : Scans lexeme content rest) (hcapital : content.category = .capital) :
    ∀ c ∈ lexeme, isNamePart c = true := by
  cases h with
  | @word c cs rest start run _ =>
    refine List.forall_mem_cons.mpr ⟨?_, run⟩
    rw [isNameStart, Bool.or_eq_true] at start
    rw [isNamePart, Char.isAlphanum, Bool.or_eq_true, Bool.or_eq_true]
    rcases start with hletter | hline
    · exact .inl (.inl hletter)
    · exact .inr hline
  | whole negative run _ _ =>
    rw [wholeContent] at hcapital
    generalize (if negative = true then _ else _ : Int) = n at hcapital
    by_cases hn : isInt64 n = true
    · rw [if_pos hn] at hcapital
      cases hcapital
    · rw [if_neg hn] at hcapital
      cases hcapital
  | _ => cases hcapital

theorem Token.Scanned.isNamePart_of_mem {t : Token} (h : t.Scanned)
    (hcapital : t.category = .capital) : ∀ c ∈ t.text.toList, isNamePart c = true := by
  obtain ⟨start, cs, hmem⟩ := h
  rw [Token.text, String.toList_ofList]
  fun_induction Token.stream start cs with
  | case1 => cases hmem
  | case2 start c cs p ih =>
    rcases List.mem_cons.mp hmem with rfl | hmem
    · exact (Piece.scans_first c cs).isNamePart_of_mem hcapital
    · exact ih hmem

namespace Written

variable {ctx : Context}

/-- **Compiling undoes what reading does to a column.** -/
theorem Column.exists_compiled {c : Column} (hscanned : c.type.Scanned) {v : Value}
    (h : ctx.column c.property = .ok v) :
    ∃ compiled : SchemaLang.Column, v = compiled.toValue ∧ c.Compiles ctx compiled := by
  obtain ⟨a, ha, rfl⟩ := Except.map_eq_ok_iff.mp h
  obtain ⟨ms, rfl, hms⟩ := compileTo_of_attributes ha
  have hname := hscanned.isNamePart_of_mem c.type_category
  refine ⟨⟨c.type.text, c.key.text, !c.question.isSome, c.brackets.isSome, ms⟩, ?_, ?_⟩
  · exact Context.columnValue_declared hname c.key.text c.brackets.isSome c.question.isSome
      (.obj ms)
  · exact ⟨rfl, rfl, rfl, by simp, hms⟩

theorem Column.exists_compiledAll {cs : List Column} (hscanned : ∀ c ∈ cs, c.type.Scanned)
    {seen : List String} {vs : List Value}
    (h : ctx.columns seen (cs.map Column.property) = .ok vs) :
    ∃ compiled : List SchemaLang.Column, vs = compiled.map SchemaLang.Column.toValue ∧
      List.Forall₂ (Column.Compiles ctx) cs compiled := by
  induction cs generalizing seen vs with
  | nil =>
    cases h
    exact ⟨[], rfl, .nil⟩
  | cons c cs ih =>
    obtain ⟨hfirst, hrest⟩ := List.forall_mem_cons.mp hscanned
    rw [List.map_cons, Context.columns] at h
    split at h
    · cases h
    · split at h
      · cases h
      · next v hv =>
        obtain ⟨vs', hvs', rfl⟩ := Except.map_eq_ok_iff.mp h
        obtain ⟨x, rfl, hx⟩ := Column.exists_compiled hfirst hv
        obtain ⟨xs, rfl, hxs⟩ := ih hrest hvs'
        exact ⟨x :: xs, rfl, .cons hx hxs⟩

/-- What a type or a model compiles to: its name, whether it merges, its attributes and its
columns, all as written and in the order in which they were written. -/
def Table.Compiles (ctx : Context) (t : Table) (v : Value) : Prop :=
  ∃ (attributes : Entries Value) (columns : List SchemaLang.Column),
    v = .obj [("name", .str t.name.text), ("mutable", .bool t.bang.isNone),
      ("attributes", .obj attributes), ("columns", .arr (columns.map SchemaLang.Column.toValue))] ∧
    CompileTo ctx t.attributes attributes ∧ List.Forall₂ (Column.Compiles ctx) t.columns columns

theorem Table.compiles_of_declaration {t : Table} (hscanned : ∀ c ∈ t.columns, c.type.Scanned)
    {r : String × Value} (h : ctx.declaration t.declaration = .ok r) :
    r.1 = t.name.text ∧ t.Compiles ctx r.2 := by
  obtain ⟨hname, hv⟩ := Context.declaration_eq_ok h
  refine ⟨hname, ?_⟩
  have hkind : t.declaration.kind.isColumned = true := t.kind_isColumned
  rw [if_pos hkind] at hv
  obtain ⟨attributes, ha, hv⟩ := Except.bind_eq_ok_iff.mp hv
  obtain ⟨columns, hc, hv⟩ := Except.bind_eq_ok_iff.mp hv
  obtain ⟨ms, rfl, hms⟩ := compileTo_of_attributes ha
  obtain ⟨compiled, rfl, hcompiled⟩ := Column.exists_compiledAll hscanned hc
  exact ⟨ms, compiled, (Except.ok.inj hv).symm, hms, hcompiled⟩

end Written

/-! ### Sources -/

namespace Grammar

/-- The tokens of a statement in its source, and how they are derived. -/
theorem exists_tokens_of_node {source : List Char} {s : Schema} (h : parseSchema source = .ok s)
    {n : Node} (hn : n ∈ s.body) :
    ∃ before ts after d, Token.code 0 source = before ++ (ts ++ after) ∧
      (∃ t rest, ts = t :: rest ∧ n.span = ⟨t.start, Token.reach t.start ts⟩) ∧
      Derives statement d (ts.map (·.content)) ∧ n.mapSpans Span.forget = d.node := by
  obtain ⟨-, k, hrun⟩ := statements_of_parseSchema h
  have hroot := Input.in_ofSource source
  obtain ⟨before, i, j, hbefore, hnode⟩ := exists_read_of_mem hroot hrun hn
  have hi := (hroot.takes hbefore).1
  obtain ⟨t, ts, htakes, hspan⟩ := node_takes hi hnode
  obtain ⟨d, ws, hd, hmeans, hread, -⟩ := (decides_node hi.valid).accept hnode
  have hws : ws = (t :: ts).map (·.content) := by
    have hcontents := hread.contents
    rw [Input.contents, htakes.tokens, List.map_append] at hcontents
    exact (List.append_cancel_right hcontents).symm
  refine ⟨before, t :: ts, j.tokens, d, ?_, ⟨t, ts, rfl, hspan⟩, hws ▸ hd, hmeans⟩
  rw [← htakes.tokens]
  exact hbefore.tokens

end Grammar

/-- A declaration is of the kind of its rule. -/
theorem Derives.declaration_kind {kind : Kind} {d : Derivation} {ws : List Content}
    (h : Derives (.symbol (.declaration kind)) d ws) : d.declaration.kind = kind := by
  cases h with
  | symbol h =>
    cases kind with
    | plugin =>
      cases h with
      | seq _ h =>
        cases h with
        | seq _ _ => rfl
    | enum | prop =>
      cases h with
      | seq _ h =>
        cases h with
        | seq _ h =>
          cases h with
          | seq _ _ => rfl
    | type | model =>
      cases h with
      | seq _ h =>
        cases h with
        | seq _ h =>
          cases h with
          | seq _ h =>
            cases h with
            | seq _ _ => rfl

/-- The tokens of a table end with its last brace. -/
theorem Written.Table.reach_tokens (t : Written.Table) (offset : Nat) :
    Token.reach offset t.tokens = t.closing.stop := by
  simp [Token.reach, Written.Table.tokens]

theorem Written.Table.type_mem_tokens {t : Written.Table} {c : Written.Column}
    (hc : c ∈ t.columns) : c.type ∈ t.tokens := by
  have htype : c.type ∈ c.tokens := List.mem_cons_of_mem _ List.mem_cons_self
  have hmem : c.type ∈ t.columns.flatMap Written.Column.tokens :=
    List.mem_flatMap.mpr ⟨c, hc, htype⟩
  simp [Written.Table.tokens, List.mem_append, hmem]

/-- **Types and models compile to what was written.**  The tokens that the span of a type or a model
stands for are of the form that the grammar asks for, and if it compiles at all, its name, its own
attributes and its columns are those of these tokens, in their order: a column has the name and the
type that are written, has many values exactly if brackets are, is required exactly if no question
mark is, and each of its attributes is found under its name with what its arguments compile to. -/
theorem columns_as_written {source : List Char} {s : Schema} (h : parseSchema source = .ok s)
    {x : Declaration} (hx : x ∈ s.declarations) (hkind : x.kind.isColumned = true) :
    ∃ t : Written.Table, t.kind = x.kind ∧ x.span = ⟨t.keyword.start, t.closing.stop⟩ ∧
      (∃ before after, Token.code 0 source = before ++ (t.tokens ++ after)) ∧
      ∀ (ctx : Context) (name : String) (v : Value), ctx.declaration x = .ok (name, v) →
        name = t.name.text ∧ t.Compiles ctx v := by
  obtain ⟨before, ts, after, d, hcode, ⟨t₀, rest, hts, hspan⟩, hd, hn⟩ :=
    Grammar.exists_tokens_of_node h (Schema.mem_declarations_iff.mp hx)
  have hscanned : ∀ t ∈ ts, t.Scanned := by
    intro t ht
    have hmem : t ∈ Token.code 0 source := by
      rw [hcode]
      exact List.mem_append_right _ (List.mem_append_left _ ht)
    exact ⟨0, source, List.mem_of_mem_filter hmem⟩
  cases hd with
  | left hd =>
    cases hd with
    | symbol _ => cases hn
  | right hd =>
    have htree : x.mapSpans Span.forget = _ := Node.declaration.inj hn
    obtain ⟨kind, hderives⟩ := exists_kind_of_anyDeclaration hd
    have hsame : x.kind = kind := (congrArg Declaration.kind htree).trans hderives.declaration_kind
    obtain ⟨t, htkind, rfl, hdeclaration⟩ :=
      Written.exists_table (hsame ▸ hkind) hscanned hderives
    refine ⟨t, htkind.trans hsame.symm, ?_, ⟨before, after, hcode⟩, ?_⟩
    · obtain ⟨rfl, -⟩ := List.cons.inj hts
      exact hspan.trans (by rw [t.reach_tokens])
    · intro ctx name v hv
      have hsource : x.mapSpans Span.forget = t.declaration := htree.trans hdeclaration
      have hmoved : ctx.declaration t.declaration = .ok (name, v) := by
        rw [← hsource, Context.declaration_mapSpans, hv]
        rfl
      exact Written.Table.compiles_of_declaration
        (fun c hc => hscanned c.type (Written.Table.type_mem_tokens hc)) hmoved

/-- A model whose columns and attributes have the names that they are kept under. -/
theorem columns_as_written_keywords :
    let source := "model Type ! @attributes() \x7b type String[]? @type columns Int @a.b(1 2) \x7d"
    let ctx : Context := ⟨[], none⟩
    ∃ s x v, parseSchema source.toList = .ok s ∧ x ∈ s.declarations ∧ x.kind.isColumned = true ∧
      ctx.declaration x = .ok ("Type", v) ∧
      ∃ t : Written.Table, t.kind = x.kind ∧ x.span = ⟨t.keyword.start, t.closing.stop⟩ ∧
        (∃ before after, Token.code 0 source.toList = before ++ (t.tokens ++ after)) ∧
        "Type" = t.name.text ∧ t.Compiles ctx v := by
  intro source ctx
  have hread : (parseSchema source.toList).toOption.map (fun s => s.declarations.map fun x =>
      (x.kind.isColumned, (ctx.declaration x).toOption.map (·.1))) =
      some [(true, some "Type")] := by
    decide +kernel
  obtain ⟨s, hs, hdeclarations⟩ := Except.exists_of_toOption_map hread
  obtain ⟨x, hx, hpair⟩ := List.map_eq_singleton_iff.mp hdeclarations
  obtain ⟨hkind, hname⟩ := Prod.mk.inj hpair
  obtain ⟨⟨name, v⟩, hv, rfl⟩ := Except.exists_of_toOption_map hname
  have hmem : x ∈ s.declarations := by
    rw [hx]
    exact List.mem_singleton_self x
  obtain ⟨t, htkind, hspan, hcode, hcompiles⟩ := columns_as_written hs hmem hkind
  exact ⟨s, x, v, hs, hmem, hkind, hv, t, htkind, hspan, hcode, hcompiles ctx _ v hv⟩

end SchemaLang
