import SchemaLang.Proofs.Grammar.InStep
import SchemaLang.Proofs.Grammar.Schema
import SchemaLang.Proofs.Token.Tiling

/-!
# The spans of a tree are nested

Every part of a tree that is read from a source lies within the part that holds it, and the parts
of an object, of an array or of a source stand one behind the other.  This holds of the spans that
are copied from a token and of those that are put together: a column begins at its key, an
attribute without arguments shares its span with its value, and attributes that are not there have
an empty span, at the position that was reached.

What carries the proof is where a reader comes to: what it returns begins behind the position
before it and ends exactly at the position after it.  So what one reader returns ends before what
the next one returns begins, and what the readers between two marks return lies between the marks.

## Main definitions

* `Span.In` — a span of a source.
* `Data.Nested`, `Declaration.Nested`, `Node.Nested`, `Schema.Nested` — trees whose spans are
  nested.
* `Input.Takes` — reading some tokens leads from one input to another.
* `Parser.Lays`, `Parser.Places` — where a reader comes to, and where its result stands.
* `Row` — results that stand one behind the other.

## Main results

* `Parser.Lays.bind`, `Parser.lays_many`, `Parser.lays_whileNext` — the combinators.
* `Grammar.places_data`, `Grammar.places_column`, `Grammar.places_node` — the readers.
* `parseSchema_nested` — **the spans of a tree that is read are nested.**
-/

namespace SchemaLang

open SchemaLang.Parser

/-! ### Spans -/

namespace Span

/-- A span of the source: its ends are in order, and both lie between characters. -/
structure In (source : List Char) (s : Span) : Prop where
  /-- The ends are in order. -/
  ordered : s.start ≤ s.stop
  /-- Nothing lies past the end of the source. -/
  inside : s.stop ≤ byteLength source
  /-- The first byte begins a character, or the source ends there. -/
  start : IsBoundary source s.start
  /-- So does the byte after the last one. -/
  stop : IsBoundary source s.stop

/-- The span lies within another one. -/
def Within (s holder : Span) : Prop := holder.start ≤ s.start ∧ s.stop ≤ holder.stop

/-- The span ends where another one begins, or before. -/
def Before (s t : Span) : Prop := s.stop ≤ t.start

/-- A span of the source that begins at the position `lo` or behind it and ends at `hi`. -/
structure Reaches (source : List Char) (lo hi : Nat) (s : Span) : Prop where
  /-- It is a span of the source. -/
  within : s.In source
  /-- It begins behind the first position. -/
  behind : lo ≤ s.start
  /-- It ends at the second position. -/
  ends : s.stop = hi

end Span

theorem IsBoundary.le {source : List Char} {position : Nat} (h : IsBoundary source position) :
    position ≤ byteLength source := by
  obtain ⟨before, after, rfl, rfl⟩ := h
  rw [byteLength_append]
  omega

namespace Span

variable {source : List Char} {lo mid mid' hi : Nat} {s t : Span}

theorem In.of_covers {text : List Char} (h : s.Covers source text) : s.In source := by
  obtain ⟨hfirst, hlast⟩ := h.boundary
  obtain ⟨before, after, -, hstart, hstop⟩ := h
  refine ⟨?_, hlast.le, hfirst, hlast⟩
  rw [byteLength_append] at hstop
  omega

theorem Reaches.start_le (h : s.Reaches source lo hi) : s.start ≤ hi :=
  h.ends ▸ h.within.ordered

theorem Reaches.le (h : s.Reaches source lo hi) : lo ≤ hi :=
  Nat.le_trans h.behind h.start_le

/-- The span up to a position further on. -/
theorem Reaches.extend (h : s.Reaches source lo mid) (hle : mid ≤ hi) (hhi : IsBoundary source hi) :
    (⟨s.start, hi⟩ : Span).Reaches source lo hi :=
  ⟨⟨Nat.le_trans h.start_le hle, hhi.le, h.within.start, hhi⟩, h.behind, rfl⟩

/-- The span up to the end of one that is read later. -/
theorem Reaches.join (hs : s.Reaches source lo mid) (ht : t.Reaches source mid' hi)
    (h : mid ≤ mid') : (⟨s.start, t.stop⟩ : Span).Reaches source lo hi := by
  rw [ht.ends]
  exact hs.extend (Nat.le_trans h ht.le) (ht.ends ▸ ht.within.stop)

theorem Reaches.mono (h : s.Reaches source mid hi) (hle : lo ≤ mid) : s.Reaches source lo hi :=
  ⟨h.within, Nat.le_trans hle h.behind, h.ends⟩

end Span

/-! ### Trees -/

/-- The span of a property: from the start of its key to the end of its value. -/
def Property.extent (p : Property) : Span := ⟨p.1.span.start, p.2.span.stop⟩

mutual

/-- All spans of the data are spans of the source, each part lies within the part that holds it,
and the parts of an object or an array stand one behind the other. -/
inductive Data.Nested (source : List Char) : Data → Prop where
  | literal (v : Literal) {s : Span} (span : s.In source) : Data.Nested source (.literal v s)
  | environment (name : String) {s : Span} (span : s.In source) :
    Data.Nested source (.environment name s)
  | object {ps : List Property} {s : Span} (span : s.In source)
    (properties : ∀ p ∈ ps, Property.Nested source p) (within : ∀ p ∈ ps, p.extent.Within s)
    (ordered : (ps.map Property.extent).Pairwise Span.Before) : Data.Nested source (.object ps s)
  | array {es : List Data} {s : Span} (span : s.In source)
    (elements : ∀ e ∈ es, Data.Nested source e) (within : ∀ e ∈ es, e.span.Within s)
    (ordered : (es.map Data.span).Pairwise Span.Before) : Data.Nested source (.array es s)
  | reference {id : Ident} (span : id.span.In source) : Data.Nested source (.reference id)

/-- The same of a property: key and value lie within what reaches from one to the other. -/
inductive Property.Nested (source : List Char) : Property → Prop where
  | mk {p : Property} (key : p.1.span.In source) (value : Data.Nested source p.2)
    (key_within : p.1.span.Within p.extent) (value_within : p.2.span.Within p.extent) :
    Property.Nested source p

end

/-- The same of a declaration. -/
structure Declaration.Nested (source : List Char) (d : Declaration) : Prop where
  /-- The declaration is a part of the source. -/
  span : d.span.In source
  /-- So is its name. -/
  id : d.id.span.In source
  /-- The name is a part of the declaration. -/
  id_within : d.id.span.Within d.span
  /-- What is declared is nested. -/
  init : d.init.toData.Nested source
  /-- What is declared is a part of the declaration. -/
  init_within : d.init.span.Within d.span

/-- The same of a request for another source. -/
structure Use.Nested (source : List Char) (u : Use) : Prop where
  /-- The request is a part of the source. -/
  span : u.span.In source
  /-- So is its path. -/
  path : u.pathSpan.In source
  /-- The path is a part of the request. -/
  path_within : u.pathSpan.Within u.span

/-- The same of a statement that is read from a text. -/
inductive Node.Nested (source : List Char) : Node → Prop where
  | use {u : Use} (h : u.Nested source) : Node.Nested source (.use u)
  | declaration {d : Declaration} (h : d.Nested source) : Node.Nested source (.declaration d)

/-- The same of a source, which takes all of the text. -/
structure Schema.Nested (source : List Char) (s : Schema) : Prop where
  /-- The source takes all of the text. -/
  span : s.span = ⟨0, byteLength source⟩
  /-- Each statement is nested. -/
  body : ∀ n ∈ s.body, n.Nested source
  /-- Each statement is a part of the source. -/
  within : ∀ n ∈ s.body, n.span.Within s.span
  /-- The statements stand one behind the other. -/
  ordered : (s.body.map Node.span).Pairwise Span.Before

/-! ### Inputs -/

namespace Token

/-- The position reached behind some tokens, from `offset` on. -/
def reach (offset : Nat) (ts : List Token) : Nat := ts.foldl (fun _ t => t.stop) offset

@[simp] theorem reach_nil (offset : Nat) : reach offset [] = offset := rfl

@[simp] theorem reach_cons (offset : Nat) (t : Token) (ts : List Token) :
    reach offset (t :: ts) = reach t.stop ts := rfl

/-- Behind some of the tokens that lie in order, the others do. -/
theorem Laid.append {size offset : Nat} {ts us : List Token} (h : Laid size offset (ts ++ us)) :
    offset ≤ reach offset ts ∧ Laid size (reach offset ts) us := by
  induction ts generalizing offset with
  | nil => exact ⟨Nat.le_refl _, h⟩
  | cons t ts ih =>
    obtain ⟨hstart, hproper, hrest⟩ := h
    obtain ⟨hle, hus⟩ := ih hrest
    have hlt := hproper.nonempty
    refine ⟨?_, hus⟩
    rw [reach_cons]
    omega

end Token

namespace Input

/-- Reading the tokens `ts` leads from `i` to `j`. -/
structure Takes (i : Input) (ts : List Token) (j : Input) : Prop where
  /-- What is read comes first, and the rest is left. -/
  tokens : i.tokens = ts ++ j.tokens
  /-- The position reached is the end of the last token read. -/
  offset : j.offset = Token.reach i.offset ts
  /-- The source has so many bytes. -/
  size : j.size = i.size

theorem Takes.refl (i : Input) : i.Takes [] i := ⟨rfl, rfl, rfl⟩

theorem Takes.trans {i j k : Input} {ts us : List Token} (h : i.Takes ts j) (h' : j.Takes us k) :
    i.Takes (ts ++ us) k := by
  refine ⟨?_, ?_, h'.size.trans h.size⟩
  · rw [h.tokens, h'.tokens, List.append_assoc]
  · rw [h'.offset, h.offset, Token.reach, Token.reach, Token.reach, List.foldl_append]

theorem next_of_tokens {i : Input} {t : Token} {ts : List Token} (h : i.tokens = t :: ts) :
    i.next = t := by
  rw [next, h]
  rfl

theorem takes_advance {i : Input} (h : i.next.content ≠ .endOfInput) :
    i.Takes [i.next] i.advance := by
  obtain ⟨t, ts, ht⟩ := exists_tokens_of_content h
  refine ⟨?_, rfl, rfl⟩
  simp [advance, next, ht]

/-- The input is a place in the source, and so are the tokens that are left. -/
structure In (source : List Char) (i : Input) : Prop where
  /-- The tokens lie in order behind the position reached. -/
  valid : i.Valid
  /-- The position reached is one between characters. -/
  offset : IsBoundary source i.offset
  /-- The tokens are parts of the source. -/
  tokens : ∀ t ∈ i.tokens, t.span.In source

variable {source : List Char} {i j : Input} {ts : List Token}

theorem in_ofSource (source : List Char) : (ofSource source).In source := by
  refine ⟨ofSource_valid source, ⟨[], source, rfl, rfl⟩, ?_⟩
  intro t ht
  have hmem : t ∈ Token.stream (byteLength []) source := (List.mem_filter.1 ht).1
  have hcovers := (Token.covers_of_mem_stream hmem).1
  exact .of_covers hcovers

theorem boundary_reach {offset : Nat} (h : IsBoundary source offset)
    (hts : ∀ t ∈ ts, t.span.In source) : IsBoundary source (Token.reach offset ts) := by
  induction ts generalizing offset with
  | nil => exact h
  | cons t ts ih =>
    obtain ⟨ht, hts⟩ := List.forall_mem_cons.1 hts
    exact ih ht.stop hts

/-- Reading goes forward, from one place of the source to another. -/
theorem In.takes (hi : i.In source) (h : i.Takes ts j) : j.In source ∧ i.offset ≤ j.offset := by
  have hlaid : Token.Laid i.size i.offset (ts ++ j.tokens) := by
    rw [← h.tokens]
    exact hi.valid
  have htokens := hi.tokens
  rw [h.tokens, List.forall_mem_append] at htokens
  obtain ⟨hle, hrest⟩ := hlaid.append
  rw [← h.offset] at hle hrest
  refine ⟨⟨?_, ?_, htokens.2⟩, hle⟩
  · rw [Valid, h.size]
    exact hrest
  · rw [h.offset]
    exact boundary_reach hi.offset htokens.1

/-- The next token, and the input behind it. -/
theorem In.advance (hi : i.In source) (h : i.next.content ≠ .endOfInput) :
    i.next.span.Reaches source i.offset i.advance.offset := by
  obtain ⟨t, ts, ht⟩ := exists_tokens_of_content h
  have hnext := next_of_tokens ht
  have hlaid : Token.Laid i.size i.offset (t :: ts) := by
    rw [← ht]
    exact hi.valid
  refine ⟨hi.tokens _ ?_, ?_, rfl⟩
  · rw [hnext, ht]
    exact List.mem_cons_self
  · rw [hnext]
    exact hlaid.1

end Input

/-! ### Results in a row -/

/-- What a reader returns one time after the other: `good` results, each of which begins behind the
one before it; the first is behind `lo`, and the last ends at `hi`. -/
inductive Row {α : Type} (source : List Char) (good : α → Prop) (place : α → Span) :
    Nat → Nat → List α → Prop where
  | nil {lo : Nat} : Row source good place lo lo []
  | cons {lo mid hi : Nat} {a : α} {as : List α} (first : good a)
    (reaches : (place a).Reaches source lo mid) (rest : Row source good place mid hi as) :
    Row source good place lo hi (a :: as)

namespace Row

variable {α : Type} {source : List Char} {good : α → Prop} {place : α → Span} {lo hi : Nat}
  {as : List α}

theorem le (h : Row source good place lo hi as) : lo ≤ hi := by
  induction h with
  | nil => exact Nat.le_refl _
  | cons _ hreach _ ih => exact Nat.le_trans hreach.le ih

/-- Each result stands between the two ends. -/
theorem within (h : Row source good place lo hi as) :
    ∀ a ∈ as, good a ∧ (place a).In source ∧ (place a).Within ⟨lo, hi⟩ := by
  induction h with
  | nil => simp
  | @cons lo mid hi a as hgood hreach hrest ih =>
    have hends := hreach.ends
    have hle := hreach.le
    have hle' := hrest.le
    refine List.forall_mem_cons.2 ⟨⟨hgood, hreach.within, hreach.behind, ?_⟩, ?_⟩
    · show (place a).stop ≤ hi
      omega
    · intro b hb
      obtain ⟨hb, hin, hstart, hstop⟩ := ih b hb
      exact ⟨hb, hin, Nat.le_trans hle hstart, hstop⟩

/-- The results stand one behind the other. -/
theorem ordered (h : Row source good place lo hi as) : (as.map place).Pairwise Span.Before := by
  induction h with
  | nil => exact .nil
  | @cons lo mid hi a as _ hreach hrest ih =>
    rw [List.map_cons, List.pairwise_cons]
    refine ⟨?_, ih⟩
    intro t ht
    obtain ⟨b, hb, rfl⟩ := List.mem_map.1 ht
    have hstart := (hrest.within b hb).2.2.1
    have hends := hreach.ends
    show (place a).stop ≤ (place b).start
    exact hends ▸ hstart

/-- The last result ends at the second end; where there is none, the two ends are one. -/
theorem ends (h : Row source good place lo hi as) :
    (as = [] ∧ hi = lo) ∨ ∃ a, as.getLast? = some a ∧ (place a).stop = hi := by
  induction h with
  | nil => exact .inl ⟨rfl, rfl⟩
  | @cons lo mid hi a as _ hreach hrest ih =>
    right
    rcases ih with ⟨rfl, rfl⟩ | ⟨b, hb, hstop⟩
    · exact ⟨a, rfl, hreach.ends⟩
    · exact ⟨b, by rw [List.getLast?_cons, hb, Option.getD_some], hstop⟩

end Row

namespace Parser

variable {α β : Type} {source : List Char}

/-! ### Where readers come to -/

/-- If `p` succeeds at `i`, it has read some tokens, and `result` holds of the position it has come
to and what it returns. -/
def Lays (p : Parser α) (i : Input) (result : Nat → α → Prop) : Prop :=
  ∀ (a : α) (j : Input), p i = (.ok a, j) → (∃ ts, i.Takes ts j) ∧ result j.offset a

/-- If `p` succeeds at `i`, it returns something `good`, which stands behind the position reached
before and ends at the one reached then. -/
def Places (source : List Char) (p : Parser α) (good : α → Prop) (place : α → Span) (i : Input) :
    Prop :=
  Lays p i fun stop a => good a ∧ (place a).Reaches source i.offset stop

/-- The same, and what `p` returns begins with the next token. -/
def PlacesNext (source : List Char) (p : Parser α) (good : α → Prop) (place : α → Span)
    (i : Input) : Prop :=
  Lays p i fun stop a =>
    (place a).start = i.next.start ∧ good a ∧ (place a).Reaches source i.offset stop

theorem Lays.pure {i : Input} {result : Nat → α → Prop} {a : α} (h : result i.offset a) :
    Lays (Pure.pure a) i result := by
  intro b j hb
  cases hb
  exact ⟨⟨[], .refl i⟩, h⟩

theorem Lays.imp {p : Parser α} {i : Input} {middle result : Nat → α → Prop} (hp : Lays p i middle)
    (himp : ∀ stop a, middle stop a → result stop a) : Lays p i result := by
  intro a j h
  obtain ⟨htakes, hmiddle⟩ := hp a j h
  exact ⟨htakes, himp _ _ hmiddle⟩

theorem Lays.bind {p : Parser α} {q : α → Parser β} {i : Input} (hi : i.In source)
    {middle : Nat → α → Prop} {result : Nat → β → Prop} (hp : Lays p i middle)
    (hq : ∀ a j, j.In source → i.offset ≤ j.offset → middle j.offset a → Lays (q a) j result) :
    Lays (p >>= q) i result := by
  intro b k h
  obtain ⟨a, j, hpa, hqb⟩ := bind_eq_ok h
  obtain ⟨⟨ts, hts⟩, hmiddle⟩ := hp a j hpa
  obtain ⟨hj, hle⟩ := hi.takes hts
  obtain ⟨⟨us, hus⟩, hresult⟩ := hq a j hj hle hmiddle b k hqb
  exact ⟨⟨ts ++ us, hts.trans hus⟩, hresult⟩

/-! ### Single tokens -/

section

variable {i : Input} (hi : i.In source)

include hi

theorem lays_satisfy {accept : Token → Bool} {expected : String}
    (hend : ∀ t : Token, accept t = true → t.content ≠ .endOfInput) :
    Lays (satisfy accept expected) i fun stop t =>
      t = i.next ∧ t.span.Reaches source i.offset stop := by
  intro t j h
  rw [satisfy] at h
  split at h
  · next haccept =>
    cases h
    exact ⟨⟨[i.next], Input.takes_advance (hend _ haccept)⟩, rfl, hi.advance (hend _ haccept)⟩
  · cases h

theorem lays_expect {category : Category} (hend : category ≠ .endOfInput) :
    Lays (expect category) i fun stop t => t = i.next ∧ t.span.Reaches source i.offset stop := by
  refine lays_satisfy hi ?_
  intro t ht hcontent
  have hcategory : t.category = category := by simpa using ht
  rw [Token.category, hcontent] at hcategory
  exact hend hcategory.symm

/-- An optional token stands, or nothing is read. -/
theorem lays_optional_bind {category : Category} (hend : category ≠ .endOfInput)
    {q : Option Token → Parser β} {result : Nat → β → Prop} (hnone : Lays (q none) i result)
    (hsome : ∀ t j, j.In source → i.offset ≤ j.offset → t.span.Reaches source i.offset j.offset →
      Lays (q (some t)) j result) :
    Lays (optional category >>= q) i result := by
  intro b k h
  obtain ⟨found, j, hfound, hb⟩ := bind_eq_ok h
  rw [optional] at hfound
  rcases hexpect : expect category i with ⟨err | t, l⟩
  · rw [hexpect] at hfound
    cases hfound
    exact hnone b k hb
  · rw [hexpect] at hfound
    cases hfound
    obtain ⟨⟨ts, hts⟩, -, hspan⟩ := lays_expect hi hend t j hexpect
    obtain ⟨hj, hle⟩ := hi.takes hts
    obtain ⟨⟨us, hus⟩, hresult⟩ := hsome t j hj hle hspan b k hb
    exact ⟨⟨ts ++ us, hts.trans hus⟩, hresult⟩

theorem places_word (expected : String) :
    Places source (word expected) (fun _ => True) Ident.span i := by
  refine .bind hi (lays_satisfy hi ?_) fun t j hj _ ht => .pure ⟨trivial, ht.2⟩
  intro t ht hcontent
  rw [Token.category, hcontent] at ht
  cases ht

theorem places_capital : Places source capital (fun _ => True) Ident.span i :=
  .bind hi (lays_expect hi (by simp)) fun _ _ _ _ ht => .pure ⟨trivial, ht.2⟩

theorem places_string : Places source string (fun _ => True) Prod.snd i :=
  .bind hi (lays_expect hi (by simp)) fun _ _ _ _ ht => .pure ⟨trivial, ht.2⟩

/-! ### Repetition -/

variable {p : Parser α} {good : α → Prop} {place : α → Span}
  (hp : ∀ j : Input, j.In source → Places source p good place j)

include hp

/-- What is read one time after the other stands in a row. -/
theorem lays_many : Lays (many p) i fun stop as => Row source good place i.offset stop as := by
  -- each result ends where reading the next one starts, so the run is a row
  have key : (∃ ts, i.Takes ts (collect p i).2) ∧
      Row source good place i.offset (collect p i).2.offset (collect p i).1 := by
    fun_induction collect p i with
    | case1 i err k hpi => exact ⟨⟨[], .refl i⟩, .nil⟩
    | case2 i a j hpi hlt r ih =>
      obtain ⟨⟨ts, hts⟩, hgood, hreach⟩ := hp i hi a j hpi
      obtain ⟨⟨us, hus⟩, hrow⟩ := ih (hi.takes hts).1
      exact ⟨⟨ts ++ us, hts.trans hus⟩, .cons hgood hreach hrow⟩
    | case3 i a j hpi hlt =>
      obtain ⟨⟨ts, hts⟩, hgood, hreach⟩ := hp i hi a j hpi
      exact ⟨⟨ts, hts⟩, .cons hgood hreach .nil⟩
  intro as j h
  cases h
  exact key

theorem lays_whileNext (accept : Category → Bool) :
    Lays (whileNext accept p) i fun stop as => Row source good place i.offset stop as := by
  intro as k h
  fun_induction whileNext accept p i generalizing as k with
  | case1 => cases h
  | case2 => cases h
  | case3 i haccept a j hpi hlt as k' hrun ih =>
    cases h
    obtain ⟨⟨ts, hts⟩, hgood, hreach⟩ := hp i hi a j hpi
    obtain ⟨⟨us, hus⟩, hrow⟩ := ih (hi.takes hts).1 as k' hrun
    exact ⟨⟨ts ++ us, hts.trans hus⟩, .cons hgood hreach hrow⟩
  | case4 i haccept a j hpi hlt =>
    cases h
    obtain ⟨⟨ts, hts⟩, hgood, hreach⟩ := hp i hi a j hpi
    exact ⟨⟨ts, hts⟩, .cons hgood hreach .nil⟩
  | case5 i hstop =>
    cases h
    exact ⟨⟨[], .refl i⟩, .nil⟩

end

end Parser

/-! ### Putting parts together -/

section

variable {source : List Char} {lo mid mid' hi : Nat} {r s t : Span}

/-- What lies between two marks lies within what reaches from the one to the other. -/
theorem Span.Within.between (h : r.Within ⟨mid, mid'⟩) (hs : s.Reaches source lo mid)
    (ht : t.Reaches source mid' hi) : r.Within ⟨s.start, t.stop⟩ := by
  obtain ⟨hstart, hstop⟩ := h
  constructor
  · show s.start ≤ r.start
    exact Nat.le_trans hs.start_le hstart
  · show r.stop ≤ t.stop
    exact Nat.le_trans hstop (Nat.le_trans ht.behind ht.within.ordered)

theorem nested_array {es : List Data} (hs : s.Reaches source lo mid)
    (hes : Row source (Data.Nested source) Data.span mid mid' es) (ht : t.Reaches source mid' hi) :
    (Data.array es ⟨s.start, t.stop⟩).Nested source := by
  refine .array (hs.join ht hes.le).within (fun e he => (hes.within e he).1) ?_ hes.ordered
  intro e he
  exact (hes.within e he).2.2.between hs ht

theorem nested_block {ps : List Property} (hs : s.Reaches source lo mid)
    (hps : Row source (Property.Nested source) Property.extent mid mid' ps)
    (ht : t.Reaches source mid' hi) :
    (Block.toData ⟨ps, ⟨s.start, t.stop⟩⟩).Nested source := by
  refine .object (hs.join ht hps.le).within (fun p hp => (hps.within p hp).1) ?_ hps.ordered
  intro p hp
  exact (hps.within p hp).2.2.between hs ht

/-- A property whose key neither begins nor ends behind its value. -/
theorem Property.Nested.of_le {key : Ident} {value : Data} (hkey : key.span.In source)
    (hvalue : value.Nested source) (hstart : key.span.start ≤ value.span.start)
    (hstop : key.span.stop ≤ value.span.stop) : Property.Nested source (key, value) :=
  .mk hkey hvalue ⟨Nat.le_refl _, hstop⟩ ⟨hstart, Nat.le_refl _⟩

/-- A key and a value behind it. -/
theorem nested_property {key : Ident} {value : Data} (hkey : key.span.Reaches source lo mid)
    (hvalue : value.Nested source) (hspan : value.span.Reaches source mid hi) :
    Property.Nested source (key, value) ∧
      (Property.extent (key, value)).Reaches source lo hi := by
  have hstart := Nat.le_trans hkey.start_le hspan.behind
  have hstop : key.span.stop ≤ value.span.stop := by
    rw [hkey.ends, hspan.ends]
    exact hspan.le
  exact ⟨.of_le hkey.within hvalue hstart hstop, hkey.join hspan (Nat.le_refl _)⟩

/-- The two parts of a column, of a type or of a model: their keys stand where they do. -/
theorem nested_pair (name name' : String) {x y : Data} (hs : s.In source) (hx : x.Nested source)
    (hy : y.Nested source) (hxspan : x.span.Reaches source mid mid')
    (hyspan : y.span.Reaches source mid' hi) (hstart : s.start ≤ mid) (hstop : s.stop = hi) :
    (Data.object [(⟨name, x.span⟩, x), (⟨name', y.span⟩, y)] s).Nested source := by
  have hx₁ := hxspan.behind
  have hx₂ := hxspan.ends
  have hy₁ := hyspan.behind
  have hy₂ := hyspan.ends
  have hle := hxspan.le
  have hle' := hyspan.le
  refine .object hs ?_ ?_ ?_
  · simp only [List.forall_mem_cons, List.not_mem_nil, false_implies, implies_true, and_true]
    exact ⟨.of_le hxspan.within hx (Nat.le_refl _) (Nat.le_refl _),
      .of_le hyspan.within hy (Nat.le_refl _) (Nat.le_refl _)⟩
  · simp only [List.forall_mem_cons, List.not_mem_nil, false_implies, implies_true, and_true,
      Span.Within, Property.extent]
    omega
  · simp only [List.map_cons, List.map_nil, List.pairwise_cons, List.mem_singleton, forall_eq,
      List.not_mem_nil, false_implies, implies_true, and_true, List.Pairwise.nil, Span.Before,
      Property.extent]
    omega

/-- Attributes take all from the first to the last; where there are none, they take nothing. -/
theorem nested_attributes {ps : List Property} (hlo : IsBoundary source lo)
    (h : Row source (Property.Nested source) Property.extent lo hi ps) :
    (Block.toData ⟨ps, Grammar.attributesSpan lo ps⟩).Nested source ∧
      (Grammar.attributesSpan lo ps).Reaches source lo hi := by
  cases h with
  | nil =>
    have hspan : (⟨lo, lo⟩ : Span).Reaches source lo lo :=
      ⟨⟨Nat.le_refl _, hlo.le, hlo, hlo⟩, Nat.le_refl _, rfl⟩
    exact ⟨.object hspan.within (by simp) (by simp) .nil, hspan⟩
  | @cons _ mid _ p ps hp hreach hrest =>
    -- counted from the start of the first one, the row has the ends that the span has
    have hrow : Row source (Property.Nested source) Property.extent p.extent.start hi (p :: ps) :=
      .cons hp ⟨hreach.within, Nat.le_refl _, hreach.ends⟩ hrest
    obtain ⟨last, hlast, hstop⟩ := hrow.ends.resolve_left (by simp)
    have hmem := hrow.within last (List.mem_of_getLast? hlast)
    have hspan : Grammar.attributesSpan lo (p :: ps) = ⟨p.extent.start, hi⟩ := by
      simp only [Grammar.attributesSpan, hlast, List.head?_cons]
      rw [← hstop]
      rfl
    have hreaches := hreach.extend hrest.le (hstop ▸ hmem.2.1.stop)
    rw [hspan]
    exact ⟨.object hreaches.within (fun q hq => (hrow.within q hq).1)
      (fun q hq => (hrow.within q hq).2.2) hrow.ordered, hreaches⟩

/-- A column reaches from its key to the end of its attributes. -/
theorem nested_column {key : Ident} {name : String} {b : Block}
    (hkey : key.span.Reaches source lo mid) (hs : s.Reaches source mid mid')
    (hb : b.toData.Nested source) (hspan : b.span.Reaches source mid' hi) :
    Property.Nested source (Grammar.columnProperty key name s b) ∧
      (Grammar.columnProperty key name s b).extent.Reaches source lo hi := by
  have hmax : max b.span.stop s.stop = b.span.stop := by
    rw [hspan.ends, hs.ends]
    exact Nat.max_eq_left hspan.le
  have hvalue : (⟨key.span.start, max b.span.stop s.stop⟩ : Span).Reaches source lo hi := by
    rw [hmax]
    exact hkey.join hspan hs.le
  have hpair := nested_pair "type" "attributes" hvalue.within (.literal (.string name) hs.within) hb
    hs hspan hkey.start_le hvalue.ends
  have hstop : key.span.stop ≤ max b.span.stop s.stop := by
    rw [hkey.ends, hmax, hspan.ends]
    exact Nat.le_trans hs.le hspan.le
  exact ⟨.of_le hkey.within hpair (Nat.le_refl _) hstop, hvalue⟩

/-- A declaration reaches from its first word to the end of what is declared. -/
theorem nested_declaration {kind : Kind} {mergeable : Bool} {id : Ident} {b : Block}
    (hs : s.Reaches source lo mid) (hid : id.span.Reaches source mid mid')
    (hb : b.toData.Nested source) (hspan : b.span.Reaches source mid hi) (hle : mid' ≤ hi) :
    Declaration.Nested source ⟨kind, mergeable, id, b, ⟨s.start, b.span.stop⟩⟩ ∧
      (⟨s.start, b.span.stop⟩ : Span).Reaches source lo hi := by
  have hreaches := hs.join hspan (Nat.le_refl _)
  have hname : id.span.stop ≤ b.span.stop := by
    rw [hid.ends, hspan.ends]
    exact hle
  exact ⟨⟨hreaches.within, hid.within, ⟨Nat.le_trans hs.start_le hid.behind, hname⟩, hb,
    ⟨Nat.le_trans hs.start_le hspan.behind, Nat.le_refl _⟩⟩, hreaches⟩

end

namespace Grammar

variable {source : List Char} {i : Input} (hi : i.In source)

include hi

/-! ### Data -/

theorem places_scalar : Places source scalar (Data.Nested source) Data.span i := by
  intro t j h
  unfold scalar at h
  split at h
  · next v hv =>
    cases h
    have hend : i.next.content ≠ .endOfInput := by
      intro hc
      rw [hc] at hv
      cases hv
    have hreach := hi.advance hend
    exact ⟨⟨_, Input.takes_advance hend⟩, .literal v hreach.within, hreach⟩
  · cases h

theorem places_reference : Places source reference (Data.Nested source) Data.span i :=
  .bind hi (places_capital hi) fun _ _ _ _ hid => .pure ⟨.reference hid.2.within, hid.2⟩

theorem places_environment : Places source environment (Data.Nested source) Data.span i := by
  refine .bind hi (lays_expect hi (by simp)) fun keyword j₁ hj₁ _ hkeyword => ?_
  refine .bind hj₁ (lays_expect hj₁ (by simp)) fun opening j₂ hj₂ hle₂ _ => ?_
  refine .bind hj₂ (places_string hj₂) fun name j₃ hj₃ hle₃ _ => ?_
  refine .bind hj₃ (lays_expect hj₃ (by simp)) fun closing j₄ _ _ hclosing => .pure ?_
  have hspan := hkeyword.2.join hclosing.2 (Nat.le_trans hle₂ hle₃)
  exact ⟨.environment _ hspan.within, hspan⟩

theorem places_property (expected : String) {value : Parser Data}
    (hvalue : ∀ j : Input, j.In source → Places source value (Data.Nested source) Data.span j) :
    Places source (property expected value) (Property.Nested source) Property.extent i := by
  refine .bind hi (places_word hi expected) fun key j hj _ hkey => ?_
  exact .bind hj (hvalue j hj) fun v k _ _ hv => .pure (nested_property hkey.2 hv.1 hv.2)

theorem places_blockOf {entry : Parser Property}
    (hentry : ∀ j : Input, j.In source →
      Places source entry (Property.Nested source) Property.extent j) :
    Places source (blockOf entry) (fun b => b.toData.Nested source) Block.span i := by
  refine .bind hi (lays_expect hi (by simp)) fun opening j₁ hj₁ _ hopening => ?_
  refine .bind hj₁ (lays_many hj₁ hentry) fun ps j₂ hj₂ hle hps => ?_
  refine .bind hj₂ (lays_expect hj₂ (by simp)) fun closing j₃ _ _ hclosing => .pure ?_
  exact ⟨nested_block hopening.2 hps hclosing.2, hopening.2.join hclosing.2 hle⟩

theorem places_objectOf {item : Parser Data}
    (hitem : ∀ j : Input, j.In source → Places source item (Data.Nested source) Data.span j) :
    Places source (objectOf item) (fun b => b.toData.Nested source) Block.span i :=
  places_blockOf hi fun _ hj => places_property hj _ hitem

theorem places_arrayOf {item : Parser Data}
    (hitem : ∀ j : Input, j.In source → Places source item (Data.Nested source) Data.span j) :
    Places source (arrayOf item) (Data.Nested source) Data.span i := by
  refine .bind hi (lays_expect hi (by simp)) fun opening j₁ hj₁ _ hopening => ?_
  refine .bind hj₁ (lays_many hj₁ hitem) fun es j₂ hj₂ hle hes => ?_
  refine .bind hj₂ (lays_expect hj₂ (by simp)) fun closing j₃ _ _ hclosing => .pure ?_
  exact ⟨nested_array hopening.2 hes hclosing.2, hopening.2.join hclosing.2 hle⟩

/-- Data of any form, if its parts are nested. -/
theorem places_dataOf {item : Parser Data}
    (hitem : ∀ j : Input, j.In source → Places source item (Data.Nested source) Data.span j) :
    Places source (dataOf item) (Data.Nested source) Data.span i := by
  intro t j h
  have hobject : Places source (do return (← objectOf item).toData) (Data.Nested source)
      Data.span i :=
    .bind hi (places_objectOf hi hitem) fun _ _ _ _ hb => .pure hb
  unfold dataOf at h
  split at h
  · exact hobject t j h
  · exact places_arrayOf hi hitem t j h
  · split at h
    · exact places_environment hi t j h
    · exact places_scalar hi t j h
  · exact places_reference hi t j h
  · exact places_scalar hi t j h

theorem places_dataWithin (depth : Nat) :
    Places source (dataWithin depth) (Data.Nested source) Data.span i := by
  induction depth generalizing i with
  | zero => exact places_scalar hi
  | succ depth ih => exact places_dataOf hi fun j hj => ih hj

theorem places_data : Places source data (Data.Nested source) Data.span i :=
  places_dataWithin hi (i.tokens.length + 1)

theorem places_object : Places source object (fun b => b.toData.Nested source) Block.span i :=
  places_objectOf hi fun _ hj => places_data hj

/-! ### Attributes -/

theorem lays_furtherWords :
    Lays furtherWords i fun stop ids =>
      Row source (fun _ => True) Ident.span i.offset stop ids := by
  refine lays_whileNext hi ?_ _
  intro j hj
  refine .bind hj (lays_expect hj (by simp)) fun dot k hk hle _ => ?_
  exact (places_word hk _).imp fun stop id hid => ⟨trivial, hid.2.mono hle⟩

theorem lays_arguments {opening : Token} {lo : Nat}
    (hopening : opening.span.Reaches source lo i.offset) :
    Lays (arguments opening) i fun stop t =>
      t.Nested source ∧ t.span.Reaches source lo stop := by
  refine .bind hi (lays_many hi fun j hj => places_data hj) fun es j hj hle hes => ?_
  refine .bind hj (lays_expect hj (by simp)) fun closing k _ _ hclosing => .pure ?_
  exact ⟨nested_array hopening hes hclosing.2, hopening.join hclosing.2 hle⟩

/-- The name of an attribute ends with its last word. -/
theorem reaches_attributeName {mark : Token} {first : Ident} {further : List Ident}
    {lo mid mid' : Nat} (hmark : mark.span.Reaches source lo mid)
    (hfirst : first.span.Reaches source mid mid')
    (hfurther : Row source (fun _ => True) Ident.span mid' i.offset further) :
    (⟨mark.start, (further.getLastD first).span.stop⟩ : Span).Reaches source lo i.offset := by
  have hlast : (further.getLastD first).span.stop = i.offset := by
    rw [List.getLastD_eq_getLast?]
    rcases hfurther.ends with ⟨rfl, hend⟩ | ⟨last, hlast, hend⟩
    · rw [hend]
      exact hfirst.ends
    · rw [hlast]
      exact hend
  rw [hlast]
  exact hmark.extend (Nat.le_trans hfirst.le hfurther.le) hi.offset

theorem places_attributeEntry :
    Places source attributeEntry (Property.Nested source) Property.extent i := by
  refine .bind hi (lays_expect hi (by simp)) fun mark j₁ hj₁ _ hmark => ?_
  refine .bind hj₁ (places_word hj₁ _) fun first j₂ hj₂ _ hfirst => ?_
  refine .bind hj₂ (lays_furtherWords hj₂) fun further j₃ hj₃ _ hfurther => ?_
  have hname := reaches_attributeName hj₃ hmark.2 hfirst.2 hfurther
  refine lays_optional_bind hj₃ (by simp) ?_ fun opening j₄ hj₄ _ hopening => ?_
  · -- without arguments, name and value share a span
    refine Lays.pure (a := (_, _)) ?_
    exact ⟨.of_le hname.within (.literal _ hname.within) (Nat.le_refl _) (Nat.le_refl _), hname⟩
  · refine .bind hj₄ (lays_arguments hj₄ hopening) fun value j₅ _ _ hvalue => .pure ?_
    exact nested_property hname hvalue.1 hvalue.2

theorem places_attributeList :
    Places source attributeList (fun b => b.toData.Nested source) Block.span i := by
  have hrun : Places source (do
      let properties ← many attributeEntry
      return ⟨properties, attributesSpan i.offset properties⟩)
      (fun b => b.toData.Nested source) Block.span i :=
    .bind hi (lays_many hi fun _ hj => places_attributeEntry hj) fun _ _ _ _ hps =>
      .pure (nested_attributes hi.offset hps)
  exact hrun

/-! ### Columns -/

theorem lays_brackets {stop : Nat} (hstop : stop = i.offset) :
    Lays (brackets stop) i fun reached r => r.2 = reached := by
  refine lays_optional_bind hi (by simp) (.pure hstop) fun opening j hj _ _ => ?_
  exact .bind hj (lays_expect hj (by simp)) fun _ _ _ _ hclosing => .pure hclosing.2.ends

theorem lays_questionMark {stop : Nat} (hstop : stop = i.offset) :
    Lays (questionMark stop) i fun reached r => r.2 = reached :=
  lays_optional_bind hi (by simp) (.pure hstop) fun _ _ _ _ hmark => .pure hmark.ends

theorem places_column : Places source column (Property.Nested source) Property.extent i := by
  refine .bind hi (places_word hi _) fun key j₁ hj₁ _ hkey => ?_
  refine .bind hj₁ (places_capital hj₁) fun type j₂ hj₂ _ htype => ?_
  refine .bind hj₂ (lays_brackets hj₂ htype.2.ends) fun multiple j₃ hj₃ hle₃ hmultiple => ?_
  refine .bind hj₃ (lays_questionMark hj₃ hmultiple) fun optional j₄ hj₄ hle₄ hoptional => ?_
  refine .bind hj₄ (places_attributeList hj₄) fun attributes j₅ _ _ hattributes => .pure ?_
  have htypeSpan : (⟨type.span.start, optional.2⟩ : Span).Reaches source j₁.offset j₄.offset := by
    rw [hoptional]
    exact htype.2.extend (Nat.le_trans hle₃ hle₄) hj₄.offset
  exact nested_column hkey.2 htypeSpan hattributes.1 hattributes.2

/-! ### Statements -/

theorem lays_mergeMark : Lays mergeMark i fun _ _ => True :=
  lays_optional_bind hi (by simp) (.pure trivial) fun _ _ _ _ _ => .pure trivial

/-- The heading that enums, props, types and models share. -/
theorem lays_heading {kind : Kind} {body : Token → Ident → Bool → Parser Declaration}
    (hbody : ∀ id mergeable mid mid' (j : Input), j.In source →
      i.next.span.Reaches source i.offset mid → id.span.Reaches source mid mid' → mid' ≤ j.offset →
        Lays (body i.next id mergeable) j fun stop d =>
          d.span.start = i.next.start ∧ d.Nested source ∧ d.span.Reaches source i.offset stop) :
    PlacesNext source
      (do
        let start ← keyword kind
        let id ← capital
        let mergeable ← mergeMark
        body start id mergeable) (Declaration.Nested source) Declaration.span i := by
  refine .bind hi (lays_expect hi (by simp)) fun start j₁ hj₁ _ hstart => ?_
  refine .bind hj₁ (places_capital hj₁) fun id j₂ hj₂ _ hid => ?_
  refine .bind hj₂ (lays_mergeMark hj₂) fun mergeable j₃ hj₃ hle _ => ?_
  obtain ⟨rfl, hstart⟩ := hstart
  exact hbody id mergeable _ _ j₃ hj₃ hstart hid.2 hle

theorem places_enumeration :
    PlacesNext source enumeration (Declaration.Nested source) Declaration.span i := by
  refine lays_heading hi fun id mergeable mid mid' j hj hstart hid hle => ?_
  refine .bind hj (places_blockOf hj fun k hk => places_property hk _ fun l hl => places_scalar hl)
    fun init k _ hle' hinit => .pure ⟨rfl, ?_⟩
  have hspan := hinit.2.mono (Nat.le_trans hid.le hle)
  exact nested_declaration hstart hid hinit.1 hspan (Nat.le_trans hle hle')

theorem places_prop :
    PlacesNext source prop (Declaration.Nested source) Declaration.span i := by
  refine lays_heading hi fun id mergeable mid mid' j hj hstart hid hle => ?_
  refine .bind hj (places_object hj) fun init k _ hle' hinit => .pure ⟨rfl, ?_⟩
  have hspan := hinit.2.mono (Nat.le_trans hid.le hle)
  exact nested_declaration hstart hid hinit.1 hspan (Nat.le_trans hle hle')

theorem places_plugin :
    PlacesNext source plugin (Declaration.Nested source) Declaration.span i := by
  refine .bind hi (lays_expect hi (by simp)) fun start j₁ hj₁ _ hstart => ?_
  refine .bind hj₁ (places_string hj₁) fun path j₂ hj₂ hle hpath => ?_
  refine .bind hj₂ (places_object hj₂) fun init j₃ _ hle' hinit => .pure ?_
  obtain ⟨rfl, hstart⟩ := hstart
  have hid : (⟨path.1, path.2⟩ : Ident).span.Reaches source j₁.offset j₂.offset := hpath.2
  exact ⟨rfl, nested_declaration hstart hid hinit.1 (hinit.2.mono hle) hle'⟩

/-- The block of a type or a model begins at its name. -/
theorem places_columned (kind : Kind) :
    PlacesNext source (columned kind) (Declaration.Nested source) Declaration.span i := by
  refine lays_heading hi fun id mergeable mid mid' j hj hstart hid hle => ?_
  refine .bind hj (places_attributeList hj) fun attributes k hk hle' hattributes => ?_
  refine .bind hk (places_blockOf hk fun l hl => places_column hl)
    fun columns l _ hle'' hcolumns => .pure ⟨rfl, ?_⟩
  have hspan := hid.join hcolumns.2 (Nat.le_trans hle hle')
  have hpair := nested_pair "attributes" "columns" hspan.within hattributes.1 hcolumns.1
    hattributes.2 hcolumns.2 (Nat.le_trans hid.start_le hle) hspan.ends
  exact nested_declaration (b := columnedBlock id attributes columns) hstart hid hpair hspan
    (Nat.le_trans hle (Nat.le_trans hle' hle''))

theorem places_declaration (kind : Kind) :
    PlacesNext source (declaration kind) (Declaration.Nested source) Declaration.span i := by
  cases kind with
  | enum => exact places_enumeration hi
  | prop => exact places_prop hi
  | type => exact places_columned hi .type
  | model => exact places_columned hi .model
  | plugin => exact places_plugin hi

theorem places_use : PlacesNext source use (Use.Nested source) Use.span i := by
  refine .bind hi (lays_expect hi (by simp)) fun start j hj _ hstart => ?_
  refine .bind hj (places_string hj) fun path k _ _ hpath => .pure ?_
  obtain ⟨rfl, hstart⟩ := hstart
  have hspan := hstart.join hpath.2 (Nat.le_refl _)
  exact ⟨rfl, ⟨hspan.within, hpath.2.within, Nat.le_trans hstart.start_le hpath.2.behind,
    Nat.le_refl _⟩, hspan⟩

/-- A statement begins with the next token and is nested. -/
theorem places_node : PlacesNext source node (Node.Nested source) Node.span i := by
  have huse : PlacesNext source (do return .use (← use)) (Node.Nested source) Node.span i :=
    .bind hi (places_use hi) fun _ _ _ _ hu => .pure ⟨hu.1, .use hu.2.1, hu.2.2⟩
  have hdeclaration : ∀ kind, PlacesNext source (do return .declaration (← declaration kind))
      (Node.Nested source) Node.span i := fun kind =>
    .bind hi (places_declaration hi kind)
      fun _ _ _ _ hd => .pure ⟨hd.1, .declaration hd.2.1, hd.2.2⟩
  intro n j h
  unfold node at h
  split at h
  · exact huse n j h
  · exact hdeclaration _ n j h
  · cases h

omit hi in
/-- The statements of a source stand one behind the other. -/
theorem lays_statements (source : List Char) :
    Lays (whileNext (· ≠ .endOfInput) node) (Input.ofSource source) fun stop body =>
      Row source (Node.Nested source) Node.span 0 stop body :=
  lays_whileNext (Input.in_ofSource source) (fun _ hj => (places_node hj).imp fun _ _ hn => hn.2) _

end Grammar

/-! ### From text to tree -/

/-- What is read from a source are its statements, and its span takes all of it. -/
theorem statements_of_parseSchema {source : List Char} {s : Schema}
    (h : parseSchema source = .ok s) :
    s.span = ⟨0, byteLength source⟩ ∧
      ∃ j, whileNext (· ≠ .endOfInput) Grammar.node (Input.ofSource source) = (.ok s.body, j) := by
  rw [parseSchema_eq] at h
  rcases hrun : whileNext (· ≠ .endOfInput) Grammar.node (Input.ofSource source) with
    ⟨err | body, j⟩
  · rw [hrun] at h
    cases h
  · rw [hrun] at h
    cases h
    exact ⟨rfl, j, rfl⟩

/-- **The spans of a tree that is read are nested.**  The source takes all of the text; every span
of the tree has its ends in order, within the source and between characters; each part lies within
the part that holds it: name and block in a declaration, path in a request, keys and values in an
object, elements in an array; and the statements of the source, the properties of an object and the
elements of an array stand one behind the other. -/
theorem parseSchema_nested {source : List Char} {s : Schema} (h : parseSchema source = .ok s) :
    s.Nested source := by
  obtain ⟨hspan, j, hrun⟩ := statements_of_parseSchema h
  obtain ⟨-, hrow⟩ := Grammar.lays_statements source s.body j hrun
  refine ⟨hspan, fun n hn => (hrow.within n hn).1, ?_, hrow.ordered⟩
  intro n hn
  obtain ⟨-, hin, -⟩ := hrow.within n hn
  rw [hspan]
  exact ⟨Nat.zero_le _, hin.inside⟩

/-- Attributes with and without arguments, columns with and without attributes, and a block without
columns, behind characters of more than one byte. -/
theorem parseSchema_nested_columns :
    let source := ("use \"ä\" // é\n" ++ "model K! \x7b \x7d\n" ++
      "type A @b.c(1 [2 \x7bd \"ö\"\x7d]) @e \x7b f G[]? @h i J \x7d").toList
    ∃ s, parseSchema source = .ok s ∧ s.body.length = 3 ∧ s.span = ⟨0, 76⟩ ∧ s.Nested source := by
  intro source
  have hread : (parseSchema source).toOption.map (fun s => (s.body.length, s.span)) =
      some (3, ⟨0, 76⟩) := by
    decide +kernel
  rcases hs : parseSchema source with e | s
  · rw [hs] at hread
    cases hread
  · rw [hs] at hread
    obtain ⟨hlength, hspan⟩ := Prod.mk.inj (Option.some.inj hread)
    exact ⟨s, rfl, hlength, hspan, parseSchema_nested hs⟩

end SchemaLang
