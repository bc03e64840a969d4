import SchemaLang.Proofs.Grammar.Reading

/-!
# Parsers in step

The same tokens can stand at other places: blanks and comments between them come and go, or
all of the text is moved.  A parser looks at contents and lexemes only and passes places on to
trees and errors.  So on two inputs with the same tokens it does the same: either both runs
succeed, with trees that are alike and inputs that are alike again, or both fail with errors
that are alike.

How places correspond is told by two functions on positions, one for each run; things are alike
when they become equal by them.  Where places do not matter at all, both functions are constant.

A repetition stops when nothing was read, which it tells by positions.  Since no token is empty,
that is the same as whether a token was read, and so both runs stop together.

## Main definitions

* `Movable`, `Alike` — things with positions, and when two of them correspond.
* `Aligned` — positions that correspond go on corresponding.
* `Input.Alike` — the same tokens are left to read.
* `Parser.InStep` — two parsers do the same on inputs that are alike.

## Main results

* `Parser.InStep.bind`, `Parser.inStep_satisfy`, `Parser.inStep_optional` — the combinators.
* `Parser.inStep_many`, `Parser.inStep_whileNext` — repetition.
-/

namespace SchemaLang

/-! ### Things with positions -/

/-- Things that hold positions. -/
class Movable (α : Type) where
  /-- The thing with its positions changed. -/
  move : (Nat → Nat) → α → α

export Movable (move)

/-- The span with its ends changed. -/
def Span.move (f : Nat → Nat) (s : Span) : Span := ⟨f s.start, f s.stop⟩

instance : Movable Nat := ⟨fun f n => f n⟩

instance : Movable Bool := ⟨fun _ b => b⟩

instance : Movable String := ⟨fun _ s => s⟩

instance : Movable Span := ⟨Span.move⟩

/-- The token with its start changed; its characters stay. -/
def Token.move (f : Nat → Nat) (t : Token) : Token := { t with start := f t.start }

instance : Movable Token := ⟨Token.move⟩

/-- The error with the place of its token changed. -/
def SyntaxError.move (f : Nat → Nat) : SyntaxError → SyntaxError
  | .expecting expected t => .expecting expected (t.move f)
  | .unexpected t => .unexpected (t.move f)

instance : Movable SyntaxError := ⟨SyntaxError.move⟩

instance : Movable Ident := ⟨fun f id => id.mapSpan (.move f)⟩

instance : Movable Data := ⟨fun f t => t.mapSpans (.move f)⟩

instance : Movable Block := ⟨fun f b => b.mapSpans (.move f)⟩

instance : Movable Declaration := ⟨fun f d => d.mapSpans (.move f)⟩

instance : Movable Use := ⟨fun f u => u.mapSpans (.move f)⟩

instance : Movable Node := ⟨fun f n => n.mapSpans (.move f)⟩

instance : Movable Schema := ⟨fun f s => s.mapSpans (.move f)⟩

variable {α β : Type}

instance [Movable α] : Movable (List α) := ⟨fun f => List.map (move f)⟩

instance [Movable α] : Movable (Option α) := ⟨fun f => Option.map (move f)⟩

instance [Movable α] [Movable β] : Movable (α × β) := ⟨fun f p => (move f p.1, move f p.2)⟩

/-- Two things correspond: each, moved by the function of its side, is the same. -/
def Alike [Movable α] (f g : Nat → Nat) (a a' : α) : Prop := move f a = move g a'

/-- Positions that correspond do so after the same number of bytes, and so does the greater of
two. -/
structure Aligned (f g : Nat → Nat) : Prop where
  /-- After the same number of bytes. -/
  add : ∀ {a b : Nat} (n : Nat), f a = g b → f (a + n) = g (b + n)
  /-- The greater of two positions. -/
  max : ∀ {a b c d : Nat}, f a = g b → f c = g d → f (max a c) = g (max b d)

/-- Where places do not matter, all positions correspond. -/
theorem aligned_const : Aligned (fun _ => 0) (fun _ => 0) :=
  ⟨fun _ _ => rfl, fun _ _ => rfl⟩

variable {f g : Nat → Nat}

/-! ### Things that are alike -/

namespace Alike

section

variable [Movable α] [Movable β]

theorem prod {a a' : α} {b b' : β} (h : Alike f g a a') (h' : Alike f g b b') :
    Alike f g (a, b) (a', b') :=
  congrArg₂ Prod.mk h h'

theorem fst {p p' : α × β} (h : Alike f g p p') : Alike f g p.1 p'.1 := congrArg Prod.fst h

theorem snd {p p' : α × β} (h : Alike f g p p') : Alike f g p.2 p'.2 := congrArg Prod.snd h

theorem option {o o' : Option α} (h : Alike f g o o') :
    (o = none ∧ o' = none) ∨ ∃ a a', o = some a ∧ o' = some a' ∧ Alike f g a a' := by
  cases o with
  | none =>
    cases o' with
    | none => exact .inl ⟨rfl, rfl⟩
    | some a' => cases h
  | some a =>
    cases o' with
    | none => cases h
    | some a' => exact .inr ⟨a, a', rfl, rfl, Option.some.inj h⟩

theorem nil : Alike f g ([] : List α) [] := rfl

theorem cons {a a' : α} {as as' : List α} (h : Alike f g a a') (h' : Alike f g as as') :
    Alike f g (a :: as) (a' :: as') :=
  congrArg₂ List.cons h h'

theorem head? {as as' : List α} (h : Alike f g as as') : Alike f g as.head? as'.head? := by
  have hhead : (as.map (move f)).head? = (as'.map (move g)).head? := congrArg List.head? h
  rwa [List.head?_map, List.head?_map] at hhead

theorem getLast? {as as' : List α} (h : Alike f g as as') :
    Alike f g as.getLast? as'.getLast? := by
  have hlast : (as.map (move f)).getLast? = (as'.map (move g)).getLast? :=
    congrArg List.getLast? h
  rwa [List.getLast?_map, List.getLast?_map] at hlast

theorem length {as as' : List α} (h : Alike f g as as') : as.length = as'.length := by
  have hlength : (as.map (move f)).length = (as'.map (move g)).length := congrArg List.length h
  rwa [List.length_map, List.length_map] at hlength

end

theorem token {t t' : Token} (h : Alike f g t t') :
    t.content = t'.content ∧ t.lexeme = t'.lexeme ∧ f t.start = g t'.start := by
  obtain ⟨content, lexeme, start⟩ := t
  obtain ⟨content', lexeme', start'⟩ := t'
  exact Token.mk.inj h

theorem category {t t' : Token} (h : Alike f g t t') : t.category = t'.category :=
  congrArg Content.category h.token.1

theorem text {t t' : Token} (h : Alike f g t t') : t.text = t'.text :=
  congrArg String.ofList h.token.2.1

theorem start {t t' : Token} (h : Alike f g t t') : f t.start = g t'.start := h.token.2.2

theorem stop (ha : Aligned f g) {t t' : Token} (h : Alike f g t t') : f t.stop = g t'.stop := by
  rw [Token.stop, Token.stop, h.token.2.1]
  exact ha.add _ h.start

theorem span {a b c d : Nat} (h : f a = g b) (h' : f c = g d) :
    Alike f g (⟨a, c⟩ : Span) ⟨b, d⟩ :=
  congrArg₂ Span.mk h h'

theorem spanOf (ha : Aligned f g) {t t' : Token} (h : Alike f g t t') :
    Alike f g t.span t'.span :=
  span h.start (h.stop ha)

theorem span_start {s s' : Span} (h : Alike f g s s') : f s.start = g s'.start :=
  congrArg Span.start h

theorem span_stop {s s' : Span} (h : Alike f g s s') : f s.stop = g s'.stop :=
  congrArg Span.stop h

end Alike

/-! ### Inputs -/

namespace Input

/-- The same tokens are left to read, at places that correspond. -/
structure Alike (f g : Nat → Nat) (i i' : Input) : Prop where
  valid : i.Valid
  valid' : i'.Valid
  tokens : SchemaLang.Alike f g i.tokens i'.tokens
  offset : f i.offset = g i'.offset
  size : f i.size = g i'.size

/-- Nothing was read, or a token at least. -/
def Passes (i j : Input) : Prop :=
  j = i ∨ j.tokens.length < i.tokens.length ∧ j.left < i.left

theorem Passes.trans {i j k : Input} (h : i.Passes j) (h' : j.Passes k) : i.Passes k := by
  rcases h with rfl | h
  · exact h'
  · rcases h' with rfl | h'
    · exact .inr h
    · exact .inr ⟨Nat.lt_trans h'.1 h.1, Nat.lt_trans h'.2 h.2⟩

/-- Fewer bytes are left exactly if fewer tokens are. -/
theorem Passes.left_lt_iff {i j : Input} (h : i.Passes j) :
    j.left < i.left ↔ j.tokens.length < i.tokens.length := by
  rcases h with rfl | ⟨htokens, hleft⟩
  · simp
  · exact ⟨fun _ => htokens, fun _ => hleft⟩

theorem exists_tokens_of_content {i : Input} (h : i.next.content ≠ .endOfInput) :
    ∃ t ts, i.tokens = t :: ts := by
  cases htokens : i.tokens with
  | nil =>
    refine absurd ?_ h
    rw [next, htokens]
    rfl
  | cons t ts => exact ⟨t, ts, rfl⟩

theorem passes_advance {i : Input} (hi : i.Valid) (h : i.next.content ≠ .endOfInput) :
    i.Passes i.advance := by
  obtain ⟨t, ts, ht⟩ := exists_tokens_of_content h
  have hleft := (reads_advance hi ht).left
  refine .inr ⟨?_, ?_⟩
  · simp [advance, ht]
  · rwa [List.length_singleton] at hleft

namespace Alike

variable {i i' : Input}

theorem length_tokens (h : i.Alike f g i') : i.tokens.length = i'.tokens.length := h.tokens.length

theorem next (h : i.Alike f g i') : SchemaLang.Alike f g i.next i'.next := by
  have htokens := h.tokens
  rw [Input.next, Input.next]
  cases hi : i.tokens with
  | nil =>
    rw [hi] at htokens
    cases hi' : i'.tokens with
    | nil => exact congrArg (Token.mk .endOfInput []) h.size
    | cons t' ts' =>
      rw [hi'] at htokens
      cases htokens
  | cons t ts =>
    rw [hi] at htokens
    cases hi' : i'.tokens with
    | nil =>
      rw [hi'] at htokens
      cases htokens
    | cons t' ts' =>
      rw [hi'] at htokens
      exact (List.cons.inj htokens).1

theorem content (h : i.Alike f g i') : i.next.content = i'.next.content := h.next.token.1

theorem advance (ha : Aligned f g) (h : i.Alike f g i') (hc : i.next.content ≠ .endOfInput) :
    i.advance.Alike f g i'.advance := by
  obtain ⟨t, ts, ht⟩ := exists_tokens_of_content hc
  obtain ⟨t', ts', ht'⟩ := exists_tokens_of_content (h.content ▸ hc)
  have htokens := h.tokens
  rw [ht, ht'] at htokens
  refine ⟨(reads_advance h.valid ht).valid, (reads_advance h.valid' ht').valid, ?_,
    h.next.stop ha, h.size⟩
  simp only [Input.advance, ht, ht', List.tail_cons]
  exact (List.cons.inj htokens).2

end Alike

end Input

/-! ### Runs -/

/-- What two runs come to: both succeed, or both fail. -/
inductive Outcome [Movable α] (f g : Nat → Nat) (i i' : Input) :
    Except SyntaxError α × Input → Except SyntaxError α × Input → Prop where
  | ok {a a' : α} {j j' : Input} (alike : Alike f g a a') (inputs : j.Alike f g j')
    (passes : i.Passes j) (passes' : i'.Passes j') : Outcome f g i i' (.ok a, j) (.ok a', j')
  | error {e e' : SyntaxError} {j j' : Input} (alike : Alike f g e e') :
    Outcome f g i i' (.error e, j) (.error e', j')

namespace Parser

/-- Two parsers do the same on inputs that are alike. -/
def InStep [Movable α] (f g : Nat → Nat) (p p' : Parser α) : Prop :=
  ∀ i i', i.Alike f g i' → Outcome f g i i' (p i) (p' i')

section

variable [Movable α] [Movable β] {p p' : Parser α}

theorem InStep.pure {a a' : α} (h : Alike f g a a') :
    InStep f g (Pure.pure a) (Pure.pure a') :=
  fun _ _ hi => .ok h hi (.inl rfl) (.inl rfl)

theorem InStep.bind {q q' : α → Parser β} (hp : InStep f g p p')
    (hq : ∀ a a', Alike f g a a' → InStep f g (q a) (q' a')) :
    InStep f g (p >>= q) (p' >>= q') := by
  intro i i' hi
  have hfirst := hp i i' hi
  rw [bind_apply, bind_apply]
  generalize p i = r at hfirst ⊢
  generalize p' i' = r' at hfirst ⊢
  cases hfirst with
  | error he => exact .error he
  | @ok a a' j j' hx hj hpass hpass' =>
    have hsecond := hq a a' hx j j' hj
    simp only
    generalize q a j = r at hsecond ⊢
    generalize q' a' j' = r' at hsecond ⊢
    cases hsecond with
    | error he => exact .error he
    | ok hy hk hpass₂ hpass₂' => exact .ok hy hk (hpass.trans hpass₂) (hpass'.trans hpass₂')

end

/-! ### Single tokens -/

theorem inStep_satisfy (ha : Aligned f g) {accept : Token → Bool} (expected : String)
    (hcontent : ∀ t t' : Token, t.content = t'.content → accept t = accept t')
    (hend : ∀ t : Token, accept t = true → t.content ≠ .endOfInput) :
    InStep f g (satisfy accept expected) (satisfy accept expected) := by
  intro i i' hi
  have hsame := hcontent _ _ hi.content
  unfold satisfy
  by_cases hnext : accept i.next = true
  · have hnext' : accept i'.next = true := hsame ▸ hnext
    rw [if_pos hnext, if_pos hnext']
    exact .ok hi.next (hi.advance ha (hend _ hnext)) (Input.passes_advance hi.valid (hend _ hnext))
      (Input.passes_advance hi.valid' (hend _ hnext'))
  · have hnext' : ¬ accept i'.next = true := hsame ▸ hnext
    rw [if_neg hnext, if_neg hnext']
    exact .error (congrArg (SyntaxError.expecting expected) hi.next)

theorem inStep_expect (ha : Aligned f g) {category : Category} (hend : category ≠ .endOfInput) :
    InStep f g (expect category) (expect category) := by
  refine inStep_satisfy ha _ ?_ ?_
  · intro t t' h
    rw [Token.category, Token.category, h]
  · intro t ht hcontent
    have hcategory : t.category = category := by simpa using ht
    rw [Token.category, hcontent] at hcategory
    exact hend hcategory.symm

theorem inStep_optional (ha : Aligned f g) {category : Category} (hend : category ≠ .endOfInput) :
    InStep f g (optional category) (optional category) := by
  intro i i' hi
  have hexpect := inStep_expect ha hend i i' hi
  unfold optional
  generalize expect category i = r at hexpect ⊢
  generalize expect category i' = r' at hexpect ⊢
  cases hexpect with
  | error _ => exact .ok rfl hi (.inl rfl) (.inl rfl)
  | ok ht hj hpass hpass' => exact .ok (congrArg some ht) hj hpass hpass'

/-- A name and where it stands, from a token. -/
theorem alike_ident (ha : Aligned f g) {t t' : Token} (h : Alike f g t t') :
    Alike f g (⟨t.text, t.span⟩ : Ident) ⟨t'.text, t'.span⟩ :=
  congrArg₂ Ident.mk h.text (h.spanOf ha)

theorem inStep_word (ha : Aligned f g) (expected : String) :
    InStep f g (word expected) (word expected) := by
  refine .bind (inStep_satisfy ha _ ?_ ?_) fun t t' ht => .pure (alike_ident ha ht)
  · intro t t' h
    rw [Token.category, Token.category, h]
  · intro t ht hcontent
    rw [Token.category, hcontent] at ht
    cases ht

theorem inStep_capital (ha : Aligned f g) : InStep f g capital capital :=
  .bind (inStep_expect ha (by simp)) fun _ _ ht => .pure (alike_ident ha ht)

theorem inStep_string (ha : Aligned f g) : InStep f g string string := by
  refine .bind (inStep_expect ha (by simp)) fun t t' ht => .pure (.prod ?_ (ht.spanOf ha))
  show stringValue t = stringValue t'
  rw [stringValue, stringValue, ht.token.1]

/-! ### Repetition -/

section

variable [Movable α] {p p' : Parser α}

/-- Both repetitions go on or stop together: a token was read in both runs or in none. -/
theorem inStep_collect (hp : InStep f g p p') {i i' : Input} (hi : i.Alike f g i') :
    Alike f g (collect p i).1 (collect p' i').1 ∧
      (collect p i).2.Alike f g (collect p' i').2 ∧
      i.Passes (collect p i).2 ∧ i'.Passes (collect p' i').2 := by
  induction hn : i.tokens.length using Nat.strongRecOn generalizing i i' with
  | ind n ih =>
    have hrun := hp i i' hi
    rw [collect, collect]
    generalize p i = r at hrun ⊢
    generalize p' i' = r' at hrun ⊢
    cases hrun with
    | error _ => exact ⟨.nil, hi, .inl rfl, .inl rfl⟩
    | @ok a a' j j' hx hj hpass hpass' =>
      simp only [hpass.left_lt_iff, hpass'.left_lt_iff, ← hi.length_tokens, ← hj.length_tokens]
      by_cases hlt : j.tokens.length < i.tokens.length
      · rw [if_pos hlt, if_pos hlt]
        obtain ⟨hlist, hinput, hpass₂, hpass₂'⟩ := ih _ (hn ▸ hlt) hj rfl
        exact ⟨.cons hx hlist, hinput, hpass.trans hpass₂, hpass'.trans hpass₂'⟩
      · rw [if_neg hlt, if_neg hlt]
        exact ⟨.cons hx .nil, hj, hpass, hpass'⟩

theorem inStep_many (hp : InStep f g p p') : InStep f g (many p) (many p') := by
  intro i i' hi
  obtain ⟨hlist, hinput, hpass, hpass'⟩ := inStep_collect hp hi
  exact .ok hlist hinput hpass hpass'

theorem inStep_whileNext (accept : Category → Bool) (hp : InStep f g p p') :
    InStep f g (whileNext accept p) (whileNext accept p') := by
  intro i i' hi
  induction hn : i.tokens.length using Nat.strongRecOn generalizing i i' with
  | ind n ih =>
    have hrun := hp i i' hi
    have hcategory := hi.next.category
    rw [whileNext, whileNext, ← hcategory]
    by_cases haccept : accept i.next.category = true
    · rw [if_pos haccept, if_pos haccept]
      generalize p i = r at hrun ⊢
      generalize p' i' = r' at hrun ⊢
      cases hrun with
      | error he => exact .error he
      | @ok a a' j j' hx hj hpass hpass' =>
        simp only [hpass.left_lt_iff, hpass'.left_lt_iff, ← hi.length_tokens, ← hj.length_tokens]
        by_cases hlt : j.tokens.length < i.tokens.length
        · rw [if_pos hlt, if_pos hlt]
          have hrest := ih _ (hn ▸ hlt) j j' hj rfl
          generalize whileNext accept p j = r at hrest ⊢
          generalize whileNext accept p' j' = r' at hrest ⊢
          cases hrest with
          | error he => exact .error he
          | ok hy hk hpass₂ hpass₂' =>
            exact .ok (.cons hx hy) hk (hpass.trans hpass₂) (hpass'.trans hpass₂')
        · rw [if_neg hlt, if_neg hlt]
          exact .ok (.cons hx .nil) hj hpass hpass'
    · rw [if_neg haccept, if_neg haccept]
      exact .ok .nil hi (.inl rfl) (.inl rfl)

end

end Parser

end SchemaLang
