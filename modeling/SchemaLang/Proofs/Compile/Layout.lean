import SchemaLang.Proofs.Compile.Failure
import SchemaLang.Proofs.Grammar.Layout

/-!
# Layout does not matter

Two sources with the same tokens but for blanks and comments are read to trees that differ in
spans only.  Compiling passes spans on to errors and to nothing else, and resolving has none.
So the two sources have the same configuration and the same final form, or fail in the same way
at places of their own.

## Main definitions

* `Error.move` — an error with its place changed.
* `SameButPlace` — the same result, or errors that differ in their place only.

## Main results

* `layout_irrelevant` — **the configuration, the final form and the tree of a source do not
  depend on its layout.**
-/

namespace SchemaLang

/-! ### Errors and their places -/

/-- The error with its place changed. -/
def ImportError.move (f : Nat → Nat) : ImportError → ImportError
  | .notFound path s => .notFound path (s.move f)
  | .circular chain s => .circular chain (s.move f)

/-- The error with its place changed. -/
def Error.move (f : Nat → Nat) : Error → Error
  | .parse unit e => .parse unit (e.move f)
  | .compile e => .compile (e.mapSpans (.move f))
  | .expand e => .expand (e.move f)

theorem Error.code_move (f : Nat → Nat) (e : Error) : (e.move f).code = e.code := by
  cases e with
  | parse unit e => cases e <;> rfl
  | compile e => cases e <;> rfl
  | expand e => cases e <;> rfl

theorem Error.message_move (f : Nat → Nat) (e : Error) : (e.move f).message = e.message := by
  cases e with
  | parse unit e => cases e <;> rfl
  | compile e => cases e <;> rfl
  | expand e => cases e <;> rfl

/-- Both are the same result, or errors of the same kind with the same message, which differ in
their place only. -/
def SameButPlace {α : Type} (x x' : Except Error α) : Prop :=
  (∃ a, x = .ok a ∧ x' = .ok a) ∨
    ∃ e e', x = .error e ∧ x' = .error e' ∧ e.code = e'.code ∧ e.message = e'.message ∧
      e.move (fun _ => 0) = e'.move (fun _ => 0)

namespace SameButPlace

variable {α β : Type} {x x' : Except Error α}

theorem refl (x : Except Error α) : SameButPlace x x := by
  cases x with
  | error e => exact .inr ⟨e, e, rfl, rfl, rfl, rfl, rfl⟩
  | ok a => exact .inl ⟨a, rfl, rfl⟩

theorem of_move {e e' : Error} (h : e.move (fun _ => 0) = e'.move (fun _ => 0)) :
    SameButPlace (.error e : Except Error α) (.error e') := by
  refine .inr ⟨e, e', rfl, rfl, ?_, ?_, h⟩
  · rw [← Error.code_move (fun _ => 0) e, h, Error.code_move]
  · rw [← Error.message_move (fun _ => 0) e, h, Error.message_move]

theorem bind (h : SameButPlace x x') (g : α → Except Error β) :
    SameButPlace (x.bind g) (x'.bind g) := by
  rcases h with ⟨a, rfl, rfl⟩ | ⟨e, e', rfl, rfl, -, -, he⟩
  · exact refl (g a)
  · exact of_move he

end SameButPlace

/-! ### Configurations -/

/-- Trees that differ in spans only compile to the same configuration, or to errors that differ
in their place only. -/
theorem sameButPlace_compile (environment : Entries String) {s s' : Schema}
    (h : s.mapSpans Span.forget = s'.mapSpans Span.forget) :
    SameButPlace ((compileSchema environment s).map (·.config))
      ((compileSchema environment s').map (·.config)) := by
  have hschema := congrArg (Context.schema ⟨environment, none⟩) h
  rw [Context.schema_mapSpans, Context.schema_mapSpans] at hschema
  unfold compileSchema
  cases hs : Context.schema ⟨environment, none⟩ s with
  | ok c =>
    cases hs' : Context.schema ⟨environment, none⟩ s' with
    | ok c' =>
      rw [hs, hs'] at hschema
      cases hschema
      exact .refl _
    | error e' =>
      rw [hs, hs'] at hschema
      cases hschema
  | error e =>
    cases hs' : Context.schema ⟨environment, none⟩ s' with
    | ok c' =>
      rw [hs, hs'] at hschema
      cases hschema
    | error e' =>
      rw [hs, hs'] at hschema
      exact .of_move (congrArg Error.compile (Except.error.inj hschema))

theorem sameButPlace_parse (environment : Entries String) {source source' : List Char}
    (h : codeTokens source = codeTokens source') :
    SameButPlace (parse environment source) (parse environment source') := by
  unfold parse analyze readUnit
  rcases parseSchema_inStep aligned_const (alike_of_codeTokens_eq h) with
    ⟨s, s', hs, hs', htree⟩ | ⟨e, e', he, he', herror⟩
  · rw [hs, hs']
    exact sameButPlace_compile environment htree
  · rw [he, he']
    exact .of_move (congrArg (Error.parse defaultUnit) herror)

/-- **Layout does not matter.**  Two sources whose tokens are the same but for blanks and
comments have the same configuration and the same final form, or errors of the same kind with
the same message; and if one has a tree, so has the other, and they differ in spans only. -/
theorem layout_irrelevant (environment : Entries String) (source source' : List Char)
    (h : codeTokens source = codeTokens source') :
    SameButPlace (parse environment source) (parse environment source') ∧
    SameButPlace (final environment source) (final environment source') ∧
    ((∃ s s', parseSchema source = .ok s ∧ parseSchema source' = .ok s' ∧
        s.mapSpans Span.forget = s'.mapSpans Span.forget) ∨
      ∃ e e', parseSchema source = .error e ∧ parseSchema source' = .error e' ∧
        e.code = e'.code ∧ e.message = e'.message) := by
  have hparse := sameButPlace_parse environment h
  refine ⟨hparse, hparse.bind finalize, ?_⟩
  rcases parseSchema_inStep aligned_const (alike_of_codeTokens_eq h) with
    ⟨s, s', hs, hs', htree⟩ | ⟨e, e', he, he', herror⟩
  · exact .inl ⟨s, s', hs, hs', htree⟩
  · have hmoved : (Error.parse "" e).move (fun _ => 0) = (Error.parse "" e').move (fun _ => 0) :=
      congrArg (Error.parse "") herror
    refine .inr ⟨e, e', he, he', ?_, ?_⟩
    · have hcode := congrArg Error.code hmoved
      rwa [Error.code_move, Error.code_move] at hcode
    · have hmessage := congrArg Error.message hmoved
      rwa [Error.message_move, Error.message_move] at hmessage

theorem layout_irrelevant_comments :
    let source := "model M \x7b a T[]? @x.y(1 \"$\") \x7d".toList
    let source' := "// m\nmodel M\x7ba T [ ] ?@ x . /* y */ y ( 1\"$\")\x7d ".toList
    codeTokens source = codeTokens source' ∧
      SameButPlace (parse [] source) (parse [] source') ∧
      SameButPlace (final [] source) (final [] source') := by
  intro source source'
  have hcode : codeTokens source = codeTokens source' := by decide +kernel
  obtain ⟨hparse, hfinal, -⟩ := layout_irrelevant [] source source' hcode
  exact ⟨hcode, hparse, hfinal⟩

end SchemaLang
