import SchemaLang.Proofs.Grammar.InStep
import SchemaLang.Proofs.Grammar.Schema

/-!
# Layout does not matter to the grammar

Every reader of the grammar keeps step with itself: on inputs with the same tokens it returns
trees that differ in places only, or errors about the same token.  So what is read from a
source depends on the tokens that are code, and not on the blanks and comments between them.

## Main results

* `Grammar.inStep_data`, `Grammar.inStep_declaration`, `Grammar.inStep_node` — the readers.
* `parseSchema_inStep` — **whole sources.**
-/

namespace SchemaLang

variable {f g : Nat → Nat}

/-! ### Trees that are alike -/

namespace Alike

theorem ident_name {x x' : Ident} (h : Alike f g x x') : x.name = x'.name := by
  have hname : (move f x).name = (move g x').name := congrArg Ident.name h
  exact hname

theorem ident_span {x x' : Ident} (h : Alike f g x x') : Alike f g x.span x'.span :=
  congrArg Ident.span h

theorem ident {name name' : String} {s s' : Span} (hname : name = name') (h : Alike f g s s') :
    Alike f g (⟨name, s⟩ : Ident) ⟨name', s'⟩ :=
  congrArg₂ Ident.mk hname h

theorem literal (v : Literal) {s s' : Span} (h : Alike f g s s') :
    Alike f g (Data.literal v s) (.literal v s') :=
  congrArg (Data.literal v) h

theorem array {es es' : List Data} {s s' : Span} (hes : Alike f g es es') (hs : Alike f g s s') :
    Alike f g (Data.array es s) (.array es' s') := by
  show Data.mapSpans (.move f) (.array es s) = Data.mapSpans (.move g) (.array es' s')
  rw [Data.mapSpans_array, Data.mapSpans_array]
  exact congrArg₂ Data.array hes hs

theorem block {ps ps' : List Property} {s s' : Span} (hps : Alike f g ps ps')
    (hs : Alike f g s s') : Alike f g (⟨ps, s⟩ : Block) ⟨ps', s'⟩ :=
  congrArg₂ Block.mk hps hs

theorem block_span {b b' : Block} (h : Alike f g b b') : Alike f g b.span b'.span :=
  congrArg Block.span h

theorem toData {b b' : Block} (h : Alike f g b b') : Alike f g b.toData b'.toData := by
  show b.toData.mapSpans (.move f) = b'.toData.mapSpans (.move g)
  rw [← Block.toData_mapSpans, ← Block.toData_mapSpans]
  exact congrArg Block.toData h

theorem data_span {t t' : Data} (h : Alike f g t t') : Alike f g t.span t'.span := by
  have hspan : (t.mapSpans (.move f)).span = (t'.mapSpans (.move g)).span := congrArg Data.span h
  rwa [Data.span_mapSpans, Data.span_mapSpans] at hspan

theorem declaration {kind : Kind} {mergeable mergeable' : Bool} {id id' : Ident} {b b' : Block}
    {s s' : Span} (hm : mergeable = mergeable') (hid : Alike f g id id') (hb : Alike f g b b')
    (hs : Alike f g s s') :
    Alike f g (⟨kind, mergeable, id, b, s⟩ : Declaration) ⟨kind, mergeable', id', b', s'⟩ := by
  subst hm
  show Declaration.mk kind mergeable (move f id) (move f b) (move f s) =
    Declaration.mk kind mergeable (move g id') (move g b') (move g s')
  rw [hid, hb, hs]

theorem useNode {u u' : Use} (h : Alike f g u u') : Alike f g (Node.use u) (.use u') :=
  congrArg Node.use h

theorem declarationNode {d d' : Declaration} (h : Alike f g d d') :
    Alike f g (Node.declaration d) (.declaration d') :=
  congrArg Node.declaration h

end Alike

namespace Grammar

open SchemaLang.Parser

variable (ha : Aligned f g)

include ha

/-! ### Data -/

theorem inStep_scalar : InStep f g scalar scalar := by
  intro i i' hi
  unfold scalar
  rw [hi.content]
  cases hv : literal? i'.next.content with
  | none => exact .error (congrArg (SyntaxError.expecting "a value") hi.next)
  | some v =>
    have hend : i'.next.content ≠ .endOfInput := by
      intro hc
      rw [hc] at hv
      cases hv
    have hend' := hi.content ▸ hend
    exact .ok (.literal v (hi.next.spanOf ha)) (hi.advance ha hend')
      (Input.passes_advance hi.valid hend') (Input.passes_advance hi.valid' hend)

theorem inStep_mark (mark : Punct) : InStep f g (expect (.punct mark)) (expect (.punct mark)) :=
  inStep_expect ha (by simp)

theorem inStep_reference : InStep f g reference reference :=
  .bind (inStep_capital ha) fun _ _ hid => .pure (congrArg Data.reference hid)

theorem inStep_environment : InStep f g environment environment := by
  refine .bind (inStep_expect ha (by simp)) fun keyword keyword' hkeyword => ?_
  refine .bind (inStep_mark ha _) fun _ _ _ => ?_
  refine .bind (inStep_string ha) fun name name' hname => ?_
  refine .bind (inStep_mark ha _) fun close close' hclose => .pure ?_
  have hspan := Alike.span hkeyword.start (hclose.stop ha)
  exact congrArg₂ Data.environment hname.fst hspan

theorem inStep_property (expected : String) {value value' : Parser Data}
    (hvalue : InStep f g value value') :
    InStep f g (property expected value) (property expected value') := by
  refine .bind (inStep_word ha expected) fun key key' hkey => ?_
  exact .bind hvalue fun v v' hv => .pure (.prod hkey hv)

theorem inStep_blockOf {entry entry' : Parser Property} (hentry : InStep f g entry entry') :
    InStep f g (blockOf entry) (blockOf entry') := by
  refine .bind (inStep_mark ha _) fun opening opening' hopening => ?_
  refine .bind (inStep_many hentry) fun ps ps' hps => ?_
  refine .bind (inStep_mark ha _) fun closing closing' hclosing => .pure ?_
  exact .block hps (.span hopening.start (hclosing.stop ha))

theorem inStep_arrayOf {item item' : Parser Data} (hitem : InStep f g item item') :
    InStep f g (arrayOf item) (arrayOf item') := by
  refine .bind (inStep_mark ha _) fun opening opening' hopening => ?_
  refine .bind (inStep_many hitem) fun es es' hes => ?_
  refine .bind (inStep_mark ha _) fun closing closing' hclosing => .pure ?_
  exact .array hes (.span hopening.start (hclosing.stop ha))

theorem inStep_objectOf {item item' : Parser Data} (hitem : InStep f g item item') :
    InStep f g (objectOf item) (objectOf item') :=
  inStep_blockOf ha (inStep_property ha _ hitem)

/-- Which form data has is told by the next content. -/
theorem inStep_dataOf {item item' : Parser Data} (hitem : InStep f g item item') :
    InStep f g (dataOf item) (dataOf item') := by
  intro i i' hi
  unfold dataOf
  rw [hi.content]
  split
  · exact (InStep.bind (inStep_objectOf ha hitem) fun b b' hb => .pure hb.toData) i i' hi
  · exact inStep_arrayOf ha hitem i i' hi
  · split
    · exact inStep_environment ha i i' hi
    · exact inStep_scalar ha i i' hi
  · exact inStep_reference ha i i' hi
  · exact inStep_scalar ha i i' hi

theorem inStep_dataWithin (depth : Nat) : InStep f g (dataWithin depth) (dataWithin depth) := by
  induction depth with
  | zero => exact inStep_scalar ha
  | succ depth ih => exact inStep_dataOf ha ih

theorem inStep_data : InStep f g data data := by
  intro i i' hi
  unfold data
  rw [hi.length_tokens]
  exact inStep_dataWithin ha _ i i' hi

theorem inStep_object : InStep f g object object := inStep_objectOf ha (inStep_data ha)

/-! ### Attributes -/

theorem inStep_furtherWords : InStep f g furtherWords furtherWords := by
  refine inStep_whileNext _ ?_
  exact .bind (inStep_mark ha _) fun _ _ _ => inStep_word ha _

omit ha in
theorem dottedName_alike {first first' : Ident} {further further' : List Ident}
    (hfirst : Alike f g first first') (hfurther : Alike f g further further') :
    dottedName first further = dottedName first' further' := by
  have hnames : further.map (·.name) = further'.map (·.name) := by
    have hmap := congrArg (List.map (·.name)) hfurther
    simpa [move, Function.comp_def] using hmap
  rw [dottedName_eq_intercalate, dottedName_eq_intercalate, hnames, hfirst.ident_name]

omit ha in
/-- The last word, or the first where there are no further ones. -/
theorem getLastD_alike {first first' : Ident} {further further' : List Ident}
    (hfirst : Alike f g first first') (hfurther : Alike f g further further') :
    Alike f g (further.getLastD first) (further'.getLastD first') := by
  rw [List.getLastD_eq_getLast?, List.getLastD_eq_getLast?]
  rcases hfurther.getLast?.option with ⟨h, h'⟩ | ⟨last, last', h, h', hlast⟩
  · rw [h, h']
    exact hfirst
  · rw [h, h']
    exact hlast

theorem inStep_arguments {opening opening' : Token} (hopening : Alike f g opening opening') :
    InStep f g (arguments opening) (arguments opening') := by
  refine .bind (inStep_many (inStep_data ha)) fun es es' hes => ?_
  refine .bind (inStep_mark ha _) fun closing closing' hclosing => .pure ?_
  exact .array hes (.span hopening.start (hclosing.stop ha))

theorem inStep_attributeEntry : InStep f g attributeEntry attributeEntry := by
  refine .bind (inStep_mark ha _) fun mark mark' hmark => ?_
  refine .bind (inStep_word ha _) fun first first' hfirst => ?_
  refine .bind (inStep_furtherWords ha) fun further further' hfurther => ?_
  have hspan := Alike.span hmark.start (getLastD_alike hfirst hfurther).ident_span.span_stop
  have hname := Alike.ident (dottedName_alike hfirst hfurther) hspan
  refine .bind (inStep_optional ha (by simp)) fun opening opening' hopening => ?_
  rcases hopening.option with ⟨rfl, rfl⟩ | ⟨t, t', rfl, rfl, ht⟩
  · exact .bind (.pure (.literal _ hspan)) fun value value' hvalue => .pure (.prod hname hvalue)
  · exact .bind (inStep_arguments ha ht) fun value value' hvalue => .pure (.prod hname hvalue)

omit ha in
theorem attributesSpan_alike {start start' : Nat} {ps ps' : List Property}
    (hstart : f start = g start') (hps : Alike f g ps ps') :
    Alike f g (attributesSpan start ps) (attributesSpan start' ps') := by
  unfold attributesSpan
  rcases hps.head?.option with ⟨h, h'⟩ | ⟨first, first', h, h', hfirst⟩
  · rw [h, h']
    exact .span hstart hstart
  · rw [h, h']
    rcases hps.getLast?.option with ⟨hl, hl'⟩ | ⟨last, last', hl, hl', hlast⟩
    · rw [hl, hl']
      exact .span hstart hstart
    · rw [hl, hl']
      exact .span hfirst.fst.ident_span.span_start hlast.snd.data_span.span_stop

theorem inStep_attributeList : InStep f g attributeList attributeList := by
  intro i i' hi
  refine InStep.bind (inStep_many (inStep_attributeEntry ha)) (fun ps ps' hps => .pure ?_) i i' hi
  exact .block hps (attributesSpan_alike hi.offset hps)

/-! ### Columns -/

theorem inStep_brackets {stop stop' : Nat} (hstop : f stop = g stop') :
    InStep f g (brackets stop) (brackets stop') := by
  refine .bind (inStep_optional ha (by simp)) fun opening opening' hopening => ?_
  rcases hopening.option with ⟨rfl, rfl⟩ | ⟨t, t', rfl, rfl, -⟩
  · exact .pure (.prod rfl hstop)
  · exact .bind (inStep_mark ha _) fun closing closing' hclosing =>
      .pure (.prod rfl (hclosing.stop ha))

theorem inStep_questionMark {stop stop' : Nat} (hstop : f stop = g stop') :
    InStep f g (questionMark stop) (questionMark stop') := by
  refine .bind (inStep_optional ha (by simp)) fun mark mark' hmark => ?_
  rcases hmark.option with ⟨rfl, rfl⟩ | ⟨t, t', rfl, rfl, ht⟩
  · exact .pure (.prod rfl hstop)
  · exact .pure (.prod rfl (ht.stop ha))

theorem columnProperty_alike {key key' : Ident} {name name' : String} {s s' : Span} {b b' : Block}
    (hkey : Alike f g key key') (hname : name = name') (hs : Alike f g s s')
    (hb : Alike f g b b') :
    Alike f g (columnProperty key name s b) (columnProperty key' name' s' b') := by
  subst hname
  have hstop := ha.max hb.block_span.span_stop hs.span_stop
  have htype : Alike f g ((⟨"type", s⟩, .literal (.string name) s) : Property)
      (⟨"type", s'⟩, .literal (.string name) s') :=
    .prod (.ident rfl hs) (.literal _ hs)
  have hattributes : Alike f g ((⟨"attributes", b.span⟩, b.toData) : Property)
      (⟨"attributes", b'.span⟩, b'.toData) :=
    .prod (.ident rfl hb.block_span) hb.toData
  refine .prod hkey ?_
  have hblock := Alike.block (.cons htype (.cons hattributes .nil))
    (.span hkey.ident_span.span_start hstop)
  exact hblock.toData

theorem inStep_column : InStep f g column column := by
  refine .bind (inStep_word ha _) fun key key' hkey => ?_
  refine .bind (inStep_capital ha) fun type type' htype => ?_
  have hend := htype.ident_span.span_stop
  refine .bind (inStep_brackets ha hend) fun multiple multiple' hmultiple => ?_
  refine .bind (inStep_questionMark ha hmultiple.snd) fun optional optional' hoptional => ?_
  refine .bind (inStep_attributeList ha) fun attributes attributes' hattributes => .pure ?_
  refine columnProperty_alike ha hkey ?_ ?_ hattributes
  · have hfirst : multiple.1 = multiple'.1 := hmultiple.fst
    have hsecond : optional.1 = optional'.1 := hoptional.fst
    rw [htype.ident_name, hfirst, hsecond]
  · exact .span htype.ident_span.span_start hoptional.snd

/-! ### Declarations -/

theorem inStep_mergeMark : InStep f g mergeMark mergeMark := by
  refine .bind (inStep_optional ha (by simp)) fun mark mark' hmark => .pure ?_
  rcases hmark.option with ⟨rfl, rfl⟩ | ⟨t, t', rfl, rfl, -⟩
  · rfl
  · rfl

theorem inStep_keyword (kind : Kind) : InStep f g (keyword kind) (keyword kind) :=
  inStep_expect ha (by simp)

theorem inStep_enumeration : InStep f g enumeration enumeration := by
  refine .bind (inStep_keyword ha _) fun start start' hstart => ?_
  refine .bind (inStep_capital ha) fun id id' hid => ?_
  refine .bind (inStep_mergeMark ha) fun mergeable mergeable' hmergeable => ?_
  refine .bind (inStep_blockOf ha (inStep_property ha _ (inStep_scalar ha)))
    fun init init' hinit => .pure ?_
  exact .declaration hmergeable hid hinit (.span hstart.start hinit.block_span.span_stop)

theorem inStep_prop : InStep f g prop prop := by
  refine .bind (inStep_keyword ha _) fun start start' hstart => ?_
  refine .bind (inStep_capital ha) fun id id' hid => ?_
  refine .bind (inStep_mergeMark ha) fun mergeable mergeable' hmergeable => ?_
  refine .bind (inStep_object ha) fun init init' hinit => .pure ?_
  exact .declaration hmergeable hid hinit (.span hstart.start hinit.block_span.span_stop)

theorem inStep_plugin : InStep f g plugin plugin := by
  refine .bind (inStep_keyword ha _) fun start start' hstart => ?_
  refine .bind (inStep_string ha) fun path path' hpath => ?_
  refine .bind (inStep_object ha) fun init init' hinit => .pure ?_
  exact .declaration rfl (.ident hpath.fst hpath.snd) hinit
    (.span hstart.start hinit.block_span.span_stop)

omit ha in
theorem columnedBlock_alike {id id' : Ident} {a a' b b' : Block} (hid : Alike f g id id')
    (ha : Alike f g a a') (hb : Alike f g b b') :
    Alike f g (columnedBlock id a b) (columnedBlock id' a' b') := by
  have hattributes : Alike f g ((⟨"attributes", a.span⟩, a.toData) : Property)
      (⟨"attributes", a'.span⟩, a'.toData) :=
    .prod (.ident rfl ha.block_span) ha.toData
  have hcolumns : Alike f g ((⟨"columns", b.span⟩, b.toData) : Property)
      (⟨"columns", b'.span⟩, b'.toData) :=
    .prod (.ident rfl hb.block_span) hb.toData
  exact .block (.cons hattributes (.cons hcolumns .nil))
    (.span hid.ident_span.span_start hb.block_span.span_stop)

theorem inStep_columned (kind : Kind) : InStep f g (columned kind) (columned kind) := by
  refine .bind (inStep_keyword ha _) fun start start' hstart => ?_
  refine .bind (inStep_capital ha) fun id id' hid => ?_
  refine .bind (inStep_mergeMark ha) fun mergeable mergeable' hmergeable => ?_
  refine .bind (inStep_attributeList ha) fun attributes attributes' hattributes => ?_
  refine .bind (inStep_blockOf ha (inStep_column ha)) fun columns columns' hcolumns => .pure ?_
  exact .declaration hmergeable hid (columnedBlock_alike hid hattributes hcolumns)
    (.span hstart.start hcolumns.block_span.span_stop)

theorem inStep_declaration (kind : Kind) : InStep f g (declaration kind) (declaration kind) := by
  cases kind with
  | enum => exact inStep_enumeration ha
  | prop => exact inStep_prop ha
  | type => exact inStep_columned ha .type
  | model => exact inStep_columned ha .model
  | plugin => exact inStep_plugin ha

/-! ### Sources -/

theorem inStep_use : InStep f g use use := by
  refine .bind (inStep_expect ha (by simp)) fun start start' hstart => ?_
  refine .bind (inStep_string ha) fun path path' hpath => .pure ?_
  have hspan := Alike.span hstart.start hpath.snd.span_stop
  have hvalue : path.1 = path'.1 := hpath.fst
  show Use.mk (.string path.1) (move f path.2) _ = Use.mk (.string path'.1) (move g path'.2) _
  rw [hvalue, hpath.snd]
  exact congrArg (Use.mk _ _) hspan

/-- Which statement it is is told by the next content. -/
theorem inStep_node : InStep f g node node := by
  intro i i' hi
  unfold node
  rw [hi.content]
  split
  · exact (InStep.bind (inStep_use ha) fun u u' hu => .pure hu.useNode) i i' hi
  · exact (InStep.bind (inStep_declaration ha _) fun d d' hd => .pure hd.declarationNode) i i' hi
  · exact .error (congrArg SyntaxError.unexpected hi.next)

end Grammar

/-- Sources whose tokens are alike are both read, to trees that are alike, or both fail, with
errors that are alike. -/
theorem parseSchema_inStep (ha : Aligned f g) {source source' : List Char}
    (h : (Input.ofSource source).Alike f g (Input.ofSource source')) :
    (∃ s s', parseSchema source = .ok s ∧ parseSchema source' = .ok s' ∧ Alike f g s s') ∨
      ∃ e e', parseSchema source = .error e ∧ parseSchema source' = .error e' ∧ Alike f g e e' := by
  have hrun := Parser.inStep_whileNext (· ≠ .endOfInput) (Grammar.inStep_node ha) _ _ h
  rw [parseSchema_eq, parseSchema_eq]
  generalize Parser.whileNext (· ≠ .endOfInput) Grammar.node (Input.ofSource source) = r at hrun ⊢
  generalize Parser.whileNext (· ≠ .endOfInput) Grammar.node (Input.ofSource source') = r' at hrun ⊢
  cases hrun with
  | error he => exact .inr ⟨_, _, rfl, rfl, he⟩
  | ok hbody _ _ _ =>
    exact .inl ⟨_, _, rfl, rfl, congrArg₂ Schema.mk hbody (Alike.span h.offset h.size)⟩

/-! ### Layout -/

/-- What is left of a source without blanks and comments, and without places: what each token
is, and the characters it was read from. -/
def codeTokens (source : List Char) : List (Content × List Char) :=
  ((lex source).filter (·.category.isCode)).map fun t => (t.content, t.lexeme)

theorem codeTokens_eq (source : List Char) :
    codeTokens source = (Input.ofSource source).tokens.map (fun t => (t.content, t.lexeme)) ++
      [(.endOfInput, [])] := by
  rw [codeTokens, lex, lexFrom, List.filter_append, List.map_append]
  rfl

/-- Sources with the same code are alike where places do not matter. -/
theorem alike_of_codeTokens_eq {source source' : List Char}
    (h : codeTokens source = codeTokens source') :
    (Input.ofSource source).Alike (fun _ => 0) (fun _ => 0) (Input.ofSource source') := by
  refine ⟨ofSource_valid source, ofSource_valid source', ?_, rfl, rfl⟩
  rw [codeTokens_eq, codeTokens_eq, List.append_cancel_right_eq] at h
  have hplaced := congrArg (List.map fun c : Content × List Char => Token.mk c.1 c.2 0) h
  rwa [List.map_map, List.map_map] at hplaced

end SchemaLang
