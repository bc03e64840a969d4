import SchemaLang.Analysis
import SchemaLang.Config.Reader
import SchemaLang.Proofs.Json.Text
import Mathlib.Data.ENat.Basic

/-!
# Handing configurations over

A configuration is handed over as text, and there are three descriptions of that text: the object
that is built section by section, the record with its fields in order, and the reader that looks
the sections up by their names.  They agree, and nothing is lost in either form of the text.

Writing and reading JSON itself is not looked into.  It is the business of a codec, of which
nothing is known but that it reads what it writes, up to a limit of nesting or without any.

## Main definitions

* `Config.Exact`, `FinalConfig.Exact` — numbers are integers of 64 bits, and names are distinct.
* `Json.Codec.Faithful` — what is asked of a codec.
* `Json.unlimited` — the codec of this library without its limit of nesting.

## Main results

* `Config.serialized_eq`, `FinalConfig.serialized_eq` — the record is the object.
* `Json.Codec.Faithful.config?_eq`, `Json.Codec.Faithful.finalConfig?_eq` — reading finds each
  section.
* `exchange_json` — **a configuration is read back from its text.**
* `Json.standard_faithful` — the codec of this library is faithful up to its limit.
-/

namespace SchemaLang

/-! ### Configurations as records -/

namespace Field

/-- The member of a field, unless it is left out. -/
def members (f : Field) : Entries Value := if f.omitted then [] else [(f.name, f.value)]

theorem serialize_eq (fs : List Field) : serialize fs = .obj (fs.flatMap members) := by
  rw [serialize, Value.obj.injEq]
  induction fs with
  | nil => rfl
  | cons f fs ih =>
    rw [List.flatMap_cons, ← ih, members]
    cases hf : f.omitted with
    | true => simp [hf]
    | false => simp [hf]

end Field

theorem Config.serialized_eq (c : Config) : c.serialized = c.toValue := by
  rw [serialized, Field.serialize_eq, toValue, members]
  simp only [List.flatMap_cons, List.flatMap_nil, List.append_nil, List.append_assoc]
  rfl

theorem FinalConfig.serialized_eq (f : FinalConfig) : f.serialized = f.toValue := by
  rw [serialized, Field.serialize_eq, toValue, Config.toValue, Config.members]
  simp only [List.flatMap_cons, List.flatMap_nil, List.append_nil, List.append_assoc]
  rfl

/-! ### The members of a configuration -/

namespace Config

/-- All numbers at any depth are integers of 64 bits, and no name stands twice in a section or an
object. -/
def Exact (c : Config) : Prop := ∀ kind, (Value.obj (c.sectionOf kind)).Exact

variable {c : Config}

theorem mem_sectionMember_iff {kind : Kind} {es : Entries Value} {m : String × Value} :
    m ∈ sectionMember kind es ↔ es ≠ [] ∧ m = (kind.sectionName, .obj es) := by
  cases es <;> simp [sectionMember]

theorem mem_usesMember_iff {paths : List String} {m : String × Value} :
    m ∈ usesMember paths ↔ paths ≠ [] ∧ m = (usesKey, .arr (paths.map .str)) := by
  cases paths <;> simp [usesMember]

theorem mem_members_iff {m : String × Value} :
    m ∈ c.members ↔
      (∃ kind, c.sectionOf kind ≠ [] ∧ m = (kind.sectionName, .obj (c.sectionOf kind))) ∨
      (c.uses ≠ [] ∧ m = (usesKey, .arr (c.uses.map .str))) := by
  simp only [members, List.mem_append, mem_sectionMember_iff, mem_usesMember_iff]
  constructor
  · rintro (((((h | h) | h) | h) | h) | h)
    · exact .inl ⟨.plugin, h⟩
    · exact .inr h
    · exact .inl ⟨.prop, h⟩
    · exact .inl ⟨.enum, h⟩
    · exact .inl ⟨.type, h⟩
    · exact .inl ⟨.model, h⟩
  · rintro (⟨kind, h⟩ | h)
    · cases kind with
      | enum => exact .inl (.inl (.inr h))
      | prop => exact .inl (.inl (.inl (.inr h)))
      | type => exact .inl (.inr h)
      | model => exact .inr h
      | plugin => exact .inl (.inl (.inl (.inl (.inl h))))
    · exact .inl (.inl (.inl (.inl (.inr h))))

theorem keys_sectionMember_sublist (kind : Kind) (es : Entries Value) :
    (Entries.keys (sectionMember kind es)).Sublist [kind.sectionName] := by
  cases es <;> simp [sectionMember]

theorem keys_usesMember_sublist (paths : List String) :
    (Entries.keys (usesMember paths)).Sublist [usesKey] := by
  cases paths <;> simp [usesMember]

/-- No two sections have the same name. -/
theorem nodup_members (c : Config) : (Entries.keys c.members).Nodup := by
  have hall : (Entries.keys c.members).Sublist
      ["plugin", "use", "prop", "enum", "type", "model"] := by
    rw [members, Entries.keys]
    simp only [List.map_append]
    exact (((((keys_sectionMember_sublist .plugin _).append (keys_usesMember_sublist _)).append
      (keys_sectionMember_sublist .prop _)).append (keys_sectionMember_sublist .enum _)).append
      (keys_sectionMember_sublist .type _)).append (keys_sectionMember_sublist .model _)
  exact hall.nodup (by decide)

theorem sectionName_injective {kind kind' : Kind} (h : kind.sectionName = kind'.sectionName) :
    kind = kind' := by
  revert h
  cases kind <;> cases kind' <;> decide

theorem sectionName_ne_usesKey (kind : Kind) : kind.sectionName ≠ usesKey := by
  cases kind <;> decide

theorem sectionName_mem_keys_iff {kind : Kind} :
    kind.sectionName ∈ Entries.keys c.members ↔ c.sectionOf kind ≠ [] := by
  constructor
  · intro hmem
    obtain ⟨m, hm, hname⟩ := List.mem_map.mp hmem
    rcases mem_members_iff.mp hm with ⟨kind', hne, rfl⟩ | ⟨-, rfl⟩
    · exact sectionName_injective hname ▸ hne
    · exact absurd hname.symm (sectionName_ne_usesKey kind)
  · intro hne
    exact List.mem_map.mpr ⟨_, mem_members_iff.mpr (.inl ⟨kind, hne, rfl⟩), rfl⟩

theorem usesKey_mem_keys_iff : usesKey ∈ Entries.keys c.members ↔ c.uses ≠ [] := by
  constructor
  · intro hmem
    obtain ⟨m, hm, hname⟩ := List.mem_map.mp hmem
    rcases mem_members_iff.mp hm with ⟨kind, -, rfl⟩ | ⟨hne, -⟩
    · exact absurd hname (sectionName_ne_usesKey kind)
    · exact hne
  · intro hne
    exact List.mem_map.mpr ⟨_, mem_members_iff.mpr (.inr ⟨hne, rfl⟩), rfl⟩

theorem Exact.members (h : c.Exact) : ∀ m ∈ c.members, m.2.Exact := by
  intro m hm
  rcases mem_members_iff.mp hm with ⟨kind, -, rfl⟩ | ⟨-, rfl⟩
  · exact h kind
  · refine .arr _ fun v hv => ?_
    obtain ⟨path, -, rfl⟩ := List.mem_map.mp hv
    exact .str path

theorem Exact.toValue (h : c.Exact) : c.toValue.Exact := .obj _ c.nodup_members h.members

/-- The configuration is nested deeper than what it holds. -/
theorem nesting_lt_toValue {m : String × Value} (hm : m ∈ c.members) :
    m.2.nesting < c.toValue.nesting :=
  Nat.lt_succ_of_le (Value.nestingMembers_le_iff.mp (Nat.le_refl _) m hm)

variable {α : Type} {tree : Value → α}

/-- The members of a configuration with their trees. -/
def trees (tree : Value → α) (c : Config) : Entries α := c.members.map fun m => (m.1, tree m.2)

theorem keys_trees : Entries.keys (c.trees tree) = Entries.keys c.members := by
  rw [trees, Entries.keys, List.map_map]
  rfl

theorem nodup_trees : (Entries.keys (c.trees tree)).Nodup := by
  rw [keys_trees]
  exact c.nodup_members

theorem mem_trees {name : String} {v : Value} (h : (name, v) ∈ c.members) :
    (name, tree v) ∈ c.trees tree := List.mem_map.mpr ⟨_, h, rfl⟩

end Config

/-- All numbers at any depth are integers of 64 bits, and no name stands twice in a section or an
object. -/
def FinalConfig.Exact (f : FinalConfig) : Prop := f.toConfig.Exact

/-! ### Entries with a name -/

namespace Entries

variable {α : Type} {es : Entries α} {name : String}

theorem filter_of_not_mem (hname : name ∉ keys es) : es.filter (·.1 == name) = [] := by
  rw [List.filter_eq_nil_iff]
  intro e he hkey
  exact hname (List.mem_map.mpr ⟨e, he, beq_iff_eq.mp hkey⟩)

/-- Of entries with distinct names, at most one has a given name. -/
theorem filter_of_mem (hn : (keys es).Nodup) {a : α} (ha : (name, a) ∈ es) :
    es.filter (·.1 == name) = [(name, a)] := by
  induction es with
  | nil => cases ha
  | cons e es ih =>
    obtain ⟨hfresh, hn⟩ := List.nodup_cons.mp hn
    rcases List.mem_cons.mp ha with rfl | ha
    · rw [List.filter_cons_of_pos (by simp), filter_of_not_mem hfresh]
    · have hne : e.1 ≠ name := by
        rintro rfl
        exact hfresh (List.mem_map.mpr ⟨_, ha, rfl⟩)
      rw [List.filter_cons_of_neg (by simpa using hne)]
      exact ih hn ha

end Entries

/-! ### What is asked of a codec -/

namespace Json

/-- A codec reads what it writes, as far as values are nested at most `limit` deep.  What it reads
of the text of a value is the tree of the value.  If `limit` is `⊤`, it has no limit. -/
structure Codec.Faithful (codec : Codec) (limit : ℕ∞) (tree : Value → codec.Tree) : Prop where
  /-- The text without blanks is read. -/
  read?_compact : ∀ {v : Value}, v.Exact → (v.nesting : ℕ∞) ≤ limit →
    codec.read? (codec.compact v) = some (tree v)
  /-- The text on lines of their own is read. -/
  read?_pretty : ∀ {v : Value}, v.Exact → (v.nesting : ℕ∞) ≤ limit →
    codec.read? (codec.pretty v) = some (tree v)
  /-- The members of an object are found, under their names and in their order. -/
  form?_obj : ∀ {ms : Entries Value}, (Value.obj ms).Exact →
    codec.form? (tree (.obj ms)) = some (.named (ms.map fun m => (m.1, tree m.2)))
  /-- The elements of an array are found, in their order. -/
  form?_arr : ∀ {xs : List Value}, (Value.arr xs).Exact →
    codec.form? (tree (.arr xs)) = some (.placed (xs.map tree))
  /-- The tree of a string stands for the string. -/
  string?_str : ∀ s : String, codec.string? (tree (.str s)) = some s
  /-- The tree of a value stands for the value, also inside of arrays and objects. -/
  value?_tree : ∀ {v : Value} {inside : Nat}, v.Exact → ((inside + v.nesting : ℕ) : ℕ∞) ≤ limit →
    codec.value? inside (tree v) = some v

/-! ### Finding the sections again -/

namespace Form

variable {α β : Type} {ms : Entries α} {name : String} (place : Nat) (missing : β)
  (f : α → Option β)

theorem part?_of_not_mem (hname : name ∉ Entries.keys ms) :
    (Form.named ms).part? name place missing f = some missing := by
  rw [part?, Entries.filter_of_not_mem hname]

theorem part?_of_mem (hn : (Entries.keys ms).Nodup) {x : α} (hx : (name, x) ∈ ms) :
    (Form.named ms).part? name place missing f = f x := by
  rw [part?, Entries.filter_of_mem hn hx]

end Form

namespace Codec.Faithful

variable {codec : Codec} {limit : ℕ∞} {tree : Value → codec.Tree} {c : Config}

/-- A section is found under its name, and is empty when it is missing. -/
theorem sectionAt?_eq (laws : codec.Faithful limit tree) (hc : c.Exact)
    (hdeep : (c.toValue.nesting : ℕ∞) ≤ limit) (kind : Kind) (place : Nat) :
    codec.sectionAt? (.named (c.trees tree)) kind place = some (c.sectionOf kind) := by
  by_cases hempty : c.sectionOf kind = []
  · have hname : kind.sectionName ∉ Entries.keys (c.trees tree) := by
      rw [Config.keys_trees, Config.sectionName_mem_keys_iff, not_not]
      exact hempty
    rw [sectionAt?, Form.part?_of_not_mem _ _ _ hname, hempty]
  · have hmem : (kind.sectionName, Value.obj (c.sectionOf kind)) ∈ c.members :=
      Config.mem_members_iff.mpr (.inl ⟨kind, hempty, rfl⟩)
    have hinside : 1 + (Value.obj (c.sectionOf kind)).nesting ≤ c.toValue.nesting := by
      rw [Nat.add_comm]
      exact Config.nesting_lt_toValue hmem
    have hvalue := laws.value?_tree (hc kind) ((Nat.cast_le.mpr hinside).trans hdeep)
    rw [sectionAt?, Form.part?_of_mem _ _ _ Config.nodup_trees (Config.mem_trees hmem), section?,
      hvalue]

theorem mapM_string?_eq (laws : codec.Faithful limit tree) (paths : List String) :
    ((paths.map Value.str).map tree).mapM codec.string? = some paths := by
  induction paths with
  | nil => rfl
  | cons path paths ih =>
    rw [List.map_cons, List.map_cons, List.mapM_cons, laws.string?_str, ih]
    rfl

/-- The paths are found under their name. -/
theorem uses_eq (laws : codec.Faithful limit tree) (hc : c.Exact) (place : Nat) :
    (Form.named (c.trees tree)).part? Config.usesKey place [] codec.strings? = some c.uses := by
  by_cases hempty : c.uses = []
  · have hname : Config.usesKey ∉ Entries.keys (c.trees tree) := by
      rw [Config.keys_trees, Config.usesKey_mem_keys_iff, not_not]
      exact hempty
    rw [Form.part?_of_not_mem _ _ _ hname, hempty]
  · have hmem : (Config.usesKey, Value.arr (c.uses.map .str)) ∈ c.members :=
      Config.mem_members_iff.mpr (.inr ⟨hempty, rfl⟩)
    have hform := laws.form?_arr (hc.members _ hmem)
    rw [Form.part?_of_mem _ _ _ Config.nodup_trees (Config.mem_trees hmem), strings?, hform]
    exact laws.mapM_string?_eq c.uses

/-- A text that is read as the tree of a configuration is read as the configuration. -/
theorem config?_eq (laws : codec.Faithful limit tree) (hc : c.Exact)
    (hdeep : (c.toValue.nesting : ℕ∞) ≤ limit) {text : List Char}
    (hread : codec.read? text = some (tree c.toValue)) : codec.config? text = some c := by
  have hform : codec.form? (tree c.toValue) = some (.named (c.trees tree)) :=
    laws.form?_obj hc.toValue
  simp only [config?, hread, Option.bind_some, hform, Option.bind_eq_bind,
    laws.sectionAt?_eq hc hdeep, laws.uses_eq hc]
  rfl

/-- A text that is read as the tree of a final form is read as the final form. -/
theorem finalConfig?_eq (laws : codec.Faithful limit tree) {f : FinalConfig} (hf : f.Exact)
    (hdeep : (f.toValue.nesting : ℕ∞) ≤ limit) {text : List Char}
    (hread : codec.read? text = some (tree f.toValue)) : codec.finalConfig? text = some f := by
  have hform : codec.form? (tree f.toValue) = some (.named (f.toConfig.trees tree)) :=
    laws.form?_obj (Config.Exact.toValue hf)
  simp only [finalConfig?, hread, Option.bind_some, hform, Option.bind_eq_bind,
    laws.sectionAt?_eq hf hdeep]
  rfl

end Codec.Faithful

/-! ### The codec of this library -/

/-- The names of the members are read from their parts. -/
theorem formOf?_rawOf_obj (ms : Entries Value) :
    formOf? (rawOf (.obj ms)) = some (.named (ms.map fun m => (m.1, rawOf m.2))) := by
  have hnames : (ms.map fun m => (m.1.toList.map partOf, rawOf m.2)).mapM
      (fun m => (string? m.1).map (·, m.2)) = some (ms.map fun m => (m.1, rawOf m.2)) := by
    induction ms with
    | nil => rfl
    | cons m ms ih =>
      rw [List.map_cons, List.mapM_cons, string?_partOf, ih]
      rfl
  rw [rawOf, rawMembers_eq, formOf?, hnames]
  rfl

/-- The codec of this library is faithful as far as its values are read. -/
theorem faithful_of_value? {limit : ℕ∞} {value? : Nat → Raw → Option Value}
    (hvalue : ∀ {v : Value} {inside : Nat}, v.Exact → ((inside + v.nesting : ℕ) : ℕ∞) ≤ limit →
      value? inside (rawOf v) = some v) :
    Codec.Faithful { standard with value? := value? } limit rawOf where
  read?_compact hv _ := compactWriter.read?_value (Writer.reads_rawOf hv)
  read?_pretty hv _ := prettyWriter.read?_value (Writer.reads_rawOf hv)
  form?_obj {ms} _ := formOf?_rawOf_obj ms
  form?_arr {xs} _ := by
    show formOf? (rawOf (.arr xs)) = _
    rw [rawOf, rawElements_eq]
    rfl
  string?_str := string?_partOf
  value?_tree := hvalue

/-- **The codec of this library is faithful up to its limit of nesting.** -/
theorem standard_faithful : standard.Faithful mostNesting rawOf := by
  refine faithful_of_value? fun {v inside} hv hdeep => ?_
  have hreads : compactWriter.Reads v (rawOf v) := Writer.reads_rawOf hv
  have hle : inside + v.nesting ≤ mostNesting := Nat.cast_le.mp hdeep
  rw [Raw.valueWithin?, hreads.nesting, if_pos (by omega), hreads.value]

/-- The codec of this library without a limit of nesting. -/
def unlimited : Codec := { standard with value? := fun _ => Raw.value? }

theorem unlimited_faithful : unlimited.Faithful ⊤ rawOf :=
  faithful_of_value? fun {v _} hv _ =>
    have hreads : compactWriter.Reads v (rawOf v) := Writer.reads_rawOf hv
    hreads.value

end Json

/-! ### Texts handed over -/

/-- **A configuration is read back from its text.**  The record and the object are the same value.
If all numbers are integers of 64 bits, both forms of the text are read as the configuration itself,
with all entries and elements in their order, and so it has the same final form.  The same holds of
final forms.  This is so for every codec that reads what it writes, as far as its limit of nesting
goes; if it has none, for every configuration. -/
theorem exchange_json (codec : Json.Codec) (limit : ℕ∞) (tree : Value → codec.Tree)
    (laws : codec.Faithful limit tree) :
    (∀ c : Config, c.serialized = c.toValue ∧
      (c.Exact → (c.toValue.nesting : ℕ∞) ≤ limit →
        ∀ schema, ∀ text ∈ [codec.compact c.toValue, (Analysis.mk schema c).jsonBy codec],
          codec.config? text = some c ∧
            (codec.config? text).map Config.resolve = some c.resolve)) ∧
    (∀ f : FinalConfig, f.serialized = f.toValue ∧
      (f.Exact → (f.toValue.nesting : ℕ∞) ≤ limit →
        ∀ text ∈ [codec.compact f.toValue, codec.pretty f.serialized],
          codec.finalConfig? text = some f)) := by
  constructor
  · intro c
    refine ⟨c.serialized_eq, fun hc hdeep schema text htext => ?_⟩
    have htree : codec.read? text = some (tree c.toValue) := by
      simp only [List.mem_cons, List.not_mem_nil, or_false] at htext
      rcases htext with rfl | rfl
      · exact laws.read?_compact hc.toValue hdeep
      · rw [Analysis.jsonBy, c.serialized_eq]
        exact laws.read?_pretty hc.toValue hdeep
    have hread := laws.config?_eq hc hdeep htree
    exact ⟨hread, by rw [hread]; rfl⟩
  · intro f
    refine ⟨f.serialized_eq, fun hf hdeep text htext => ?_⟩
    have hexact : f.toValue.Exact := Config.Exact.toValue hf
    simp only [List.mem_cons, List.not_mem_nil, or_false] at htext
    rcases htext with rfl | rfl
    · exact laws.finalConfig?_eq hf hdeep (laws.read?_compact hexact hdeep)
    · rw [f.serialized_eq]
      exact laws.finalConfig?_eq hf hdeep (laws.read?_pretty hexact hdeep)

/-- Names and strings with quotes, backslashes and control characters, the least and the greatest
number, and a path that stands twice, read with the limit of this library and without any. -/
theorem exchange_json_controls :
    let c : Config := ⟨[("a\"\\", .obj [("\u0000\n", .arr [.int (-2 ^ 63), .int (2 ^ 64 - 1)])])],
      ["é", "é"], [], [("\u001f", .str "\u007f/\t")], [], []⟩
    c.Exact ∧ c.serialized = c.toValue ∧ Config.read? (Json.compact c.toValue) = some c ∧
      Config.read? (Analysis.mk default c).json = some c ∧
      Json.unlimited.config? (Json.compact c.toValue) = some c := by
  intro c
  have hnumbers : (Value.arr [.int (-2 ^ 63), .int (2 ^ 64 - 1)]).Exact := by
    refine .arr _ fun x hx => ?_
    simp only [List.mem_cons, List.not_mem_nil, or_false] at hx
    rcases hx with rfl | rfl
    · exact .int _ (by decide) (by decide)
    · exact .int _ (by decide) (by decide)
  have hobject : (Value.obj [("\u0000\n", .arr [.int (-2 ^ 63), .int (2 ^ 64 - 1)])]).Exact :=
    .obj _ (by decide) (by simpa using hnumbers)
  have hc : c.Exact := by
    intro kind
    cases kind with
    | plugin => exact .obj _ (by decide) (by simpa [c, Config.sectionOf] using hobject)
    | enum => exact .obj _ (by decide) (by simpa [c, Config.sectionOf] using .str _)
    | prop | type | model => exact .obj _ (by decide) (by simp [c, Config.sectionOf])
  obtain ⟨hsame, hread⟩ := (exchange_json Json.standard Json.mostNesting Json.rawOf
    Json.standard_faithful).1 c
  have hdeep : c.toValue.nesting ≤ Json.mostNesting := by decide
  have htexts := hread hc (Nat.cast_le.mpr hdeep) default
  have hunlimited := ((exchange_json Json.unlimited ⊤ Json.rawOf Json.unlimited_faithful).1 c).2 hc
    le_top default
  exact ⟨hc, hsame, (htexts _ List.mem_cons_self).1,
    (htexts _ (List.mem_cons_of_mem _ List.mem_cons_self)).1, (hunlimited _ List.mem_cons_self).1⟩

end SchemaLang
