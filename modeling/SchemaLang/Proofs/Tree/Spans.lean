import SchemaLang.Tree

/-!
# Changing the spans of a tree

A tree says what was written and, by its spans, where.  A function on spans acts on
all spans of a tree at once and leaves everything else alone.  Trees that differ in
spans only are those that become equal when every span is forgotten.

## Main definitions

* `Span.forget` — every span becomes the same one.
* `Data.mapSpans`, `Declaration.mapSpans`, `Schema.mapSpans`, … — the action on trees.
-/

namespace SchemaLang

/-- The span that stands for no place in particular. -/
def Span.nowhere : Span := ⟨0, 0⟩

/-- Forgets where something stands. -/
def Span.forget (_ : Span) : Span := .nowhere

/-- A name with its span changed. -/
def Ident.mapSpan (f : Span → Span) (id : Ident) : Ident := ⟨id.name, f id.span⟩

@[simp] theorem Ident.mapSpan_name (f : Span → Span) (id : Ident) :
    (id.mapSpan f).name = id.name := rfl

namespace Data

mutual

/-- Data with its spans changed. -/
def mapSpans (f : Span → Span) : Data → Data
  | .literal v s => .literal v (f s)
  | .environment name s => .environment name (f s)
  | .object ps s => .object (mapSpansProperties f ps) (f s)
  | .array es s => .array (mapSpansElements f es) (f s)
  | .reference id => .reference (id.mapSpan f)

/-- Elements with their spans changed. -/
def mapSpansElements (f : Span → Span) : List Data → List Data
  | [] => []
  | e :: es => mapSpans f e :: mapSpansElements f es

/-- Properties with their spans changed. -/
def mapSpansProperties (f : Span → Span) : List (Ident × Data) → List (Ident × Data)
  | [] => []
  | (k, d) :: ps => (k.mapSpan f, mapSpans f d) :: mapSpansProperties f ps

end

end Data

/-- A property with its spans changed. -/
def Property.mapSpans (f : Span → Span) (p : Property) : Property :=
  (p.1.mapSpan f, p.2.mapSpans f)

namespace Data

theorem mapSpansElements_eq_map (f : Span → Span) (es : List Data) :
    mapSpansElements f es = es.map (mapSpans f) := by
  induction es with
  | nil => rfl
  | cons e es ih => rw [mapSpansElements, ih, List.map_cons]

theorem mapSpansProperties_eq_map (f : Span → Span) (ps : List Property) :
    mapSpansProperties f ps = ps.map (Property.mapSpans f) := by
  induction ps with
  | nil => rfl
  | cons p ps ih =>
    obtain ⟨k, d⟩ := p
    rw [mapSpansProperties, ih, List.map_cons]
    rfl

@[simp] theorem mapSpans_literal (f : Span → Span) (v : Literal) (s : Span) :
    mapSpans f (.literal v s) = .literal v (f s) := rfl

@[simp] theorem mapSpans_environment (f : Span → Span) (name : String) (s : Span) :
    mapSpans f (.environment name s) = .environment name (f s) := rfl

@[simp] theorem mapSpans_object (f : Span → Span) (ps : List Property) (s : Span) :
    mapSpans f (.object ps s) = .object (ps.map (Property.mapSpans f)) (f s) := by
  rw [← mapSpansProperties_eq_map]
  rfl

@[simp] theorem mapSpans_array (f : Span → Span) (es : List Data) (s : Span) :
    mapSpans f (.array es s) = .array (es.map (mapSpans f)) (f s) := by
  rw [← mapSpansElements_eq_map]
  rfl

@[simp] theorem mapSpans_reference (f : Span → Span) (id : Ident) :
    mapSpans f (.reference id) = .reference (id.mapSpan f) := rfl

theorem span_mapSpans (f : Span → Span) (t : Data) : (t.mapSpans f).span = f t.span := by
  cases t with
  | literal v s => rfl
  | environment name s => rfl
  | object ps s => rfl
  | array es s => rfl
  | reference id => rfl

mutual

/-- Nothing changes where no span does. -/
theorem mapSpans_eq_self {f : Span → Span} (hf : ∀ s, f s = s) :
    ∀ t : Data, mapSpans f t = t
  | .literal v s => by rw [mapSpans, hf]
  | .environment name s => by rw [mapSpans, hf]
  | .object ps s => by rw [mapSpans, mapSpansProperties_eq_self hf ps, hf]
  | .array es s => by rw [mapSpans, mapSpansElements_eq_self hf es, hf]
  | .reference id => by rw [mapSpans, Ident.mapSpan, hf]

theorem mapSpansElements_eq_self {f : Span → Span} (hf : ∀ s, f s = s) :
    ∀ es : List Data, mapSpansElements f es = es
  | [] => rfl
  | e :: es => by rw [mapSpansElements, mapSpans_eq_self hf e, mapSpansElements_eq_self hf es]

theorem mapSpansProperties_eq_self {f : Span → Span} (hf : ∀ s, f s = s) :
    ∀ ps : List (Ident × Data), mapSpansProperties f ps = ps
  | [] => rfl
  | (k, d) :: ps => by
    rw [mapSpansProperties, mapSpans_eq_self hf d, mapSpansProperties_eq_self hf ps,
      Ident.mapSpan, hf]

end

mutual

/-- Spans changed twice are changed once, by both functions. -/
theorem mapSpans_mapSpans (f g : Span → Span) :
    ∀ t : Data, mapSpans f (mapSpans g t) = mapSpans (f ∘ g) t
  | .literal v s => rfl
  | .environment name s => rfl
  | .object ps s => by
    rw [mapSpans, mapSpans, mapSpans, mapSpansProperties_mapSpansProperties f g ps]
    rfl
  | .array es s => by
    rw [mapSpans, mapSpans, mapSpans, mapSpansElements_mapSpansElements f g es]
    rfl
  | .reference id => rfl

theorem mapSpansElements_mapSpansElements (f g : Span → Span) :
    ∀ es : List Data, mapSpansElements f (mapSpansElements g es) = mapSpansElements (f ∘ g) es
  | [] => rfl
  | e :: es => by
    rw [mapSpansElements, mapSpansElements, mapSpansElements, mapSpans_mapSpans f g e,
      mapSpansElements_mapSpansElements f g es]

theorem mapSpansProperties_mapSpansProperties (f g : Span → Span) :
    ∀ ps : List (Ident × Data),
      mapSpansProperties f (mapSpansProperties g ps) = mapSpansProperties (f ∘ g) ps
  | [] => rfl
  | (k, d) :: ps => by
    rw [mapSpansProperties, mapSpansProperties, mapSpansProperties, mapSpans_mapSpans f g d,
      mapSpansProperties_mapSpansProperties f g ps]
    rfl

end

end Data

/-- A block with its spans changed. -/
def Block.mapSpans (f : Span → Span) (b : Block) : Block :=
  ⟨b.properties.map (Property.mapSpans f), f b.span⟩

theorem Block.mapSpans_eq_self {f : Span → Span} (hf : ∀ s, f s = s) (b : Block) :
    b.mapSpans f = b := by
  rw [mapSpans, ← Data.mapSpansProperties_eq_map, Data.mapSpansProperties_eq_self hf, hf]

theorem Block.mapSpans_mapSpans (f g : Span → Span) (b : Block) :
    (b.mapSpans g).mapSpans f = b.mapSpans (f ∘ g) := by
  simp only [mapSpans, ← Data.mapSpansProperties_eq_map,
    Data.mapSpansProperties_mapSpansProperties, Function.comp_apply]

@[simp] theorem Block.toData_mapSpans (f : Span → Span) (b : Block) :
    (b.mapSpans f).toData = b.toData.mapSpans f := by
  simp [Block.toData, Block.mapSpans]

/-- A declaration with its spans changed. -/
def Declaration.mapSpans (f : Span → Span) (d : Declaration) : Declaration :=
  ⟨d.kind, d.mergeable, d.id.mapSpan f, d.init.mapSpans f, f d.span⟩

theorem Declaration.mapSpans_eq_self {f : Span → Span} (hf : ∀ s, f s = s) (d : Declaration) :
    d.mapSpans f = d := by
  rw [mapSpans, Ident.mapSpan, Block.mapSpans_eq_self hf, hf, hf]

/-- A request for another source with its spans changed. -/
def Use.mapSpans (f : Span → Span) (u : Use) : Use := ⟨u.path, f u.pathSpan, f u.span⟩

namespace Node

mutual

/-- A statement with its spans changed. -/
def mapSpans (f : Span → Span) : Node → Node
  | .use u => .use (u.mapSpans f)
  | .declaration d => .declaration (d.mapSpans f)
  | .schema body s => .schema (mapSpansBody f body) (f s)

/-- Statements with their spans changed. -/
def mapSpansBody (f : Span → Span) : List Node → List Node
  | [] => []
  | n :: ns => mapSpans f n :: mapSpansBody f ns

end

theorem mapSpansBody_eq_map (f : Span → Span) (ns : List Node) :
    mapSpansBody f ns = ns.map (mapSpans f) := by
  induction ns with
  | nil => rfl
  | cons n ns ih => rw [mapSpansBody, ih, List.map_cons]

mutual

theorem mapSpans_eq_self {f : Span → Span} (hf : ∀ s, f s = s) :
    ∀ n : Node, mapSpans f n = n
  | .use u => by rw [mapSpans, Use.mapSpans, hf, hf]
  | .declaration d => by rw [mapSpans, Declaration.mapSpans_eq_self hf]
  | .schema body s => by rw [mapSpans, mapSpansBody_eq_self hf body, hf]

theorem mapSpansBody_eq_self {f : Span → Span} (hf : ∀ s, f s = s) :
    ∀ ns : List Node, mapSpansBody f ns = ns
  | [] => rfl
  | n :: ns => by rw [mapSpansBody, mapSpans_eq_self hf n, mapSpansBody_eq_self hf ns]

end

mutual

theorem mapSpans_mapSpans (f g : Span → Span) :
    ∀ n : Node, mapSpans f (mapSpans g n) = mapSpans (f ∘ g) n
  | .use u => rfl
  | .declaration d => by
    simp only [mapSpans, Declaration.mapSpans, Block.mapSpans_mapSpans]
    rfl
  | .schema body s => by
    rw [mapSpans, mapSpans, mapSpans, mapSpansBody_mapSpansBody f g body]
    rfl

theorem mapSpansBody_mapSpansBody (f g : Span → Span) :
    ∀ ns : List Node, mapSpansBody f (mapSpansBody g ns) = mapSpansBody (f ∘ g) ns
  | [] => rfl
  | n :: ns => by
    rw [mapSpansBody, mapSpansBody, mapSpansBody, mapSpans_mapSpans f g n,
      mapSpansBody_mapSpansBody f g ns]

end

@[simp] theorem mapSpans_use (f : Span → Span) (u : Use) :
    mapSpans f (.use u) = .use (u.mapSpans f) := rfl

@[simp] theorem mapSpans_declaration (f : Span → Span) (d : Declaration) :
    mapSpans f (.declaration d) = .declaration (d.mapSpans f) := rfl

@[simp] theorem mapSpans_schema (f : Span → Span) (body : List Node) (s : Span) :
    mapSpans f (.schema body s) = .schema (body.map (mapSpans f)) (f s) := by
  rw [← mapSpansBody_eq_map]
  rfl

end Node

/-- A source with its spans changed. -/
def Schema.mapSpans (f : Span → Span) (s : Schema) : Schema :=
  ⟨s.body.map (Node.mapSpans f), f s.span⟩

end SchemaLang
