import SchemaLang.Proofs.Token.Lexical
import Mathlib.Data.List.Forall2

/-!
# What a quoted string stands for

A string is read item by item: a character that is neither a quote nor a backslash, or a backslash
together with whatever character follows it.  The first quote that stands between two items closes
the string.  Five letters behind a backslash stand for one character each; any other character
behind a backslash is kept, and so is the backslash.

The reader of strings goes through a text once and knows no items.  It finds the one row of items
that a quote ends, if there is one; so every text can be written as a string, in many ways, and is
read back from each of them, whatever follows.

## Main definitions

* `Quoted.escapes` — the characters that can be written behind a backslash.
* `Quoted.Item` — an item of a string, with its text and its value.
* `Quoted.Spelled` — the ways to write a character in a string.

## Main results

* `Quoted.read?_items`, `Quoted.exists_items` — the reader finds the items.
* `scanAt_quote` — **the token at a quote is the string up to the quote that closes it.**
-/

namespace SchemaLang

namespace Quoted

/-! ### Items -/

/-- The letters that stand for another character behind a backslash, or make it stand for itself,
each with that character. -/
def escapes : List (Char × Char) :=
  [('"', '"'), ('\\', '\\'), ('n', '\n'), ('r', '\r'), ('t', '\t')]

/-- An item of the text between the quotes of a string. -/
inductive Item where
  /-- A character by itself, neither a quote nor a backslash. -/
  | plain (c : Char) (quote : c ≠ '"') (backslash : c ≠ '\\') : Item
  /-- A backslash and the character behind it, whichever it is. -/
  | escape (c : Char) : Item
  deriving DecidableEq, Repr

namespace Item

/-- The characters an item is written with. -/
def text : Item → List Char
  | plain c _ _ => [c]
  | escape c => ['\\', c]

/-- The characters an item stands for. -/
def value : Item → List Char
  | plain c _ _ => [c]
  | escape c =>
    match escapes.lookup c with
    | some d => [d]
    | none => ['\\', c]

theorem value_escape (c : Char) : (escape c).value = unescape c := by
  by_cases h₁ : c = '"'
  · subst h₁
    rfl
  by_cases h₂ : c = '\\'
  · subst h₂
    rfl
  by_cases h₃ : c = 'n'
  · subst h₃
    rfl
  by_cases h₄ : c = 'r'
  · subst h₄
    rfl
  by_cases h₅ : c = 't'
  · subst h₅
    rfl
  have hlookup : escapes.lookup c = none := by
    simp [escapes, List.lookup_eq_none_iff, h₁, h₂, h₃, h₄, h₅]
  simp only [value, hlookup, unescape]

end Item

/-! ### The reader finds the items -/

/-- The reader takes one item at a time. -/
theorem read?_item (u : Item) (cs : List Char) :
    read? (u.text ++ cs) = (read? cs).map (push u.value u.text) := by
  cases u with
  | plain c hquote hbackslash =>
    have hread := read?.eq_5 c cs hquote (fun hc _ => hbackslash hc)
      (fun _ _ hc _ => hbackslash hc)
    exact hread
  | escape c =>
    rw [Item.value_escape]
    rfl

/-- A row of items up to a quote is read as what they stand for. -/
theorem read?_items (us : List Item) (rest : List Char) :
    read? (us.flatMap Item.text ++ '"' :: rest) =
      some ⟨us.flatMap Item.value, us.flatMap Item.text ++ ['"'], rest⟩ := by
  induction us with
  | nil => rfl
  | cons u us ih =>
    rw [List.flatMap_cons, List.append_assoc, read?_item, ih]
    simp [push]

/-- The text behind an opening quote is a row of items, the quote that closes the string, and what
follows the string. -/
def Closes (after : List Char) (us : List Item) (rest : List Char) : Prop :=
  after = us.flatMap Item.text ++ '"' :: rest

/-- What is read as a string is a row of items up to a quote. -/
theorem exists_items {cs : List Char} {q : Quoted} (h : read? cs = some q) :
    ∃ us, Closes cs us q.rest := by
  fun_induction read? cs generalizing q with
  | case1 => cases h
  | case2 cs =>
    cases h
    exact ⟨[], rfl⟩
  | case3 => cases h
  | case4 c cs ih =>
    obtain ⟨p, hp, rfl⟩ := Option.map_eq_some_iff.1 h
    obtain ⟨us, hcs⟩ := ih hp
    exact ⟨.escape c :: us, congrArg (fun ds => '\\' :: c :: ds) hcs⟩
  | case5 c cs hquote hend hescape ih =>
    obtain ⟨p, hp, rfl⟩ := Option.map_eq_some_iff.1 h
    obtain ⟨us, hcs⟩ := ih hp
    -- a backslash would have taken the next character along
    have hbackslash : c ≠ '\\' := by
      intro hc
      cases cs with
      | nil => exact hend hc rfl
      | cons d ds => exact hescape d ds hc rfl
    exact ⟨.plain c hquote hbackslash :: us, congrArg (c :: ·) hcs⟩

/-! ### Writing a text as a string -/

/-- `Spelled c text`: inside a string, `text` is a way to write the character `c`.  A quote and a
backslash can only be written behind a backslash, a line break, a carriage return and a tab can
be, and every other character stands for itself. -/
inductive Spelled : Char → List Char → Prop where
  /-- The character itself. -/
  | plain {c : Char} (quote : c ≠ '"') (backslash : c ≠ '\\') : Spelled c [c]
  /-- A backslash and the letter for the character. -/
  | escape {letter c : Char} (known : (letter, c) ∈ escapes) : Spelled c ['\\', letter]

/-- A spelling is an item that stands for the character alone. -/
theorem Spelled.exists_item {c : Char} {text : List Char} (h : Spelled c text) :
    ∃ u : Item, u.text = text ∧ u.value = [c] := by
  cases h with
  | plain hquote hbackslash => exact ⟨.plain c hquote hbackslash, rfl, rfl⟩
  | @escape letter _ known =>
    refine ⟨.escape letter, rfl, ?_⟩
    have hvalue : ∀ e ∈ escapes, (Item.escape e.1).value = [e.2] := by decide
    exact hvalue _ known

theorem exists_spelled (c : Char) : ∃ text, Spelled c text := by
  by_cases hquote : c = '"'
  · exact ⟨_, @Spelled.escape '"' c (by rw [hquote]; decide)⟩
  by_cases hbackslash : c = '\\'
  · exact ⟨_, @Spelled.escape '\\' c (by rw [hbackslash]; decide)⟩
  exact ⟨[c], .plain hquote hbackslash⟩

/-- Every text can be written as a string. -/
theorem exists_spelling (value : List Char) : ∃ texts, List.Forall₂ Spelled value texts := by
  induction value with
  | nil => exact ⟨[], .nil⟩
  | cons c cs ih =>
    obtain ⟨text, htext⟩ := exists_spelled c
    obtain ⟨texts, htexts⟩ := ih
    exact ⟨text :: texts, .cons htext htexts⟩

/-- A text that is spelled character by character is a row of items that stands for it. -/
theorem exists_items_of_spelled {value : List Char} {texts : List (List Char)}
    (h : List.Forall₂ Spelled value texts) :
    ∃ us : List Item, us.flatMap Item.text = texts.flatten ∧ us.flatMap Item.value = value := by
  induction h with
  | nil => exact ⟨[], rfl, rfl⟩
  | @cons c text value texts hc _ ih =>
    obtain ⟨u, htext, hvalue⟩ := hc.exists_item
    obtain ⟨us, htexts, hvalues⟩ := ih
    refine ⟨u :: us, ?_, ?_⟩
    · rw [List.flatMap_cons, htext, htexts, List.flatten_cons]
    · rw [List.flatMap_cons, hvalue, hvalues, List.singleton_append]

end Quoted

/-! ### The token at a quote -/

/-- Where a quote closes the string, all up to it is one token. -/
theorem scanAt_of_closes {after : List Char} {us : List Quoted.Item} {rest : List Char}
    (h : Quoted.Closes after us rest) (before : List Char) :
    scanAt (before ++ '"' :: after) (byteLength before) =
      ⟨.string (String.ofList (us.flatMap Quoted.Item.value)),
        '"' :: (us.flatMap Quoted.Item.text ++ ['"']), byteLength before⟩ := by
  have hscan := (Scans.string rest (Quoted.read?_items us [])).scanAt_eq before
  rw [Quoted.Closes] at h
  rw [h]
  simpa using hscan

/-- Where no quote closes the string, all that is left is one token, which is not known. -/
theorem scanAt_of_not_closes {after : List Char} (h : ¬ ∃ us rest, Quoted.Closes after us rest)
    (before : List Char) :
    scanAt (before ++ '"' :: after) (byteLength before) =
      ⟨.unknown, '"' :: after, byteLength before⟩ := by
  have hopen : Quoted.read? after = none := by
    cases hread : Quoted.read? after with
    | none => rfl
    | some q =>
      obtain ⟨us, hus⟩ := Quoted.exists_items hread
      exact absurd ⟨us, q.rest, hus⟩ h
  have hscan := (Scans.openString hopen).scanAt_eq before
  rwa [List.append_nil] at hscan

/-- **The token at a quote is the string up to the quote that closes it.**  At a quote a string is
read exactly if what follows is a row of items and a quote; the token ends with that quote and
stands for what the items stand for.  If no quote closes the string, what is read is not known and
takes all that is left.  So a text that is written character by character between quotes is read
back, whatever follows, and every text can be written so. -/
theorem scanAt_quote (before after : List Char) :
    ((∃ v, (scanAt (before ++ '"' :: after) (byteLength before)).content = .string v) ↔
      ∃ us rest, Quoted.Closes after us rest) ∧
    (∀ us rest, Quoted.Closes after us rest →
      scanAt (before ++ '"' :: after) (byteLength before) =
        ⟨.string (String.ofList (us.flatMap Quoted.Item.value)),
          '"' :: (us.flatMap Quoted.Item.text ++ ['"']), byteLength before⟩) ∧
    ((¬ ∃ us rest, Quoted.Closes after us rest) →
      scanAt (before ++ '"' :: after) (byteLength before) =
        ⟨.unknown, '"' :: after, byteLength before⟩ ∧
      (scanAt (before ++ '"' :: after) (byteLength before)).stop =
        byteLength (before ++ '"' :: after)) ∧
    (∀ (value : String) (texts : List (List Char)) (rest : List Char),
      List.Forall₂ Quoted.Spelled value.toList texts → after = texts.flatten ++ '"' :: rest →
        scanAt (before ++ '"' :: after) (byteLength before) =
          ⟨.string value, '"' :: (texts.flatten ++ ['"']), byteLength before⟩) ∧
    ∀ value : String, ∃ texts, List.Forall₂ Quoted.Spelled value.toList texts := by
  refine ⟨⟨?_, ?_⟩, ?_, ?_, ?_, ?_⟩
  · rintro ⟨v, hv⟩
    by_contra hnot
    rw [scanAt_of_not_closes hnot] at hv
    cases hv
  · rintro ⟨us, rest, hus⟩
    exact ⟨_, congrArg Token.content (scanAt_of_closes hus before)⟩
  · intro us rest hus
    exact scanAt_of_closes hus before
  · intro hnot
    have htoken := scanAt_of_not_closes hnot before
    refine ⟨htoken, ?_⟩
    rw [htoken, byteLength_append]
    rfl
  · intro value texts rest hspelled hafter
    obtain ⟨us, htext, hvalue⟩ := Quoted.exists_items_of_spelled hspelled
    have hcloses : Quoted.Closes after us rest := by
      rw [Quoted.Closes, htext]
      exact hafter
    rw [scanAt_of_closes hcloses, htext, hvalue, String.ofList_toList]
  · intro value
    exact Quoted.exists_spelling value.toList

/-- Of two backslashes the second is the one that is written, so the quote behind them closes the
string; behind one backslash a quote does not. -/
theorem scanAt_quote_backslashes :
    scanAt "a \"\\\\\" b\"".toList 2 = ⟨.string "\\", "\"\\\\\"".toList, 2⟩ ∧
      scanAt "a \"\\\" b".toList 2 = ⟨.unknown, "\"\\\" b".toList, 2⟩ := by
  constructor
  · exact (scanAt_quote "a ".toList "\\\\\" b\"".toList).2.1 [.escape '\\'] " b\"".toList rfl
  · have hscan := scanAt_quote "a ".toList "\\\" b".toList
    have hopen : ¬ ∃ v, (scanAt "a \"\\\" b".toList 2).content = .string v := by
      rintro ⟨v, hv⟩
      cases hv
    exact (hscan.2.2.1 (mt hscan.1.2 hopen)).1

end SchemaLang
