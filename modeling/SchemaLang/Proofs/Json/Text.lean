import SchemaLang.Json.Reader
import SchemaLang.Json.Writer
import SchemaLang.Proofs.Token.Numeral
import SchemaLang.Proofs.Value.Equality

/-!
# Reading what was written

The text of a value is read as that value, whichever of the two forms it is written in, as long as
its numbers are integers of 64 bits and it is not nested too deep.  Deeper values have a text, too,
but that text is refused.

The two forms differ only in the blanks they put between the parts, and reading drops these.  So
the argument is about any way to write that follows the same equations, up to blanks, and both
forms are instances of it.

## Main definitions

* `Value.Exact` — numbers are integers of 64 bits, and names are distinct.
* `Value.nesting` — how deep a value is nested.
* `Json.rawOf` — the form in which a value is written.
* `Json.Writer` — ways to write, with their blanks and their equations.

## Main results

* `Json.readString?_quoted`, `Json.readNumeral?_integer` — strings and integers.
* `Json.Writer.reads_rawOf` — values, in front of any text that does not go on with a number.
* `Json.Writer.value?_value` — **a text is read as the value it was written for, up to the limit
  of nesting.**
-/

namespace SchemaLang

/-! ### Values -/

namespace Value

/-- All numbers are integers of 64 bits, with a sign or without, and in no object at any depth does
a name stand twice. -/
inductive Exact : Value → Prop where
  | null : Exact .null
  | bool (b : Bool) : Exact (.bool b)
  | int (n : Int) (low : -2 ^ 63 ≤ n) (high : n ≤ 2 ^ 64 - 1) : Exact (.int n)
  | str (s : String) : Exact (.str s)
  | arr (xs : List Value) (elements : ∀ x ∈ xs, Exact x) : Exact (.arr xs)
  | obj (ms : List (String × Value)) (distinct : (Entries.keys ms).Nodup)
    (members : ∀ e ∈ ms, Exact e.2) : Exact (.obj ms)

mutual

/-- How deep arrays and objects are nested. -/
def nesting : Value → Nat
  | .arr xs => nestingElements xs + 1
  | .obj ms => nestingMembers ms + 1
  | .null => 0
  | .bool _ => 0
  | .int _ => 0
  | .float _ => 0
  | .str _ => 0

/-- The deepest nesting of elements. -/
def nestingElements : List Value → Nat
  | [] => 0
  | x :: xs => max (nesting x) (nestingElements xs)

/-- The deepest nesting of members. -/
def nestingMembers : List (String × Value) → Nat
  | [] => 0
  | (_, v) :: ms => max (nesting v) (nestingMembers ms)

end

theorem nestingMembers_le_iff {ms : List (String × Value)} {n : Nat} :
    nestingMembers ms ≤ n ↔ ∀ e ∈ ms, e.2.nesting ≤ n := by
  induction ms with
  | nil => simp [nestingMembers]
  | cons e ms ih =>
    obtain ⟨k, v⟩ := e
    rw [nestingMembers, Nat.max_le, ih, List.forall_mem_cons]

end Value

namespace Entries

variable {α : Type}

/-- Entries with distinct names are put in as they stand. -/
theorem ofList_eq_self {es : Entries α} (hn : (keys es).Nodup) : ofList es = es := by
  have hput : ∀ done : Entries α, (keys done ++ keys es).Nodup →
      es.foldl (fun acc e => insert acc e.1 e.2) done = done ++ es := by
    clear hn
    induction es with
    | nil => simp
    | cons e es ih =>
      intro done hn
      rw [keys_cons, List.append_cons] at hn
      have hnew : e.1 ∉ keys done := by
        intro hmem
        exact (List.nodup_append.mp (List.nodup_append.mp hn).1).2.2 _ hmem _
          (List.mem_singleton_self _) rfl
      rw [List.foldl_cons, insert_eq_append hnew, ih (done ++ [(e.1, e.2)])
        (by simpa [keys] using hn), List.append_assoc]
      rfl
  exact hput [] hn

end Entries

namespace Json

/-! ### Strings -/

/-- The part that a character of a string is written as. -/
def partOf (c : Char) : Part :=
  if c.toNat < 0x20 ∧ c ≠ '\x08' ∧ c ≠ '\t' ∧ c ≠ '\n' ∧ c ≠ '\x0c' ∧ c ≠ '\r' then .unit c.toNat
  else .char c

theorem hexUnit?_control {n : Nat} (h : n < 0x20) :
    hexUnit? '0' '0' (hexDigit (n / 16)) (hexDigit (n % 16)) = some n := by
  revert n
  decide

/-- A character is read as the part it was written as. -/
theorem readString?_escaped (c : Char) (cs : List Char) :
    readString? (escaped c ++ cs) = addPart (some (partOf c)) (readString? cs) := by
  by_cases hquote : c = '"'
  · subst hquote
    rfl
  by_cases hslash : c = '\\'
  · subst hslash
    rfl
  by_cases hshort : c = '\x08' ∨ c = '\t' ∨ c = '\n' ∨ c = '\x0c' ∨ c = '\r'
  · rcases hshort with rfl | rfl | rfl | rfl | rfl
    all_goals rfl
  simp only [not_or] at hshort
  obtain ⟨hb, ht, hn, hf, hr⟩ := hshort
  rw [escaped, if_neg hquote, if_neg hslash, if_neg hb, if_neg ht, if_neg hn, if_neg hf, if_neg hr]
  by_cases hcontrol : c.toNat < 0x20
  · rw [if_pos hcontrol, partOf, if_pos ⟨hcontrol, hb, ht, hn, hf, hr⟩]
    show addPart ((hexUnit? '0' '0' _ _).map .unit) (readString? cs) = _
    rw [hexUnit?_control hcontrol]
    rfl
  · rw [if_neg hcontrol, partOf, if_neg (fun h => hcontrol h.1), List.singleton_append, readString?,
      if_neg hcontrol]
    · exact hquote
    · intro _ _ _ _ _ h
      exact absurd h hslash
    · intro _ _ h
      exact absurd h hslash

/-- A string is read as the parts of its characters. -/
theorem readString?_quoted (s : List Char) (rest : List Char) :
    readString? (s.flatMap escaped ++ '"' :: rest) = some (s.map partOf, rest) := by
  induction s with
  | nil => rfl
  | cons c s ih =>
    rw [List.flatMap_cons, List.append_assoc, readString?_escaped, ih]
    rfl

/-- A code unit of a control character stands for itself, whatever follows. -/
theorem text?_control {n : Nat} (h : n < 0x20) (ps : List Part) :
    text? (.unit n :: ps) = (text? ps).map (Char.ofNat n :: ·) := by
  have hhigh : isHighSurrogate n = false := by
    simp only [isHighSurrogate, Bool.and_eq_false_iff, decide_eq_false_iff_not]
    omega
  have hlow : isLowSurrogate n = false := by
    simp only [isLowSurrogate, Bool.and_eq_false_iff, decide_eq_false_iff_not]
    omega
  cases ps with
  | nil => simp [text?, hhigh, hlow]
  | cons p ps =>
    cases p with
    | char c => simp [text?, hhigh, hlow]
    | unit m => simp [text?, hhigh, hlow]

theorem text?_partOf (s : List Char) : text? (s.map partOf) = some s := by
  induction s with
  | nil => rfl
  | cons c s ih =>
    rw [List.map_cons, partOf]
    split
    · next hcontrol =>
      rw [text?_control hcontrol.1, ih]
      simp
    · rw [text?, ih]
      rfl

theorem string?_partOf (s : String) : string? (s.toList.map partOf) = some s := by
  rw [string?, text?_partOf]
  simp

/-! ### Integers -/

/-- The characters that a number may go on with. -/
def isNumberPart (c : Char) : Bool := c.isDigit || c == '.' || c == 'e' || c == 'E'

/-- An integer as it is written. -/
def numeralOf (n : Int) : Numeral := ⟨decide (n < 0), Nat.toDigits 10 n.natAbs, none, none⟩

theorem isDigit_of_mem_toDigits {n : Nat} : ∀ c ∈ Nat.toDigits 10 n, c.isDigit = true := by
  intro c hc
  exact Nat.isDigit_of_mem_toDigits (by omega) (by omega) hc

/-- Only zero is written with a zero in front. -/
theorem head?_toDigits {n : Nat} (h : 0 < n) : (Nat.toDigits 10 n).head? ≠ some '0' := by
  induction n using Nat.strongRecOn with
  | ind n ih =>
    rw [Nat.toDigits_eq_if (by omega)]
    by_cases hn : n < 10
    · have hdigit : ∀ k < 10, 0 < k → Nat.digitChar k ≠ '0' := by decide
      rw [if_pos hn, List.head?_cons, Ne, Option.some.injEq]
      exact hdigit n hn h
    · rw [if_neg hn, List.head?_append_of_ne_nil _ Nat.toDigits_ne_nil]
      exact ih (n / 10) (by omega) (by omega)

theorem StopsAt.isDigit {rest : List Char} (h : StopsAt isNumberPart rest) :
    StopsAt Char.isDigit rest := by
  intro c hc
  have hpart := h c hc
  simp only [isNumberPart, Bool.or_eq_false_iff] at hpart
  exact hpart.1.1.1

theorem readWhole?_toDigits (n : Nat) {rest : List Char} (hrest : StopsAt Char.isDigit rest) :
    readWhole? (Nat.toDigits 10 n ++ rest) = some (Nat.toDigits 10 n, rest) := by
  by_cases hn : n = 0
  · subst hn
    rw [Nat.toDigits_zero, List.singleton_append, readWhole?, if_neg]
    cases rest with
    | nil => simp
    | cons c cs => simpa using hrest c rfl
  · have hrun : readDigits? (Nat.toDigits 10 n ++ rest) = some (Nat.toDigits 10 n, rest) := by
      rw [readDigits?, takeWhile_run isDigit_of_mem_toDigits hrest,
        dropWhile_run isDigit_of_mem_toDigits hrest]
      simp
    rw [← hrun, readWhole?]
    intro cs hcs
    have hhead := head?_toDigits (Nat.pos_of_ne_zero hn)
    rw [← List.head?_append_of_ne_nil _ Nat.toDigits_ne_nil, hcs] at hhead
    exact hhead rfl

/-- Behind its digits an integer has neither a point nor an exponent. -/
theorem readFraction?_eq_none {rest : List Char} (hrest : StopsAt isNumberPart rest) :
    readFraction? rest = some (none, rest) ∧ readExponent? rest = some (none, rest) := by
  cases rest with
  | nil => exact ⟨rfl, rfl⟩
  | cons c cs =>
    have hc : isNumberPart c = false := hrest c rfl
    simp only [isNumberPart, Bool.or_eq_false_iff, beq_eq_false_iff_ne] at hc
    obtain ⟨⟨⟨-, hdot⟩, he⟩, hE⟩ := hc
    constructor
    · rw [readFraction?]
      intro cs' h
      exact hdot (List.cons.inj h).1
    · rw [readExponent?, if_neg (not_or.mpr ⟨he, hE⟩)]

theorem readSign_integer (n : Int) (rest : List Char) :
    readSign (integer n ++ rest) = (decide (n < 0), Nat.toDigits 10 n.natAbs ++ rest) := by
  rw [integer]
  by_cases hn : n < 0
  · rw [if_pos hn, List.append_assoc, decide_eq_true hn]
    rfl
  · rw [if_neg hn, List.nil_append, decide_eq_false hn, readSign]
    intro cs hcs
    have hdigit : '-' ∈ Nat.toDigits 10 n.natAbs := by
      refine List.mem_of_mem_head? ?_
      rw [← List.head?_append_of_ne_nil _ Nat.toDigits_ne_nil, hcs]
      rfl
    exact absurd (isDigit_of_mem_toDigits _ hdigit) (by decide)

/-- An integer is read as it was written. -/
theorem readNumeral?_integer (n : Int) {rest : List Char} (hrest : StopsAt isNumberPart rest) :
    readNumeral? (integer n ++ rest) = some (numeralOf n, rest) := by
  obtain ⟨hfraction, hexponent⟩ := readFraction?_eq_none hrest
  simp only [readNumeral?, readSign_integer, readWhole?_toDigits _ (StopsAt.isDigit hrest),
    hfraction, hexponent, Option.bind_eq_bind, Option.bind_some]
  rfl

theorem le_digits (n : Nat) (ds : List Char) :
    n ≤ ds.foldl (fun n d => 10 * n + (d.toNat - '0'.toNat)) n := by
  induction ds generalizing n with
  | nil => exact Nat.le_refl n
  | cons d ds ih =>
    have hrest := ih (10 * n + (d.toNat - '0'.toNat))
    rw [List.foldl_cons]
    omega

/-- Digits are all taken as long as their value is within the limit. -/
theorem takeDigits_eq {limit n : Nat} {ds : List Char}
    (h : ds.foldl (fun n d => 10 * n + (d.toNat - '0'.toNat)) n ≤ limit) :
    takeDigits limit n ds = (ds.foldl (fun n d => 10 * n + (d.toNat - '0'.toNat)) n, []) := by
  induction ds generalizing n with
  | nil => rfl
  | cons d ds ih =>
    rw [List.foldl_cons] at h ⊢
    rw [takeDigits, if_pos ((le_digits _ ds).trans h)]
    exact ih h

theorem value?_numeralOf {n : Int} (hlow : -2 ^ 63 ≤ n) (hhigh : n ≤ 2 ^ 64 - 1) :
    (numeralOf n).value? = some (.int n) := by
  have hvalue : (Nat.toDigits 10 n.natAbs).foldl (fun n d => 10 * n + (d.toNat - '0'.toNat)) 0 =
      n.natAbs := Nat.ofDigitChars_ten_toDigits
  have htake : takeDigits mostSignificand 0 (Nat.toDigits 10 n.natAbs) = (n.natAbs, []) := by
    rw [takeDigits_eq, hvalue]
    rw [hvalue, mostSignificand]
    omega
  unfold Numeral.value?
  simp only [numeralOf, htake]
  by_cases hn : n < 0
  · have hbound : 0 < n.natAbs ∧ n.natAbs ≤ 9223372036854775808 := by omega
    simp [hn, hbound, abs_of_neg hn]
  · simp [hn, abs_of_nonneg (Int.not_lt.mp hn)]

/-! ### Blanks -/

theorem skip_append {bs : List Char} (hbs : ∀ c ∈ bs, isBlank c = true) (cs : List Char) :
    skip (bs ++ cs) = skip cs :=
  List.dropWhile_append_of_pos hbs

theorem skip_cons {c : Char} (hc : isBlank c = false) (cs : List Char) :
    skip (c :: cs) = c :: cs := by
  rw [skip, List.dropWhile_cons, hc]
  rfl

theorem noBlanks : ∀ c ∈ ([] : List Char), isBlank c = true := by simp

theorem readValue?_append {bs : List Char} (hbs : ∀ c ∈ bs, isBlank c = true) (fuel : Nat)
    (cs : List Char) : readValue? fuel (bs ++ cs) = readValue? fuel cs := by
  cases fuel with
  | zero => rfl
  | succ fuel => rw [readValue?, readValue?, skip_append hbs]

/-- Blanks in front of a mark do not continue a number. -/
theorem stopsAt_append {bs : List Char} (hbs : ∀ c ∈ bs, isBlank c = true) {c : Char}
    (hc : isNumberPart c = false) (cs : List Char) : StopsAt isNumberPart (bs ++ c :: cs) := by
  cases bs with
  | nil => exact stopsAt_cons hc
  | cons b bs =>
    refine stopsAt_cons ?_
    have hb : isBlank b = true := hbs b List.mem_cons_self
    simp only [isBlank, Bool.or_eq_true, beq_iff_eq] at hb
    rcases hb with ((rfl | rfl) | rfl) | rfl
    all_goals rfl

/-- A name is read up to its colon. -/
theorem readName?_quoted {bs : List Char} (hbs : ∀ c ∈ bs, isBlank c = true) (name : String)
    (cs : List Char) :
    readName? (bs ++ (quoted name ++ ':' :: cs)) = some (name.toList.map partOf, cs) := by
  have hread : readString? (name.toList.flatMap escaped ++ ['"'] ++ ':' :: cs) =
      some (name.toList.map partOf, ':' :: cs) := by
    rw [List.append_assoc]
    exact readString?_quoted name.toList (':' :: cs)
  rw [readName?, skip_append hbs, quoted, List.cons_append, List.cons_append, skip_cons rfl]
  simp only [hread, skip_cons (c := ':') rfl]

/-! ### Values as written -/

mutual

/-- The form in which a value is written.  Numbers that are not integers are not looked at here. -/
def rawOf : Value → Raw
  | .null => .null
  | .bool b => .bool b
  | .int n => .number (numeralOf n)
  | .float _ => .null
  | .str s => .string (s.toList.map partOf)
  | .arr xs => .array (rawElements xs)
  | .obj ms => .object (rawMembers ms)

/-- The elements of an array as they are written. -/
def rawElements : List Value → List Raw
  | [] => []
  | x :: xs => rawOf x :: rawElements xs

/-- The members of an object as they are written. -/
def rawMembers : List (String × Value) → List (List Part × Raw)
  | [] => []
  | (k, v) :: ms => (k.toList.map partOf, rawOf v) :: rawMembers ms

end

theorem rawElements_eq (xs : List Value) : rawElements xs = xs.map rawOf := by
  induction xs with
  | nil => rfl
  | cons x xs ih => rw [rawElements, ih, List.map_cons]

theorem rawMembers_eq (ms : List (String × Value)) :
    rawMembers ms = ms.map fun m => (m.1.toList.map partOf, rawOf m.2) := by
  induction ms with
  | nil => rfl
  | cons m ms ih => rw [rawMembers, ih, List.map_cons]

/-! ### Ways to write -/

/-- A way to write values in front of a text: it has blanks of its own at the start of a line at
each level and after a colon, and all else is what JSON asks for. -/
structure Writer where
  /-- The start of a line at a level. -/
  line : Nat → List Char
  /-- What stands between a colon and a value. -/
  gap : List Char
  /-- Writes a value at a level. -/
  value : Nat → Value → List Char → List Char
  /-- Writes further elements of an array. -/
  elements : Nat → List Value → List Char → List Char
  /-- Writes further members of an object. -/
  members : Nat → List (String × Value) → List Char → List Char
  line_blank : ∀ level, ∀ c ∈ line level, isBlank c = true
  gap_blank : ∀ c ∈ gap, isBlank c = true
  value_null : ∀ level rest, value level .null rest = null ++ rest
  value_bool : ∀ level b rest, value level (.bool b) rest = boolean b ++ rest
  value_int : ∀ level n rest, value level (.int n) rest = integer n ++ rest
  value_str : ∀ level s rest, value level (.str s) rest = quoted s ++ rest
  value_arr_nil : ∀ level rest, value level (.arr []) rest = '[' :: ']' :: rest
  value_arr_cons : ∀ level x xs rest, value level (.arr (x :: xs)) rest =
    '[' :: (line (level + 1) ++
      value (level + 1) x (elements (level + 1) xs (line level ++ ']' :: rest)))
  value_obj_nil : ∀ level rest, value level (.obj []) rest = '{' :: '}' :: rest
  value_obj_cons : ∀ level k v ms rest, value level (.obj ((k, v) :: ms)) rest =
    '{' :: (line (level + 1) ++ (quoted k ++ ':' :: (gap ++
      value (level + 1) v (members (level + 1) ms (line level ++ '}' :: rest)))))
  elements_nil : ∀ level rest, elements level [] rest = rest
  elements_cons : ∀ level x xs rest, elements level (x :: xs) rest =
    ',' :: (line level ++ value level x (elements level xs rest))
  members_nil : ∀ level rest, members level [] rest = rest
  members_cons : ∀ level k v ms rest, members level ((k, v) :: ms) rest =
    ',' :: (line level ++ (quoted k ++ ':' :: (gap ++ value level v (members level ms rest))))

/-- Writing without blanks. -/
def compactWriter : Writer where
  line _ := []
  gap := []
  value _ := compactOnto
  elements _ := compactElements
  members _ := compactMembers
  line_blank := by simp
  gap_blank := by simp
  value_null _ _ := by rw [compactOnto]
  value_bool _ _ _ := by rw [compactOnto]
  value_int _ _ _ := by rw [compactOnto]
  value_str _ _ _ := by rw [compactOnto]
  value_arr_nil _ _ := by rw [compactOnto]
  value_arr_cons _ _ _ _ := by rw [compactOnto]; rfl
  value_obj_nil _ _ := by rw [compactOnto]
  value_obj_cons _ _ _ _ _ := by rw [compactOnto]; rfl
  elements_nil _ _ := by rw [compactElements]
  elements_cons _ _ _ _ := by rw [compactElements]; rfl
  members_nil _ _ := by rw [compactMembers]
  members_cons _ _ _ _ _ := by rw [compactMembers]; rfl

theorem newLine_blank (level : Nat) : ∀ c ∈ newLine level, isBlank c = true := by
  intro c hc
  rcases List.mem_cons.mp hc with rfl | hc
  · rfl
  · rw [List.eq_of_mem_replicate hc]
    rfl

/-- Writing one element or member on a line. -/
def prettyWriter : Writer where
  line := newLine
  gap := [' ']
  value := prettyOnto
  elements := prettyElements
  members := prettyMembers
  line_blank := newLine_blank
  gap_blank := by simp [isBlank]
  value_null _ _ := by rw [prettyOnto]
  value_bool _ _ _ := by rw [prettyOnto]
  value_int _ _ _ := by rw [prettyOnto]
  value_str _ _ _ := by rw [prettyOnto]
  value_arr_nil _ _ := by rw [prettyOnto]
  value_arr_cons _ _ _ _ := by rw [prettyOnto]; rfl
  value_obj_nil _ _ := by rw [prettyOnto]
  value_obj_cons _ _ _ _ _ := by rw [prettyOnto]; simp
  elements_nil _ _ := by rw [prettyElements]
  elements_cons _ _ _ _ := by rw [prettyElements]; rfl
  members_nil _ _ := by rw [prettyMembers]
  members_cons _ _ _ _ _ := by rw [prettyMembers]; simp

namespace Writer

variable (w : Writer)

/-- What is written for a value is read as `x`, in front of any text that does not continue a
number, and `x` stands for the value. -/
structure Reads (v : Value) (x : Raw) : Prop where
  /-- The form that is read stands for the value. -/
  value : x.value? = some v
  /-- It is nested as deep. -/
  nesting : x.nesting = v.nesting
  /-- Something is written, and it starts with neither a blank nor a closing mark. -/
  text : ∀ level rest, ∃ c cs, w.value level v rest = c :: cs ∧ isBlank c = false ∧ c ≠ ']' ∧
    rest.length ≤ cs.length
  /-- As many steps as there are characters, twice, are enough to read it. -/
  read : ∀ level rest fuel, StopsAt isNumberPart rest →
    2 * (w.value level v rest).length ≤ fuel →
    readValue? fuel (w.value level v rest) = some (x, rest)

/-- The same for a member and its name. -/
def ReadsMember (m : String × Value) (y : List Part × Raw) : Prop :=
  y.1 = m.1.toList.map partOf ∧ w.Reads m.2 y.2

variable {w}

theorem Reads.length_lt {v : Value} {x : Raw} (h : w.Reads v x) (level : Nat) (rest : List Char) :
    rest.length < (w.value level v rest).length := by
  obtain ⟨c, cs, htext, -, -, hlength⟩ := h.text level rest
  rw [htext, List.length_cons]
  exact Nat.lt_succ_of_le hlength

/-! #### Elements and members -/

theorem length_elements {vs : List Value} {xs : List Raw} (h : List.Forall₂ w.Reads vs xs)
    (level : Nat) (rest : List Char) : rest.length ≤ (w.elements level vs rest).length := by
  induction h with
  | nil => rw [w.elements_nil]
  | @cons v _ vs _ h _ ih =>
    have hlength := h.length_lt level (w.elements level vs rest)
    rw [w.elements_cons, List.length_cons, List.length_append]
    omega

theorem length_members {ms : List (String × Value)} {ys : List (List Part × Raw)}
    (h : List.Forall₂ w.ReadsMember ms ys) (level : Nat) (rest : List Char) :
    rest.length ≤ (w.members level ms rest).length := by
  induction h with
  | nil => rw [w.members_nil]
  | @cons m _ ms _ h _ ih =>
    obtain ⟨k, v⟩ := m
    have hv : w.Reads v _ := h.2
    have hlength := hv.length_lt level (w.members level ms rest)
    simp only [w.members_cons, List.length_cons, List.length_append]
    omega

theorem readElements?_elements {v : Value} {x : Raw} {vs : List Value} {xs : List Raw}
    (h : w.Reads v x) (hs : List.Forall₂ w.Reads vs xs) (level : Nat) {bs stop : List Char}
    (hbs : ∀ c ∈ bs, isBlank c = true) (hstop : ∀ c ∈ stop, isBlank c = true) (rest : List Char)
    {fuel : Nat}
    (hfuel : 2 * (w.value level v (w.elements level vs (stop ++ ']' :: rest))).length + 1 ≤ fuel) :
    readElements? fuel (bs ++ w.value level v (w.elements level vs (stop ++ ']' :: rest))) =
      some (x :: xs, rest) := by
  induction hs generalizing v x bs fuel with
  | nil =>
    rw [w.elements_nil] at hfuel ⊢
    obtain ⟨fuel, rfl⟩ : ∃ n, fuel = n + 1 := ⟨fuel - 1, by omega⟩
    have hread := h.read level _ fuel (stopsAt_append hstop (c := ']') rfl rest)
      (Nat.le_of_succ_le_succ hfuel)
    rw [readElements?, readValue?_append hbs, hread]
    simp only [skip_append hstop, skip_cons (c := ']') rfl]
  | @cons v' x' vs xs h' _ ih =>
    rw [w.elements_cons] at hfuel ⊢
    obtain ⟨fuel, rfl⟩ : ∃ n, fuel = n + 1 := ⟨fuel - 1, by omega⟩
    have hread := h.read level _ fuel (stopsAt_cons (c := ',') rfl) (Nat.le_of_succ_le_succ hfuel)
    -- the first element takes at least one character, and so does the comma
    have hlength := h.length_lt level
      (',' :: (w.line level ++ w.value level v' (w.elements level vs (stop ++ ']' :: rest))))
    rw [List.length_cons, List.length_append] at hlength
    have hrest := ih h' (w.line_blank level) (show _ ≤ fuel by omega)
    rw [readElements?, readValue?_append hbs, hread]
    simp only [skip_cons (c := ',') rfl, hrest, Option.map_some]

theorem readMembers?_members {v : Value} {x : Raw} {ms : List (String × Value)}
    {ys : List (List Part × Raw)} (k : String) (h : w.Reads v x)
    (hs : List.Forall₂ w.ReadsMember ms ys) (level : Nat) {bs stop : List Char}
    (hbs : ∀ c ∈ bs, isBlank c = true) (hstop : ∀ c ∈ stop, isBlank c = true) (rest : List Char)
    {fuel : Nat}
    (hfuel : 2 * (w.value level v (w.members level ms (stop ++ '}' :: rest))).length + 1 ≤ fuel) :
    readMembers? fuel (bs ++ (quoted k ++ ':' :: (w.gap ++
        w.value level v (w.members level ms (stop ++ '}' :: rest))))) =
      some ((k.toList.map partOf, x) :: ys, rest) := by
  induction hs generalizing k v x bs fuel with
  | nil =>
    rw [w.members_nil] at hfuel ⊢
    obtain ⟨fuel, rfl⟩ : ∃ n, fuel = n + 1 := ⟨fuel - 1, by omega⟩
    have hread := h.read level _ fuel (stopsAt_append hstop (c := '}') rfl rest)
      (Nat.le_of_succ_le_succ hfuel)
    rw [readMembers?, readName?_quoted hbs]
    simp only [readValue?_append w.gap_blank, hread, skip_append hstop, skip_cons (c := '}') rfl]
  | @cons m y ms ys h' _ ih =>
    obtain ⟨k', v'⟩ := m
    obtain ⟨name, x'⟩ := y
    obtain ⟨rfl, hx'⟩ := h'
    rw [w.members_cons] at hfuel ⊢
    obtain ⟨fuel, rfl⟩ : ∃ n, fuel = n + 1 := ⟨fuel - 1, by omega⟩
    have hread := h.read level _ fuel (stopsAt_cons (c := ',') rfl) (Nat.le_of_succ_le_succ hfuel)
    have hlength := h.length_lt level (',' :: (w.line level ++ (quoted k' ++
      ':' :: (w.gap ++ w.value level v' (w.members level ms (stop ++ '}' :: rest))))))
    rw [List.length_cons, List.length_append, List.length_append, List.length_cons,
      List.length_append] at hlength
    have hrest := ih (v := v') k' hx' (w.line_blank level) (show _ ≤ fuel by omega)
    rw [readMembers?, readName?_quoted hbs]
    simp only [readValue?_append w.gap_blank, hread, skip_cons (c := ',') rfl, hrest,
      Option.map_some]

theorem valueElements?_eq {vs : List Value} {xs : List Raw} (h : List.Forall₂ w.Reads vs xs) :
    Raw.valueElements? xs = some vs ∧ Raw.nestingElements xs = Value.nestingElements vs := by
  induction h with
  | nil => exact ⟨rfl, rfl⟩
  | cons h _ ih =>
    rw [Raw.valueElements?, h.value, ih.1, Raw.nestingElements, h.nesting, ih.2,
      Value.nestingElements]
    exact ⟨rfl, rfl⟩

theorem valueMembers?_eq {ms : List (String × Value)} {ys : List (List Part × Raw)}
    (h : List.Forall₂ w.ReadsMember ms ys) :
    Raw.valueMembers? ys = some ms ∧ Raw.nestingMembers ys = Value.nestingMembers ms := by
  induction h with
  | nil => exact ⟨rfl, rfl⟩
  | @cons m y _ _ h _ ih =>
    obtain ⟨k, v⟩ := m
    obtain ⟨name, x⟩ := y
    obtain ⟨rfl, h⟩ := h
    rw [Raw.valueMembers?, string?_partOf, h.value, ih.1, Raw.nestingMembers, h.nesting, ih.2,
      Value.nestingMembers]
    exact ⟨rfl, rfl⟩

/-! #### Values -/

/-- Values of one part: their text starts with none of the marks. -/
theorem reads_scalar {v : Value} {x : Raw} {t : List Char}
    (hwrite : ∀ level rest, w.value level v rest = t ++ rest)
    (hstart : ∃ c cs, t = c :: cs ∧ isBlank c = false ∧ c ≠ ']' ∧ c ≠ '[' ∧ c ≠ '{')
    (hread : ∀ rest, StopsAt isNumberPart rest → readScalar? (t ++ rest) = some (x, rest))
    (hvalue : x.value? = some v) (hnesting : x.nesting = v.nesting) : w.Reads v x where
  value := hvalue
  nesting := hnesting
  text level rest := by
    obtain ⟨c, cs, rfl, hblank, hclose, -⟩ := hstart
    exact ⟨c, cs ++ rest, hwrite level rest, hblank, hclose, by simp⟩
  read level rest fuel hrest hfuel := by
    obtain ⟨c, cs, rfl, hblank, -, hbracket, hbrace⟩ := hstart
    rw [hwrite, List.cons_append, List.length_cons] at hfuel
    obtain ⟨fuel, rfl⟩ : ∃ n, fuel = n + 1 := ⟨fuel - 1, by omega⟩
    have hscalar := hread rest hrest
    rw [hwrite, List.cons_append, readValue?, skip_cons hblank]
    rw [List.cons_append] at hscalar
    split
    · next h => exact absurd (List.cons.inj h).1 hbracket
    · next h => exact absurd (List.cons.inj h).1 hbrace
    · exact hscalar

theorem reads_null : w.Reads .null .null :=
  reads_scalar w.value_null ⟨_, _, rfl, by decide⟩ (fun _ _ => rfl) rfl rfl

theorem reads_bool (b : Bool) : w.Reads (.bool b) (.bool b) := by
  cases b with
  | true =>
    exact reads_scalar (w.value_bool · true) ⟨_, _, rfl, by decide⟩ (fun _ _ => rfl) rfl rfl
  | false =>
    exact reads_scalar (w.value_bool · false) ⟨_, _, rfl, by decide⟩ (fun _ _ => rfl) rfl rfl

theorem reads_str (s : String) : w.Reads (.str s) (.string (s.toList.map partOf)) := by
  refine reads_scalar (w.value_str · s) ⟨_, _, rfl, by decide⟩ (fun rest _ => ?_) ?_ rfl
  · rw [quoted, List.cons_append, List.cons_append, List.append_assoc, readScalar?,
      List.singleton_append, readString?_quoted]
    rfl
  · rw [Raw.value?, string?_partOf]
    rfl

theorem reads_int {n : Int} (hlow : -2 ^ 63 ≤ n) (hhigh : n ≤ 2 ^ 64 - 1) :
    w.Reads (.int n) (.number (numeralOf n)) := by
  obtain ⟨c, cs, htext, hc⟩ : ∃ c cs, integer n = c :: cs ∧ (c = '-' ∨ c.isDigit = true) := by
    obtain ⟨d, ds, hdigits⟩ := List.exists_cons_of_ne_nil (@Nat.toDigits_ne_nil n.natAbs 10)
    have hd : d.isDigit = true := isDigit_of_mem_toDigits d (hdigits ▸ List.mem_cons_self)
    rw [integer, hdigits]
    by_cases hn : n < 0
    · exact ⟨'-', d :: ds, by rw [if_pos hn]; rfl, .inl rfl⟩
    · exact ⟨d, ds, by rw [if_neg hn]; rfl, .inr hd⟩
  have hother : ∀ m : Char, m ≠ '-' → m.isDigit = false → c ≠ m := by
    rintro m hminus hdigit rfl
    rcases hc with rfl | hc
    · exact hminus rfl
    · rw [hdigit] at hc
      cases hc
  refine reads_scalar (w.value_int · n) ⟨c, cs, htext, ?_⟩ (fun rest hrest => ?_)
    (value?_numeralOf hlow hhigh) rfl
  · simp only [isBlank, Bool.or_eq_false_iff, beq_eq_false_iff_ne]
    refine ⟨⟨⟨⟨?_, ?_⟩, ?_⟩, ?_⟩, ?_, ?_, ?_⟩
    all_goals exact hother _ (by decide) (by decide)
  · have hread := readNumeral?_integer n hrest
    rw [htext, List.cons_append] at hread ⊢
    rw [readScalar?, hread]
    · rfl
    all_goals
      intro cs' h
      exact hother _ (by decide) (by decide) (List.cons.inj h).1

theorem reads_arr {vs : List Value} {xs : List Raw} (h : List.Forall₂ w.Reads vs xs) :
    w.Reads (.arr vs) (.array xs) := by
  obtain ⟨hvalue, hnesting⟩ := valueElements?_eq h
  refine ⟨?_, ?_, fun level rest => ?_, fun level rest fuel hrest hfuel => ?_⟩
  · rw [Raw.value?, hvalue]
    rfl
  · rw [Raw.nesting, hnesting, Value.nesting]
  · cases h with
    | nil => exact ⟨_, _, w.value_arr_nil level rest, by decide, by decide, by simp⟩
    | @cons v _ vs _ h hs =>
      refine ⟨_, _, w.value_arr_cons level v vs rest, by decide, by decide, ?_⟩
      have hfirst := h.length_lt (level + 1)
        (w.elements (level + 1) vs (w.line level ++ ']' :: rest))
      have hfurther := length_elements hs (level + 1) (w.line level ++ ']' :: rest)
      rw [List.length_append, List.length_cons] at hfurther
      rw [List.length_append]
      omega
  · cases h with
    | nil =>
      rw [w.value_arr_nil] at hfuel ⊢
      obtain ⟨fuel, rfl⟩ : ∃ n, fuel = n + 1 := ⟨fuel - 1, by simp at hfuel; omega⟩
      rw [readValue?, skip_cons rfl]
      simp only [skip_cons (c := ']') rfl]
    | @cons v x vs xs h hs =>
      rw [w.value_arr_cons] at hfuel ⊢
      rw [List.length_cons, List.length_append] at hfuel
      obtain ⟨fuel, rfl⟩ : ∃ n, fuel = n + 1 := ⟨fuel - 1, by omega⟩
      obtain ⟨c, cs, htext, hblank, hclose, -⟩ := h.text (level + 1)
        (w.elements (level + 1) vs (w.line level ++ ']' :: rest))
      have hread := readElements?_elements h hs (level + 1) noBlanks (w.line_blank level) rest
        (show _ ≤ fuel by omega)
      rw [List.nil_append, htext] at hread
      rw [readValue?, skip_cons rfl]
      simp only [skip_append (w.line_blank (level + 1)), htext, skip_cons hblank]
      split
      · next h => exact absurd (List.cons.inj h).1 hclose
      · rw [hread]
        rfl

theorem reads_obj {ms : List (String × Value)} {ys : List (List Part × Raw)}
    (hn : (Entries.keys ms).Nodup) (h : List.Forall₂ w.ReadsMember ms ys) :
    w.Reads (.obj ms) (.object ys) := by
  obtain ⟨hvalue, hnesting⟩ := valueMembers?_eq h
  refine ⟨?_, ?_, fun level rest => ?_, fun level rest fuel hrest hfuel => ?_⟩
  · rw [Raw.value?, hvalue, Option.map_some, Entries.ofList_eq_self hn]
  · rw [Raw.nesting, hnesting, Value.nesting]
  · cases h with
    | nil => exact ⟨_, _, w.value_obj_nil level rest, by decide, by decide, by simp⟩
    | @cons m _ ms _ h hs =>
      obtain ⟨k, v⟩ := m
      refine ⟨_, _, w.value_obj_cons level k v ms rest, by decide, by decide, ?_⟩
      have hv : w.Reads v _ := h.2
      have hfirst := hv.length_lt (level + 1)
        (w.members (level + 1) ms (w.line level ++ '}' :: rest))
      have hfurther := length_members hs (level + 1) (w.line level ++ '}' :: rest)
      rw [List.length_append, List.length_cons] at hfurther
      simp only [List.length_append, List.length_cons]
      omega
  · cases h with
    | nil =>
      rw [w.value_obj_nil] at hfuel ⊢
      obtain ⟨fuel, rfl⟩ : ∃ n, fuel = n + 1 := ⟨fuel - 1, by simp at hfuel; omega⟩
      rw [readValue?, skip_cons rfl]
      simp only [skip_cons (c := '}') rfl]
    | @cons m y ms ys h hs =>
      obtain ⟨k, v⟩ := m
      obtain ⟨name, x⟩ := y
      obtain ⟨rfl, hx⟩ := h
      rw [w.value_obj_cons] at hfuel ⊢
      simp only [List.length_cons, List.length_append] at hfuel
      obtain ⟨fuel, rfl⟩ : ∃ n, fuel = n + 1 := ⟨fuel - 1, by omega⟩
      have hread := readMembers?_members (v := v) k hx hs (level + 1) noBlanks (w.line_blank level)
        rest (show _ ≤ fuel by omega)
      rw [List.nil_append, quoted, List.cons_append, List.cons_append] at hread
      rw [readValue?, skip_cons rfl]
      simp only [skip_append (w.line_blank (level + 1)), quoted, List.cons_append,
        skip_cons (c := '"') rfl]
      split
      · next h => cases h
      · rw [hread]
        rfl

/-- **What is written is read**, value by value. -/
theorem reads_rawOf {v : Value} (hv : v.Exact) : w.Reads v (rawOf v) := by
  induction hv with
  | null => exact reads_null
  | bool b => exact reads_bool b
  | int n low high => exact reads_int low high
  | str s => exact reads_str s
  | arr xs _ ih =>
    rw [rawOf, rawElements_eq]
    exact reads_arr (List.forall₂_map_right_iff.mpr (List.forall₂_same.mpr ih))
  | obj ms distinct _ ih =>
    rw [rawOf, rawMembers_eq]
    refine reads_obj distinct (List.forall₂_map_right_iff.mpr (List.forall₂_same.mpr ?_))
    intro m hm
    exact ⟨rfl, ih m hm⟩

/-- A whole text is read as the value it was written for. -/
theorem read?_value {v : Value} {x : Raw} (h : w.Reads v x) :
    read? (w.value 0 v []) = some x := by
  rw [read?, h.read 0 [] _ (stopsAt_nil _) (by omega)]
  rfl

variable (w) in
/-- **A text is read as the value it was written for, up to the limit of nesting**; what is nested
deeper is refused. -/
theorem value?_value {v : Value} (hv : v.Exact) :
    value? (w.value 0 v []) = if v.nesting ≤ mostNesting then some v else none := by
  have hreads : w.Reads v (rawOf v) := reads_rawOf hv
  rw [value?, read?_value hreads, Option.bind_some, Raw.valueWithin?, hreads.nesting, hreads.value]

end Writer

end Json

end SchemaLang
