import SchemaLang.Grammar.Step
import SchemaLang.Proofs.Grammar.Slice

/-!
# The cursor

A reader goes through a source with a cursor.  The cursor stands at the start or right behind a
token, blanks and comments counting as tokens, and it only goes forward, whether the reader succeeds
or fails.  Where it stands decides what is left to read, so that a reader that has not moved can
only do the same again.

From this follow the loops.  A repetition is described by rules of its own, which ask whether the
cursor has moved and know no bound: that there is a derivation says that the repetition ends.  The
loops that ask for the next token end as well, since whatever such a loop reads takes a token.  And
data is read to any depth: no bound on the nesting that exceeds the number of tokens left can be
told from another.

## Main definitions

* `Input.behind` — the input with the cursor behind so many tokens of a source.
* `Parser.Advances` — a reader moves the cursor forward from token to token.
* `Parser.Iterates`, `Parser.Loops` — the rules of the two kinds of loops.

## Main results

* `Input.behind_eq_of_offset` — where the cursor stands decides what is left.
* `Parser.Advances.bind`, `Parser.advances_many` and others — the readers of the grammar.
* `Parser.Iterates.maximal` — a repetition goes as far as it can.
* `Grammar.dataWithin_eq_data` — the bound on the nesting of data does not matter.
* `cursor_discipline` — **the cursor of every sequence of steps.**
-/

namespace SchemaLang

open SchemaLang.Parser

/-! ### Where the cursor stands -/

namespace Token

/-- Behind some of the tokens of a text, as many bytes are passed as these tokens have. -/
theorem reach_eq_byteLength {start : Nat} {cs : List Char} {ts us : List Token}
    (h : stream start cs = ts ++ us) : reach start ts = start + byteLength (lexemes ts) := by
  rw [← reach_stream, stream_lexemes h]

theorem start_eq_reach {source : List Char} {ts us : List Token} {t : Token}
    (h : stream 0 source = ts ++ t :: us) : t.start = reach 0 ts := by
  obtain ⟨rest, -, hrest⟩ := stream_eq_append h
  rw [reach_eq_byteLength h]
  cases rest with
  | nil => simp [stream] at hrest
  | cons c cs =>
    rw [stream_cons, List.cons.injEq] at hrest
    rw [hrest.1]

theorem reach_append (offset : Nat) (ts us : List Token) :
    reach offset (ts ++ us) = reach (reach offset ts) us := List.foldl_append

theorem byteLength_lexemes_append (ts us : List Token) :
    byteLength (lexemes (ts ++ us)) = byteLength (lexemes ts) + byteLength (lexemes us) := by
  rw [lexemes, List.flatMap_append, byteLength_append]
  rfl

end Token

namespace Input

variable (source : List Char)

/-- The input with the cursor behind the first `n` tokens of a source, those that are not code
counted, or behind all of them if there are not so many. -/
def behind (n : Nat) : Input :=
  ⟨Token.reach 0 ((Token.stream 0 source).take n),
    ((Token.stream 0 source).drop n).filter (·.category.isCode), byteLength source⟩

/-- Going on takes some of the tokens that are left, and their bytes. -/
theorem exists_between (m k : Nat) :
    ∃ mid, Token.stream 0 source = (Token.stream 0 source).take m ++
        (mid ++ (Token.stream 0 source).drop (m + k)) ∧
      (Token.stream 0 source).take (m + k) = (Token.stream 0 source).take m ++ mid ∧
      (Token.stream 0 source).drop m = mid ++ (Token.stream 0 source).drop (m + k) := by
  refine ⟨((Token.stream 0 source).drop m).take k, ?_, ?_, ?_⟩
  · rw [← List.drop_drop, List.take_append_drop, List.take_append_drop]
  · rw [List.take_add]
  · rw [← List.drop_drop, List.take_append_drop]

theorem offset_behind (n : Nat) : (behind source n).offset =
    byteLength (Token.lexemes ((Token.stream 0 source).take n)) := by
  show Token.reach 0 _ = _
  rw [Token.reach_eq_byteLength (List.take_append_drop n _).symm, Nat.zero_add]

theorem offset_behind_le (m k : Nat) :
    (behind source m).offset ≤ (behind source (m + k)).offset := by
  obtain ⟨mid, -, htake, -⟩ := exists_between source m k
  rw [offset_behind, offset_behind, htake, Token.byteLength_lexemes_append]
  omega

variable {source} in
/-- **Where the cursor stands decides what is left.** -/
theorem behind_eq_of_offset {m k : Nat}
    (h : (behind source (m + k)).offset = (behind source m).offset) :
    behind source (m + k) = behind source m := by
  obtain ⟨mid, hstream, htake, hdrop⟩ := exists_between source m k
  rw [offset_behind, offset_behind, htake, Token.byteLength_lexemes_append] at h
  -- no token is empty, so that there is none in between
  have hmid : mid = [] := by
    cases mid with
    | nil => rfl
    | cons t ts =>
      have hmem : t ∈ Token.stream 0 source := by
        rw [hstream]
        simp
      have hproper := (Token.proper_of_mem_stream hmem).nonempty
      rw [Token.lexemes_cons, byteLength_append] at h
      have hlexeme : t.start < t.start + byteLength t.lexeme := hproper
      omega
  rw [behind, behind, htake, hdrop, hmid, List.append_nil, List.nil_append]

theorem offset_behind_le_size (n : Nat) : (behind source n).offset ≤ byteLength source := by
  have hall := Token.byteLength_lexemes_append ((Token.stream 0 source).take n)
    ((Token.stream 0 source).drop n)
  rw [List.take_append_drop, Token.lexemes_stream] at hall
  rw [offset_behind]
  omega

/-- The cursor stands at the start or behind a token. -/
theorem exists_stop_of_behind (n : Nat) :
    (behind source n).offset = 0 ∨ ∃ t ∈ lex source, t.stop = (behind source n).offset := by
  rcases List.eq_nil_or_concat ((Token.stream 0 source).take n) with hnil | ⟨ts, t, hts⟩
  · left
    rw [behind, hnil]
    rfl
  · right
    have hmem : t ∈ Token.stream 0 source := by
      refine List.mem_of_mem_take (i := n) ?_
      rw [hts, List.concat_eq_append]
      simp
    refine ⟨t, List.mem_append_left _ hmem, ?_⟩
    rw [behind, hts, List.concat_eq_append]
    show t.stop = Token.reach 0 (ts ++ [t])
    rw [Token.reach_append]
    rfl

/-- Fewer bytes are left exactly if the cursor has moved. -/
theorem left_behind_lt_iff (m k : Nat) : (behind source (m + k)).left < (behind source m).left ↔
    (behind source (m + k)).offset ≠ (behind source m).offset := by
  have hle := offset_behind_le source m k
  have hsize := offset_behind_le_size source (m + k)
  show byteLength source - _ < byteLength source - _ ↔ _
  omega

theorem length_tokens_behind_le (m k : Nat) :
    (behind source (m + k)).tokens.length ≤ (behind source m).tokens.length := by
  obtain ⟨mid, -, -, hdrop⟩ := exists_between source m k
  show (List.filter _ _).length ≤ (List.filter _ _).length
  rw [hdrop, List.filter_append, List.length_append]
  omega

/-! ### The next token -/

/-- The cursor goes to the next token, which stands behind others that are not code, and behind it;
or it goes to the end, if there are only such others. -/
theorem exists_skip_advance (m : Nat) :
    ∃ k l, (behind source m).skip = behind source (m + k) ∧
      (behind source m).advance = behind source (m + l) := by
  cases htokens : ((Token.stream 0 source).drop m).filter (·.category.isCode) with
  | nil =>
    have hend : (behind source m).next = .endOfInput (byteLength source) := by
      rw [next, behind, htokens]
      rfl
    have hlast : behind source (m + (Token.stream 0 source).length) =
        ⟨byteLength source, [], byteLength source⟩ := by
      have hlength : (Token.stream 0 source).length ≤ m + (Token.stream 0 source).length :=
        Nat.le_add_left _ _
      rw [behind, List.take_of_length_le hlength, List.drop_of_length_le hlength,
        Token.reach_stream, Nat.zero_add]
      rfl
    refine ⟨(Token.stream 0 source).length, (Token.stream 0 source).length, ?_, ?_⟩
    · rw [hlast, skip, hend, behind, htokens]
      rfl
    · rw [hlast, advance, hend, behind, htokens]
      rfl
  | cons t ts =>
    have hnext : (behind source m).next = t := by
      rw [next, behind, htokens]
      rfl
    obtain ⟨gap, us, hdrop, -, ht, hus⟩ := List.filter_eq_cons_iff.1 htokens
    have hstream : Token.stream 0 source =
        ((Token.stream 0 source).take m ++ gap) ++ t :: us := by
      rw [List.append_assoc, ← hdrop, List.take_append_drop]
    have htake : (Token.stream 0 source).take (m + gap.length) =
        (Token.stream 0 source).take m ++ gap := by
      rw [List.take_add, hdrop, List.take_left]
    have hrest : (Token.stream 0 source).drop (m + gap.length) = t :: us := by
      rw [← List.drop_drop, hdrop, List.drop_left]
    refine ⟨gap.length, gap.length + 1, ?_, ?_⟩
    · have hfilter : (t :: us).filter (·.category.isCode) = t :: ts := by
        rw [List.filter_cons, if_pos ht, hus]
      rw [skip, hnext, behind, behind, htake, hrest, Token.start_eq_reach hstream, htokens, hfilter]
    · have htake' : (Token.stream 0 source).take (m + (gap.length + 1)) =
          (Token.stream 0 source).take m ++ gap ++ [t] := by
        rw [← Nat.add_assoc, List.take_add, htake, hrest]
        rfl
      have hrest' : (Token.stream 0 source).drop (m + (gap.length + 1)) = us := by
        rw [← Nat.add_assoc, ← List.drop_drop, hrest]
        rfl
      rw [advance, hnext, behind, behind, htake', hrest', Token.reach_append, htokens, hus]
      rfl

theorem exists_skip (m : Nat) : ∃ k, (behind source m).skip = behind source (m + k) := by
  obtain ⟨k, -, hskip, -⟩ := exists_skip_advance source m
  exact ⟨k, hskip⟩

theorem exists_advance (m : Nat) : ∃ k, (behind source m).advance = behind source (m + k) := by
  obtain ⟨-, k, -, hadvance⟩ := exists_skip_advance source m
  exact ⟨k, hadvance⟩

variable {source} in
/-- Reading a token moves the cursor. -/
theorem offset_lt_advance {m : Nat} (h : (behind source m).next.content ≠ .endOfInput) :
    (behind source m).offset < (behind source m).advance.offset := by
  obtain ⟨t, ts, htokens⟩ := exists_tokens_of_content h
  obtain ⟨k, hadvance⟩ := exists_advance source m
  have hle := offset_behind_le source m k
  rw [hadvance]
  refine Nat.lt_of_le_of_ne hle fun heq => ?_
  -- with the cursor in the same place, no token would have been taken
  rw [behind_eq_of_offset heq.symm] at hadvance
  have hfewer : (behind source m).advance.tokens.length < (behind source m).tokens.length := by
    rw [advance, htokens]
    simp
  rw [hadvance] at hfewer
  exact Nat.lt_irrefl _ hfewer

end Input

/-! ### Readers that move the cursor forward -/

namespace Parser

variable {α β : Type} {source : List Char}

/-- Whether it succeeds or fails, the reader leaves the cursor behind a token, and not before the
place where it was. -/
def Advances (source : List Char) (p : Parser α) : Prop :=
  ∀ m, ∃ k, (p (.behind source m)).2 = .behind source (m + k)

/-- Whenever it succeeds, the reader has moved the cursor. -/
def Consumes (source : List Char) (p : Parser α) : Prop :=
  ∀ m a j, p (.behind source m) = (.ok a, j) → (Input.behind source m).offset < j.offset

/-- Where the cursor has come to. -/
theorem Advances.exists_behind {p : Parser α} (hp : Advances source p) {m : Nat}
    {r : Except SyntaxError α} {j : Input} (h : p (.behind source m) = (r, j)) :
    ∃ k, j = .behind source (m + k) := by
  obtain ⟨k, hk⟩ := hp m
  rw [h] at hk
  exact ⟨k, hk⟩

theorem Advances.pure (a : α) : Advances source (Pure.pure a) := fun _ => ⟨0, rfl⟩

theorem Advances.bind {p : Parser α} {q : α → Parser β} (hp : Advances source p)
    (hq : ∀ a, Advances source (q a)) : Advances source (p >>= q) := by
  intro m
  rw [bind_apply]
  rcases hpm : p (.behind source m) with ⟨err | a, j⟩
  · exact hp.exists_behind hpm
  · obtain ⟨k, rfl⟩ := hp.exists_behind hpm
    obtain ⟨l, hl⟩ := hq a (m + k)
    exact ⟨k + l, by rw [← Nat.add_assoc, ← hl]⟩

/-- What comes after a reader that moves the cursor can not move it back. -/
theorem Consumes.bind {p : Parser α} {q : α → Parser β} (hp : Advances source p)
    (hmoves : Consumes source p) (hq : ∀ a, Advances source (q a)) :
    Consumes source (p >>= q) := by
  intro m b j h
  obtain ⟨a, i, hpm, hqi⟩ := bind_eq_ok h
  have hlt := hmoves m a i hpm
  obtain ⟨k, rfl⟩ := hp.exists_behind hpm
  obtain ⟨l, rfl⟩ := (hq a).exists_behind hqi
  exact Nat.lt_of_lt_of_le hlt (Input.offset_behind_le source (m + k) l)

/-! #### Single tokens -/

theorem advances_skip : Advances source skip := fun m => Input.exists_skip source m

theorem advances_position : Advances source position := fun _ => ⟨0, rfl⟩

theorem advances_check (category : Category) : Advances source (check category) := fun _ => ⟨0, rfl⟩

theorem advances_satisfy (accept : Token → Bool) (expected : String) :
    Advances source (satisfy accept expected) := by
  intro m
  rw [satisfy]
  split
  · exact Input.exists_advance source m
  · exact Input.exists_skip source m

theorem consumes_satisfy {accept : Token → Bool} {expected : String}
    (hend : ∀ t : Token, accept t = true → t.content ≠ .endOfInput) :
    Consumes source (satisfy accept expected) := by
  intro m t j h
  rw [satisfy] at h
  split at h
  · next haccept =>
    cases h
    exact Input.offset_lt_advance (hend _ haccept)
  · cases h

theorem advances_expect (category : Category) : Advances source (expect category) :=
  advances_satisfy _ _

theorem consumes_expect {category : Category} (hend : category ≠ .endOfInput) :
    Consumes source (expect category) := by
  refine consumes_satisfy ?_
  intro t ht hcontent
  have hcategory : t.category = category := by simpa using ht
  rw [Token.category, hcontent] at hcategory
  exact hend hcategory.symm

theorem advances_optional (category : Category) : Advances source (optional category) := by
  intro m
  rw [optional]
  rcases hexpect : expect category (.behind source m) with ⟨err | t, j⟩
  · exact ⟨0, rfl⟩
  · exact (advances_expect category).exists_behind hexpect

theorem advances_word (expected : String) : Advances source (word expected) :=
  (advances_satisfy _ _).bind fun _ => .pure _

theorem advances_capital : Advances source capital := (advances_expect _).bind fun _ => .pure _

theorem advances_string : Advances source string := (advances_expect _).bind fun _ => .pure _

/-! #### Repetition -/

/-- The rules of a repetition: it ends before a failure, and behind a success that has not moved the
cursor. -/
inductive Iterates (p : Parser α) : Input → List α → Input → Prop where
  | stop {i j : Input} {err : SyntaxError} (failed : p i = (.error err, j)) : Iterates p i [] i
  | last {i j : Input} {a : α} (read : p i = (.ok a, j)) (still : j.offset = i.offset) :
    Iterates p i [a] j
  | more {i j k : Input} {a : α} {as : List α} (read : p i = (.ok a, j))
    (moved : j.offset ≠ i.offset) (rest : Iterates p j as k) : Iterates p i (a :: as) k

theorem exists_collect {p : Parser α} (hp : Advances source p) (m : Nat) :
    ∃ k, (collect p (.behind source m)).2 = .behind source (m + k) ∧
      Iterates p (.behind source m) (collect p (.behind source m)).1 (.behind source (m + k)) := by
  induction hn : (Input.behind source m).left using Nat.strongRecOn generalizing m with
  | ind n ih =>
    rw [collect]
    rcases hpm : p (.behind source m) with ⟨err | a, j⟩
    · exact ⟨0, rfl, .stop hpm⟩
    · obtain ⟨k, rfl⟩ := hp.exists_behind hpm
      by_cases hmoved : (Input.behind source (m + k)).offset = (Input.behind source m).offset
      · have hnot : ¬ (Input.behind source (m + k)).left < (Input.behind source m).left :=
          fun hlt => (Input.left_behind_lt_iff source m k).mp hlt hmoved
        simp only [if_neg hnot]
        exact ⟨k, rfl, .last hpm hmoved⟩
      · have hlt := (Input.left_behind_lt_iff source m k).mpr hmoved
        obtain ⟨l, hl, hrest⟩ := ih _ (hn ▸ hlt) (m + k) rfl
        rw [Nat.add_assoc] at hl hrest
        simp only [if_pos hlt]
        exact ⟨k + l, hl, .more hpm hmoved hrest⟩

/-- A repetition follows its rules, and so it ends. -/
theorem iterates_many {p : Parser α} (hp : Advances source p) (m : Nat) :
    ∃ as k, many p (.behind source m) = (.ok as, .behind source (m + k)) ∧
      Iterates p (.behind source m) as (.behind source (m + k)) := by
  obtain ⟨k, hk, hruns⟩ := exists_collect hp m
  refine ⟨_, k, ?_, hruns⟩
  rw [many, ← hk]

theorem advances_many {p : Parser α} (hp : Advances source p) : Advances source (many p) := by
  intro m
  obtain ⟨as, k, hmany, -⟩ := iterates_many hp m
  exact ⟨k, by rw [hmany]⟩

/-- **A repetition goes as far as it can**: one more attempt fails or does not move the cursor. -/
theorem Iterates.maximal {p : Parser α} (hp : Advances source p) {m : Nat} {as : List α} {j : Input}
    (h : Iterates p (.behind source m) as j) :
    (∃ err k, p j = (.error err, k)) ∨ ∃ a k, p j = (.ok a, k) ∧ k.offset = j.offset := by
  generalize hi : Input.behind source m = i at h
  induction h generalizing m with
  | stop failed => exact .inl ⟨_, _, failed⟩
  | @last i j a read still =>
    -- the cursor has not moved, so that the same is read again
    rw [← hi] at still read
    obtain ⟨k, rfl⟩ := hp.exists_behind read
    rw [Input.behind_eq_of_offset still] at read ⊢
    exact .inr ⟨a, _, read, rfl⟩
  | @more i j l a as read moved rest ih =>
    rw [← hi] at read
    obtain ⟨k, rfl⟩ := hp.exists_behind read
    exact ih rfl

/-- The rules of a loop that goes on as long as the next token calls for it. -/
inductive Loops (accept : Category → Bool) (p : Parser α) :
    Input → Except SyntaxError (List α) → Input → Prop where
  | done {i : Input} (other : accept i.next.category = false) : Loops accept p i (.ok []) i
  | failed {i j : Input} {err : SyntaxError} (called : accept i.next.category = true)
    (failed : p i = (.error err, j)) : Loops accept p i (.error err) j
  | more {i j k : Input} {a : α} {r : Except SyntaxError (List α)}
    (called : accept i.next.category = true) (read : p i = (.ok a, j))
    (rest : Loops accept p j r k) : Loops accept p i (r.map (a :: ·)) k

theorem advances_whileNext {accept : Category → Bool} {p : Parser α} (hp : Advances source p) :
    Advances source (whileNext accept p) := by
  intro m
  induction hn : (Input.behind source m).left using Nat.strongRecOn generalizing m with
  | ind n ih =>
    rw [whileNext]
    split
    · rcases hpm : p (.behind source m) with ⟨err | a, j⟩
      · exact hp.exists_behind hpm
      · obtain ⟨k, rfl⟩ := hp.exists_behind hpm
        by_cases hlt : (Input.behind source (m + k)).left < (Input.behind source m).left
        · obtain ⟨l, hl⟩ := ih _ (hn ▸ hlt) (m + k) rfl
          refine ⟨k + l, ?_⟩
          rw [← Nat.add_assoc, ← hl]
          simp only [if_pos hlt]
          split
          · next hrest => rw [hrest]
          · next hrest => rw [hrest]
        · refine ⟨k, ?_⟩
          simp only [if_neg hlt]
    · exact ⟨0, rfl⟩

/-- If whatever it reads moves the cursor, such a loop follows its rules, and so it ends. -/
theorem loops_whileNext {accept : Category → Bool} {p : Parser α} (hp : Advances source p)
    (hmoves : Consumes source p) (m : Nat) :
    Loops accept p (.behind source m) (whileNext accept p (.behind source m)).1
      (whileNext accept p (.behind source m)).2 := by
  induction hn : (Input.behind source m).left using Nat.strongRecOn generalizing m with
  | ind n ih =>
    rw [whileNext]
    by_cases hcalled : accept (Input.behind source m).next.category = true
    · rw [if_pos hcalled]
      rcases hpm : p (.behind source m) with ⟨err | a, j⟩
      · exact .failed hcalled hpm
      · have hmoved := hmoves m a j hpm
        obtain ⟨k, rfl⟩ := hp.exists_behind hpm
        have hlt := (Input.left_behind_lt_iff source m k).mpr (Nat.ne_of_gt hmoved)
        have hrest := ih _ (hn ▸ hlt) (m + k) rfl
        simp only [if_pos hlt]
        rcases hloop : whileNext accept p (.behind source (m + k)) with ⟨err | as, l⟩
        · rw [hloop] at hrest
          exact .more hcalled hpm hrest
        · rw [hloop] at hrest
          exact .more hcalled hpm hrest
    · rw [if_neg hcalled]
      exact .done (Bool.eq_false_iff.mpr hcalled)

end Parser

/-! ### The readers of the grammar -/

namespace Grammar

variable {source : List Char}

/-! #### Data -/

theorem advances_scalar : Advances source scalar := by
  intro m
  rw [scalar]
  split
  · exact Input.exists_advance source m
  · exact Input.exists_skip source m

theorem advances_environment : Advances source environment :=
  (advances_expect _).bind fun _ => (advances_expect _).bind fun _ =>
    advances_string.bind fun _ => (advances_expect _).bind fun _ => .pure _

theorem advances_property (expected : String) {value : Parser Data} (h : Advances source value) :
    Advances source (property expected value) :=
  (advances_word _).bind fun _ => h.bind fun _ => .pure _

theorem advances_blockOf {entry : Parser Property} (h : Advances source entry) :
    Advances source (blockOf entry) :=
  (advances_expect _).bind fun _ => (advances_many h).bind fun _ =>
    (advances_expect _).bind fun _ => .pure _

theorem advances_objectOf {item : Parser Data} (h : Advances source item) :
    Advances source (objectOf item) :=
  advances_blockOf (advances_property _ h)

theorem advances_arrayOf {item : Parser Data} (h : Advances source item) :
    Advances source (arrayOf item) :=
  (advances_expect _).bind fun _ => (advances_many h).bind fun _ =>
    (advances_expect _).bind fun _ => .pure _

theorem advances_dataOf {item : Parser Data} (h : Advances source item) :
    Advances source (dataOf item) := by
  intro m
  rw [dataOf]
  split
  · exact ((advances_objectOf h).bind fun _ => .pure _) m
  · exact advances_arrayOf h m
  · split
    · exact advances_environment m
    · exact advances_scalar m
  · exact (advances_capital.bind fun _ => .pure _) m
  · exact advances_scalar m

theorem advances_dataWithin (depth : Nat) : Advances source (dataWithin depth) := by
  induction depth with
  | zero => exact advances_scalar
  | succ depth ih => exact advances_dataOf ih

theorem advances_data : Advances source data := fun m => advances_dataWithin _ m

theorem advances_object : Advances source object := advances_objectOf advances_data

theorem advances_array : Advances source array := advances_arrayOf advances_data

/-! #### Statements -/

theorem advances_furtherWords : Advances source furtherWords :=
  advances_whileNext ((advances_expect _).bind fun _ => advances_word _)

theorem advances_arguments (opening : Token) : Advances source (arguments opening) :=
  (advances_many advances_data).bind fun _ => (advances_expect _).bind fun _ => .pure _

theorem advances_attributeEntry : Advances source attributeEntry := by
  refine (advances_expect _).bind fun _ => (advances_word _).bind fun _ =>
    advances_furtherWords.bind fun _ => (advances_optional _).bind fun found => ?_
  cases found with
  | none => exact (Advances.pure _).bind fun _ => .pure _
  | some opening => exact (advances_arguments opening).bind fun _ => .pure _

theorem advances_attributeList : Advances source attributeList := fun m =>
  ((advances_many advances_attributeEntry).bind fun _ => .pure _) m

theorem advances_brackets (stop : Nat) : Advances source (brackets stop) := by
  refine (advances_optional _).bind fun found => ?_
  cases found with
  | none => exact .pure _
  | some _ => exact (advances_expect _).bind fun _ => .pure _

theorem advances_questionMark (stop : Nat) : Advances source (questionMark stop) := by
  refine (advances_optional _).bind fun found => ?_
  cases found with
  | none => exact .pure _
  | some _ => exact .pure _

theorem advances_column : Advances source column :=
  (advances_word _).bind fun _ => advances_capital.bind fun _ => (advances_brackets _).bind fun _ =>
    (advances_questionMark _).bind fun _ => advances_attributeList.bind fun _ => .pure _

theorem advances_mergeMark : Advances source mergeMark :=
  (advances_optional _).bind fun _ => .pure _

variable (source) in
/-- A declaration starts with the word of its kind. -/
theorem exists_rest_of_declaration (kind : Kind) :
    ∃ rest : Token → Parser Declaration, declaration kind = keyword kind >>= rest ∧
      ∀ t, Advances source (rest t) := by
  cases kind with
  | enum =>
    exact ⟨_, rfl, fun _ => advances_capital.bind fun _ => advances_mergeMark.bind fun _ =>
      (advances_blockOf (advances_property _ advances_scalar)).bind fun _ => .pure _⟩
  | prop =>
    exact ⟨_, rfl, fun _ => advances_capital.bind fun _ => advances_mergeMark.bind fun _ =>
      advances_object.bind fun _ => .pure _⟩
  | type | model =>
    exact ⟨_, rfl, fun _ => advances_capital.bind fun _ => advances_mergeMark.bind fun _ =>
      advances_attributeList.bind fun _ => (advances_blockOf advances_column).bind fun _ => .pure _⟩
  | plugin =>
    exact ⟨_, rfl, fun _ => advances_string.bind fun _ => advances_object.bind fun _ => .pure _⟩

theorem advances_declaration (kind : Kind) : Advances source (declaration kind) := by
  obtain ⟨rest, hkind, hrest⟩ := exists_rest_of_declaration source kind
  rw [hkind]
  exact (advances_expect _).bind hrest

theorem consumes_declaration (kind : Kind) : Consumes source (declaration kind) := by
  obtain ⟨rest, hkind, hrest⟩ := exists_rest_of_declaration source kind
  rw [hkind]
  exact .bind (advances_expect _) (consumes_expect (by simp)) hrest

theorem advances_use : Advances source use :=
  (advances_expect _).bind fun _ => advances_string.bind fun _ => .pure _

theorem consumes_use : Consumes source use :=
  .bind (advances_expect _) (consumes_expect (by simp)) fun _ =>
    advances_string.bind fun _ => .pure _

theorem advances_node : Advances source node := by
  intro m
  rw [node]
  split
  · exact (advances_use.bind fun _ => .pure _) m
  · exact ((advances_declaration _).bind fun _ => .pure _) m
  · exact Input.exists_skip source m

theorem consumes_node : Consumes source node := by
  intro m n j h
  rw [node] at h
  split at h
  · exact Consumes.bind advances_use consumes_use (fun _ => .pure _) m n j h
  · exact Consumes.bind (advances_declaration _) (consumes_declaration _) (fun _ => .pure _) m n j h
  · cases h

theorem advances_schema : Advances source schema :=
  advances_position.bind fun _ => (advances_whileNext advances_node).bind fun _ =>
    advances_skip.bind fun _ => advances_position.bind fun _ => .pure _

/-! ### Loops and nesting -/

/-- The further words of a name are read by a loop that ends. -/
theorem loops_furtherWords (m : Nat) :
    Loops (· = .punct .dot) (do let _ ← expect (.punct .dot); word "an attribute name")
      (.behind source m) (furtherWords (.behind source m)).1 (furtherWords (.behind source m)).2 :=
  loops_whileNext ((advances_expect _).bind fun _ => advances_word _)
    (.bind (advances_expect _) (consumes_expect (by simp)) fun _ => advances_word _) m

/-- So are statements. -/
theorem loops_statements (m : Nat) :
    Loops (· ≠ .endOfInput) node (.behind source m)
      (whileNext (· ≠ .endOfInput) node (.behind source m)).1
      (whileNext (· ≠ .endOfInput) node (.behind source m)).2 :=
  loops_whileNext advances_node consumes_node m

end Grammar

namespace Parser

variable {α β : Type} {source : List Char}

/-- Two readers do the same wherever at most `n` tokens are left. -/
def AgreeUpTo (source : List Char) (n : Nat) (p q : Parser α) : Prop :=
  ∀ m, (Input.behind source m).tokens.length ≤ n → p (.behind source m) = q (.behind source m)

theorem AgreeUpTo.bind {n : Nat} {p p' : Parser α} {q q' : α → Parser β} (hp : Advances source p)
    (h : AgreeUpTo source n p p') (hq : ∀ a, AgreeUpTo source n (q a) (q' a)) :
    AgreeUpTo source n (p >>= q) (p' >>= q') := by
  intro m hm
  rw [bind_apply, bind_apply, ← h m hm]
  rcases hpm : p (.behind source m) with ⟨err | a, j⟩
  · rfl
  · obtain ⟨k, rfl⟩ := hp.exists_behind hpm
    exact hq a (m + k) (Nat.le_trans (Input.length_tokens_behind_le source m k) hm)

/-- After a mark there is a token less. -/
theorem AgreeUpTo.after {n : Nat} {mark : Punct} {q q' : Token → Parser β}
    (hq : ∀ t, AgreeUpTo source n (q t) (q' t)) :
    AgreeUpTo source (n + 1) (expect (.punct mark) >>= q) (expect (.punct mark) >>= q') := by
  intro m hm
  rw [bind_apply, bind_apply, expect, satisfy]
  split
  · next t j hmark =>
    split at hmark
    · next haccept =>
      cases hmark
      have hcategory : (Input.behind source m).next.category = .punct mark := by
        simpa using haccept
      have hcontent : (Input.behind source m).next.content ≠ .endOfInput := by
        intro hend
        rw [Token.category, hend] at hcategory
        cases hcategory
      obtain ⟨u, us, htokens⟩ := Input.exists_tokens_of_content hcontent
      obtain ⟨k, hk⟩ := Input.exists_advance source m
      have hfewer : (Input.behind source (m + k)).tokens.length ≤ n := by
        rw [← hk, Input.advance, htokens]
        rw [htokens, List.length_cons] at hm
        exact Nat.le_of_succ_le_succ hm
      rw [hk]
      exact hq _ (m + k) hfewer
    · cases hmark
  · rfl

theorem AgreeUpTo.many {n : Nat} {p p' : Parser α} (hp : Advances source p)
    (h : AgreeUpTo source n p p') : AgreeUpTo source n (many p) (many p') := by
  have hcollect : ∀ m, (Input.behind source m).tokens.length ≤ n →
      collect p (.behind source m) = collect p' (.behind source m) := by
    intro m
    induction hl : (Input.behind source m).left using Nat.strongRecOn generalizing m with
    | ind l ih =>
      intro hm
      rw [collect, collect, ← h m hm]
      rcases hpm : p (.behind source m) with ⟨err | a, j⟩
      · rfl
      · obtain ⟨k, rfl⟩ := hp.exists_behind hpm
        by_cases hlt : (Input.behind source (m + k)).left < (Input.behind source m).left
        · have hfewer := Nat.le_trans (Input.length_tokens_behind_le source m k) hm
          simp only [if_pos hlt, ih _ (hl ▸ hlt) (m + k) rfl hfewer]
        · simp only [if_neg hlt]
  intro m hm
  rw [Parser.many, Parser.many, hcollect m hm]

end Parser

namespace Grammar

variable {source : List Char}

theorem agreeUpTo_objectOf {n : Nat} {item item' : Parser Data} (hp : Advances source item)
    (h : AgreeUpTo source n item item') :
    AgreeUpTo source (n + 1) (objectOf item) (objectOf item') := by
  have hentry : AgreeUpTo source n (property "a property key" item)
      (property "a property key" item') :=
    .bind (advances_word _) (fun _ _ => rfl) fun _ => .bind hp h fun _ _ _ => rfl
  exact .after fun _ => .bind (advances_many (advances_property _ hp))
    (.many (advances_property _ hp) hentry) fun _ _ _ => rfl

theorem agreeUpTo_arrayOf {n : Nat} {item item' : Parser Data} (hp : Advances source item)
    (h : AgreeUpTo source n item item') :
    AgreeUpTo source (n + 1) (arrayOf item) (arrayOf item') :=
  .after fun _ => .bind (advances_many hp) (.many hp h) fun _ _ _ => rfl

theorem agreeUpTo_dataOf {n : Nat} {item item' : Parser Data} (hp : Advances source item)
    (h : AgreeUpTo source n item item') :
    AgreeUpTo source (n + 1) (dataOf item) (dataOf item') := by
  intro m hm
  rw [dataOf, dataOf]
  split
  · rw [bind_apply, bind_apply, agreeUpTo_objectOf hp h m hm]
  · exact agreeUpTo_arrayOf hp h m hm
  · rfl
  · rfl
  · rfl

theorem agreeUpTo_dataWithin {n depth depth' : Nat} (h : n < depth) (h' : n < depth') :
    AgreeUpTo source n (dataWithin depth) (dataWithin depth') := by
  induction n generalizing depth depth' with
  | zero =>
    intro m hm
    obtain ⟨depth, rfl⟩ : ∃ d, depth = d + 1 := ⟨depth - 1, by omega⟩
    obtain ⟨depth', rfl⟩ : ∃ d, depth' = d + 1 := ⟨depth' - 1, by omega⟩
    -- without tokens there is nothing that could be nested
    have hnext : (Input.behind source m).next.content = .endOfInput := by
      rw [Input.next, List.eq_nil_of_length_eq_zero (Nat.le_zero.mp hm)]
      rfl
    rw [dataWithin, dataWithin, dataOf, dataOf, hnext]
  | succ n ih =>
    obtain ⟨depth, rfl⟩ : ∃ d, depth = d + 1 := ⟨depth - 1, by omega⟩
    obtain ⟨depth', rfl⟩ : ∃ d, depth' = d + 1 := ⟨depth' - 1, by omega⟩
    exact agreeUpTo_dataOf (advances_dataWithin depth) (ih (by omega) (by omega))

/-- **The bound on the nesting of data does not matter**, as long as it exceeds the number of tokens
left. -/
theorem dataWithin_eq_data {m depth : Nat} (h : (Input.behind source m).tokens.length < depth) :
    dataWithin depth (.behind source m) = data (.behind source m) :=
  agreeUpTo_dataWithin h (Nat.lt_succ_self _) m (Nat.le_refl _)

end Grammar

/-! ### Steps -/

theorem Step.advances {source : List Char} (s : Step) : Advances source s.run := by
  induction s with
  | skip => exact advances_skip.bind fun _ => .pure _
  | check category => exact (advances_check category).bind fun _ => .pure _
  | expect category => exact (advances_expect category).bind fun _ => .pure _
  | optional category => exact (advances_optional category).bind fun _ => .pure _
  | word expected => exact (advances_word expected).bind fun _ => .pure _
  | capital => exact advances_capital.bind fun _ => .pure _
  | string => exact advances_string.bind fun _ => .pure _
  | data => exact Grammar.advances_data.bind fun _ => .pure _
  | scalar => exact Grammar.advances_scalar.bind fun _ => .pure _
  | object => exact Grammar.advances_object.bind fun _ => .pure _
  | array => exact Grammar.advances_array.bind fun _ => .pure _
  | attributeEntry => exact Grammar.advances_attributeEntry.bind fun _ => .pure _
  | column => exact Grammar.advances_column.bind fun _ => .pure _
  | use => exact Grammar.advances_use.bind fun _ => .pure _
  | declaration kind => exact (Grammar.advances_declaration kind).bind fun _ => .pure _
  | schema => exact Grammar.advances_schema.bind fun _ => .pure _
  | many s ih => exact (advances_many ih).bind fun _ => .pure _

/-- The cursor stands in a source: at its start or behind a token, with all that follows left to
read. -/
def Input.Stands (source : List Char) (i : Input) : Prop := ∃ n, i = .behind source n

/-- What holds wherever the cursor stands. -/
structure Input.Disciplined (source : List Char) (i : Input) : Prop where
  /-- It stands at the start or at the end of a token. -/
  stop : i.offset = 0 ∨ ∃ t ∈ lex source, t.stop = i.offset
  /-- It stands within the source. -/
  inside : i.offset ≤ byteLength source
  /-- The place where it stands decides what is left. -/
  decided : ∀ j : Input, j.Stands source → j.offset = i.offset → j = i
  /-- A step, successful or not, leaves it in the source and does not move it back. -/
  forward : ∀ s : Step, (s.run i).2.Stands source ∧ i.offset ≤ (s.run i).2.offset
  /-- Asking for a token does not move it, and says whether an optional one would be read. -/
  check : ∀ category, ∃ yes, (Step.check category).run i = (.ok (.answer yes), i) ∧
    (yes = true ↔ ∃ t, ((Step.optional category).run i).1 = .ok (.token (some t)))
  /-- A token that is not there does not move it. -/
  optional : ∀ category, ((Step.optional category).run i).1 = .ok (.token none) →
    ((Step.optional category).run i).2 = i
  /-- A repeated step ends, with the results of its successful runs and the cursor behind the last
  of them, and one more run would fail or not move it. -/
  repeats : ∀ s : Step, ∃ readings j, (Step.many s).run i = (.ok (.many readings), j) ∧
    Iterates s.run i readings j ∧
    ((∃ err k, s.run j = (.error err, k)) ∨ ∃ r k, s.run j = (.ok r, k) ∧ k.offset = j.offset)
  /-- The loop over the words of a name ends. -/
  words : Loops (· = .punct .dot) (do let _ ← expect (.punct .dot); word "an attribute name") i
    (Grammar.furtherWords i).1 (Grammar.furtherWords i).2
  /-- The loop over statements ends. -/
  statements : Loops (· ≠ .endOfInput) Grammar.node i
    (whileNext (· ≠ .endOfInput) Grammar.node i).1 (whileNext (· ≠ .endOfInput) Grammar.node i).2
  /-- No bound on the nesting of data is met. -/
  nesting : ∀ depth, i.tokens.length < depth → Grammar.dataWithin depth i = Grammar.data i

namespace Input

variable {source : List Char}

theorem Stands.decided {i j : Input} (hi : i.Stands source) (hj : j.Stands source)
    (h : j.offset = i.offset) : j = i := by
  obtain ⟨m, rfl⟩ := hi
  obtain ⟨n, rfl⟩ := hj
  rcases Nat.le_total m n with hle | hle
  · obtain ⟨k, rfl⟩ := Nat.exists_eq_add_of_le hle
    exact behind_eq_of_offset h
  · obtain ⟨k, rfl⟩ := Nat.exists_eq_add_of_le hle
    exact (behind_eq_of_offset h.symm).symm

theorem Stands.forward {i : Input} (hi : i.Stands source) (s : Step) :
    (s.run i).2.Stands source ∧ i.offset ≤ (s.run i).2.offset := by
  obtain ⟨m, rfl⟩ := hi
  have hs : Advances source s.run := s.advances
  obtain ⟨k, hk⟩ := hs m
  rw [hk]
  exact ⟨⟨m + k, rfl⟩, offset_behind_le source m k⟩

theorem Stands.repeats {i : Input} (hi : i.Stands source) (s : Step) :
    ∃ readings j, (Step.many s).run i = (.ok (.many readings), j) ∧ Iterates s.run i readings j ∧
      ((∃ err k, s.run j = (.error err, k)) ∨
        ∃ r k, s.run j = (.ok r, k) ∧ k.offset = j.offset) := by
  obtain ⟨m, rfl⟩ := hi
  have hs : Advances source s.run := s.advances
  obtain ⟨readings, k, hmany, hruns⟩ := iterates_many hs m
  refine ⟨readings, _, ?_, hruns, hruns.maximal hs⟩
  rw [Step.run, bind_apply, hmany]
  rfl

/-- Whether there is an optional token is what asking for it says. -/
theorem check_optional (i : Input) (category : Category) :
    (∃ yes, (Step.check category).run i = (.ok (.answer yes), i) ∧
      (yes = true ↔ ∃ t, ((Step.optional category).run i).1 = .ok (.token (some t)))) ∧
    (((Step.optional category).run i).1 = .ok (.token none) →
      ((Step.optional category).run i).2 = i) := by
  have hcheck : (Step.check category).run i =
      (.ok (.answer (i.next.category = category)), i) := rfl
  by_cases hnext : i.next.category = category
  · have hread : (Step.optional category).run i = (.ok (.token (some i.next)), i.advance) := by
      rw [Step.run, bind_apply, optional_apply_of_accepts hnext]
      rfl
    rw [hread]
    refine ⟨⟨_, hcheck, ?_⟩, by simp⟩
    simp [hnext]
  · have hread : (Step.optional category).run i = (.ok (.token none), i) := by
      rw [Step.run, bind_apply, optional_apply_of_not_accepts hnext]
      rfl
    rw [hread]
    refine ⟨⟨_, hcheck, ?_⟩, fun _ => rfl⟩
    simp [hnext]

theorem Stands.disciplined {i : Input} (hi : i.Stands source) : i.Disciplined source := by
  obtain ⟨m, hm⟩ := hi
  have hstands : i.Stands source := ⟨m, hm⟩
  refine ⟨?_, ?_, fun j => hstands.decided, hstands.forward, fun c => (check_optional i c).1,
    fun c => (check_optional i c).2, hstands.repeats, ?_, ?_, ?_⟩
  · rw [hm]
    exact exists_stop_of_behind source m
  · rw [hm]
    exact offset_behind_le_size source m
  · rw [hm]
    exact Grammar.loops_furtherWords m
  · rw [hm]
    exact Grammar.loops_statements m
  · intro depth hdepth
    rw [hm] at hdepth ⊢
    exact Grammar.dataWithin_eq_data hdepth

/-- One step after the other, the cursor goes forward in the source. -/
theorem Stands.runAll {i : Input} (hi : i.Stands source) (steps : List Step) :
    (∀ j ∈ i :: (Step.runAll steps i).map (·.2), j.Stands source) ∧
      (i :: (Step.runAll steps i).map (·.2)).IsChain (fun j k => j.offset ≤ k.offset) := by
  induction steps generalizing i with
  | nil => exact ⟨by simpa [Step.runAll] using hi, .singleton _⟩
  | cons s steps ih =>
    obtain ⟨hstands, hle⟩ := hi.forward s
    obtain ⟨hrest, hchain⟩ := ih hstands
    rw [Step.runAll, List.map_cons]
    exact ⟨List.forall_mem_cons.mpr ⟨hi, hrest⟩, .cons_cons hle hchain⟩

end Input

/-- **The cursor of every sequence of steps.**  Whatever steps are run one after the other on a
source, whether they succeed or fail, the cursor goes from one place of the source to another and
never back.  And wherever it can stand, it is at the start or at the end of a token and decides what
is left to read; asking for a token does not move it, an optional token is read if it is there, a
repeated step ends as far on as it can, and so do the loops and the nesting of the grammar. -/
theorem cursor_discipline (source : List Char) :
    (∀ steps : List Step,
      let trail := Input.ofSource source :: (Step.runAll steps (Input.ofSource source)).map (·.2)
      (∀ i ∈ trail, i.Stands source) ∧ trail.IsChain (fun i j => i.offset ≤ j.offset)) ∧
    ∀ i : Input, i.Stands source → i.Disciplined source := by
  refine ⟨fun steps => ?_, fun i hi => hi.disciplined⟩
  have hstart : (Input.ofSource source).Stands source := ⟨0, rfl⟩
  exact hstart.runAll steps

/-- A failed declaration leaves the cursor before the token that does not fit; repeating a
repetition, neither of which reads anything there, ends. -/
theorem cursor_discipline_failed :
    let source := "enum A /* x */ [ 1".toList
    let trail := (Step.runAll [.declaration .enum, .many (.many (.check .capital))]
      (Input.ofSource source)).map (·.2)
    trail.map (·.offset) = [15, 15] ∧ ∀ i ∈ trail, i.Disciplined source := by
  intro source trail
  refine ⟨by decide +kernel, fun i hi => ?_⟩
  have hstands := ((cursor_discipline source).1 _).1 i (List.mem_cons_of_mem _ hi)
  exact (cursor_discipline source).2 i hstands

end SchemaLang
