import SchemaLang.Compile
import SchemaLang.Grammar.Data
import SchemaLang.Json.Writer
import SchemaLang.Proofs.Token.Lexical
import Mathlib.Data.Nat.Digits.Defs

/-!
# What a numeral stands for

A numeral is a row of digits with a sign or without, and a fraction or without.  Without a fraction
it is an integer as long as 64 bits suffice, and the bounds are met exactly; all other numerals are
double precision numbers, the nearest to what is written.  A dot belongs to a numeral only if a
digit follows it.

The value of a row of digits is said here by place value, as a sum of powers of ten, and not by the
way the digits are read.

## Main definitions

* `placeValue`, `numeralValue` — the value of a row of digits, and of one with a sign.

## Main results

* `wholeContent_eq` — integers up to the bounds of 64 bits.
* `scanAt_number` — **the token at a numeral is the numeral, with its value.**
-/

namespace SchemaLang

/-! ### Values -/

/-- The number that a row of decimal digits denotes: each digit counts for its power of ten. -/
def placeValue (digits : List Char) : Nat :=
  Nat.ofDigits 10 (digits.reverse.map fun d => d.toNat - '0'.toNat)

/-- The number that a row of decimal digits denotes behind a minus sign, or without one. -/
def numeralValue (negative : Bool) (digits : List Char) : Int :=
  if negative then -placeValue digits else placeValue digits

/-- Reading digits from the left comes to their place value. -/
theorem digitsValue_eq (digits : List Char) : digitsValue digits = placeValue digits := by
  induction digits using List.reverseRecOn with
  | nil => rfl
  | append_singleton ds d ih =>
    have hread : digitsValue (ds ++ [d]) = 10 * digitsValue ds + (d.toNat - '0'.toNat) :=
      List.foldl_append
    rw [hread, ih, placeValue, placeValue, List.reverse_concat, List.map_cons, Nat.ofDigits_cons,
      Nat.add_comm]

theorem isInt64_iff (n : Int) : isInt64 n = true ↔ -2 ^ 63 ≤ n ∧ n ≤ 2 ^ 63 - 1 := by
  simp [isInt64]

/-- **Integers up to the bounds of 64 bits.**  Without a fraction, a numeral is an integer if its
value lies within the bounds, and a double precision number otherwise. -/
theorem wholeContent_eq (negative : Bool) (digits : List Char) :
    wholeContent negative digits =
      if -2 ^ 63 ≤ numeralValue negative digits ∧ numeralValue negative digits ≤ 2 ^ 63 - 1 then
        .integer (numeralValue negative digits)
      else .float (.ofDecimal negative (placeValue digits) 0) := by
  unfold wholeContent numeralValue
  simp only [isInt64_iff, digitsValue_eq]

theorem wholeContent_ne_unknown (negative : Bool) (digits : List Char) :
    wholeContent negative digits ≠ .unknown := by
  rw [wholeContent_eq]
  split <;> simp

/-! ### Numerals without a fraction, and with one -/

theorem startsFraction_iff {cs : List Char} :
    startsFraction cs = true ↔ ∃ e es, cs = '.' :: e :: es ∧ e.isDigit = true := by
  constructor
  · intro h
    unfold startsFraction at h
    split at h
    · next e es => exact ⟨e, es, rfl, h⟩
    · cases h
  · rintro ⟨e, es, rfl, he⟩
    exact he

theorem not_startsFraction {cs : List Char}
    (h : ¬ ∃ e es, cs = '.' :: e :: es ∧ e.isDigit = true) : startsFraction cs = false :=
  Bool.eq_false_iff.2 (mt startsFraction_iff.1 h)

/-- The digits that a text begins with, as far as they go. -/
theorem digits_of_isDigit {d : Char} (hd : d.isDigit = true) (after : List Char) :
    ∀ x ∈ d :: after.takeWhile Char.isDigit, x.isDigit = true :=
  List.forall_mem_cons.2 ⟨hd, fun _ hx => List.mem_takeWhile_imp hx⟩

section

variable (before : List Char) (negative : Bool) {d : Char} {after : List Char}

/-- A numeral that goes on with no fraction ends with its digits. -/
theorem scanAt_whole (hd : d.isDigit = true)
    (h : startsFraction (after.dropWhile Char.isDigit) = false) :
    scanAt (before ++ (signChars negative ++ d :: after)) (byteLength before) =
      ⟨wholeContent negative (d :: after.takeWhile Char.isDigit),
        signChars negative ++ d :: after.takeWhile Char.isDigit, byteLength before⟩ := by
  have hscan := (Scans.whole negative (digits_of_isDigit hd after) (stopsAt_dropWhile _ after)
    h).scanAt_eq before
  rwa [List.append_assoc, List.cons_append, List.takeWhile_append_dropWhile] at hscan

/-- A numeral that goes on with a dot and a digit ends with the digits of its fraction. -/
theorem scanAt_fraction (hd : d.isDigit = true) {e : Char} {es : List Char}
    (hrest : after.dropWhile Char.isDigit = '.' :: e :: es) (he : e.isDigit = true) :
    scanAt (before ++ (signChars negative ++ d :: after)) (byteLength before) =
      ⟨fractionContent negative (d :: after.takeWhile Char.isDigit)
          (e :: es.takeWhile Char.isDigit),
        signChars negative ++ d :: after.takeWhile Char.isDigit ++
          '.' :: e :: es.takeWhile Char.isDigit, byteLength before⟩ := by
  have hscan := (Scans.fraction negative (digits_of_isDigit hd after) (digits_of_isDigit he es)
    (stopsAt_dropWhile _ es)).scanAt_eq before
  have htext : signChars negative ++ d :: after.takeWhile Char.isDigit ++
      '.' :: e :: es.takeWhile Char.isDigit ++ es.dropWhile Char.isDigit =
        signChars negative ++ d :: after := by
    rw [List.append_assoc, List.append_assoc, List.cons_append, List.cons_append, List.cons_append,
      List.takeWhile_append_dropWhile, ← hrest, List.takeWhile_append_dropWhile]
  rwa [htext] at hscan

end

/-! ### The decimal text of an integer -/

/-- The decimal text of an integer is a sign, if it is negative, and the digits of its
magnitude. -/
theorem toList_toString (n : Int) :
    (toString n).toList = signChars (decide (n < 0)) ++ Nat.toDigits 10 n.natAbs := by
  cases n with
  | ofNat n =>
    have htext : toString (Int.ofNat n) = toString n := rfl
    rw [htext, Nat.toString_eq_ofList_toDigits, String.toList_ofList]
    rfl
  | negSucc n =>
    have htext : toString (Int.negSucc n) = "-" ++ toString (n + 1) := rfl
    rw [htext, String.toList_append, Nat.toString_eq_ofList_toDigits, String.toList_ofList]
    simp [signChars]

theorem numeralValue_toDigits (n : Int) :
    numeralValue (decide (n < 0)) (Nat.toDigits 10 n.natAbs) = n := by
  have hdigits : placeValue (Nat.toDigits 10 n.natAbs) = n.natAbs := by
    rw [← digitsValue_eq]
    exact Nat.ofDigitChars_ten_toDigits
  rw [numeralValue, hdigits]
  by_cases h : n < 0
  · rw [if_pos (by simpa using h)]
    omega
  · rw [if_neg (by simpa using h)]
    omega

/-- What is written for an integer is its decimal text. -/
theorem compact_int (n : Int) : Json.compact (.int n) = (toString n).toList := by
  rw [toList_toString]
  show Json.integer n ++ [] = _
  rw [List.append_nil, Json.integer, signChars]
  simp only [decide_eq_true_eq]

/-- The decimal text of a 64-bit integer is read as that integer. -/
theorem scanAt_toString (before : List Char) {n : Int} (hlow : -2 ^ 63 ≤ n) (hhigh : n ≤ 2 ^ 63 - 1)
    {after : List Char} (hstop : StopsAt Char.isDigit after)
    (hdot : startsFraction after = false) :
    scanAt (before ++ ((toString n).toList ++ after)) (byteLength before) =
      ⟨.integer n, (toString n).toList, byteLength before⟩ := by
  obtain ⟨d, ds, hdigits⟩ := List.exists_cons_of_ne_nil (@Nat.toDigits_ne_nil n.natAbs 10)
  have hrun : ∀ x ∈ d :: ds, x.isDigit = true := by
    intro x hx
    rw [← hdigits] at hx
    exact Nat.isDigit_of_mem_toDigits (by omega) (by omega) hx
  have hscan := (Scans.whole (decide (n < 0)) hrun hstop hdot).scanAt_eq before
  have hcontent : wholeContent (decide (n < 0)) (d :: ds) = .integer n := by
    rw [← hdigits, wholeContent_eq, numeralValue_toDigits, if_pos ⟨hlow, hhigh⟩]
  rw [hcontent, ← hdigits, ← toList_toString] at hscan
  exact hscan

/-- An integer is data, wherever it stands. -/
theorem data_of_integer {i : Input} {n : Int} (h : i.next.content = .integer n) :
    Grammar.data i = (.ok (.literal (.integer n) i.next.span), i.advance) := by
  simp only [Grammar.data, Grammar.dataWithin, Grammar.dataOf, Grammar.scalar, h, Grammar.literal?]

/-! ### The token at a numeral -/

/-- **The token at a numeral is the numeral, with its value.**  Where a digit stands, behind a minus
sign or without one, the token takes the sign, all digits that follow, and a fraction exactly if a
dot and a digit come next: then also the dot and all digits behind it, and the token is the double
precision number nearest to what is written.  Without a fraction it is the integer that the digits
denote if that is within the bounds of 64 bits, and else again the nearest double precision number.
It is always known.  So the decimal text of every 64-bit integer, in front of a text that does not
continue it, is read as this integer, and wherever it is read as data it compiles to the same
integer, whose text is the one that was read. -/
theorem scanAt_number (before after : List Char) :
    (∀ (negative : Bool) (d : Char), d.isDigit = true →
      let digits := d :: after.takeWhile Char.isDigit
      let rest := after.dropWhile Char.isDigit
      let value := numeralValue negative digits
      let token := scanAt (before ++ (signChars negative ++ d :: after)) (byteLength before)
      (∀ e es, rest = '.' :: e :: es → e.isDigit = true →
        let fraction := e :: es.takeWhile Char.isDigit
        token = ⟨.float (.ofDecimal negative (placeValue (digits ++ fraction)) fraction.length),
          signChars negative ++ digits ++ '.' :: fraction, byteLength before⟩) ∧
      ((¬ ∃ e es, rest = '.' :: e :: es ∧ e.isDigit = true) →
        token = ⟨if -2 ^ 63 ≤ value ∧ value ≤ 2 ^ 63 - 1 then .integer value
            else .float (.ofDecimal negative (placeValue digits) 0),
          signChars negative ++ digits, byteLength before⟩) ∧
      token.content ≠ .unknown) ∧
    (∀ n : Int, -2 ^ 63 ≤ n → n ≤ 2 ^ 63 - 1 →
      (¬ ∃ c cs, after = c :: cs ∧ c.isDigit = true) →
      (¬ ∃ c cs, after = '.' :: c :: cs ∧ c.isDigit = true) →
      let token := scanAt (before ++ ((toString n).toList ++ after)) (byteLength before)
      token = ⟨.integer n, (toString n).toList, byteLength before⟩ ∧
      (∀ i : Input, i.next = token → ∃ t, Grammar.data i = (.ok t, i.advance) ∧
        t = .literal (.integer n) token.span ∧
        ∀ ctx : Context, ctx.data t = .ok (.int n)) ∧
      Json.compact (.int n) = (toString n).toList) := by
  constructor
  · intro negative d hd digits rest value token
    have hfraction : ∀ e es, rest = '.' :: e :: es → e.isDigit = true →
        token = ⟨.float (.ofDecimal negative (placeValue (digits ++ e :: es.takeWhile Char.isDigit))
            (e :: es.takeWhile Char.isDigit).length),
          signChars negative ++ digits ++ '.' :: e :: es.takeWhile Char.isDigit,
          byteLength before⟩ := by
      intro e es hrest he
      rw [← digitsValue_eq]
      exact scanAt_fraction before negative hd hrest he
    have hwhole : (¬ ∃ e es, rest = '.' :: e :: es ∧ e.isDigit = true) →
        token = ⟨wholeContent negative digits, signChars negative ++ digits, byteLength before⟩ :=
      fun hdot => scanAt_whole before negative hd (not_startsFraction hdot)
    refine ⟨hfraction, fun hdot => ?_, ?_⟩
    · rw [hwhole hdot, wholeContent_eq]
    · by_cases hdot : ∃ e es, rest = '.' :: e :: es ∧ e.isDigit = true
      · obtain ⟨e, es, hrest, he⟩ := hdot
        rw [hfraction e es hrest he]
        simp
      · rw [hwhole hdot]
        exact wholeContent_ne_unknown negative digits
  · intro n hlow hhigh hdigit hdot token
    have hstop : StopsAt Char.isDigit after := by
      intro c hc
      obtain ⟨cs, rfl⟩ := List.head?_eq_some_iff.1 hc
      exact Bool.eq_false_iff.2 fun h => hdigit ⟨c, cs, rfl, h⟩
    have htoken : token = ⟨.integer n, (toString n).toList, byteLength before⟩ :=
      scanAt_toString before hlow hhigh hstop (not_startsFraction hdot)
    refine ⟨htoken, fun i hi => ?_, compact_int n⟩
    have hcontent : i.next.content = .integer n := by rw [hi, htoken]
    refine ⟨_, data_of_integer hcontent, by rw [hi], fun ctx => ?_⟩
    rfl

/-- The least 64-bit integer is read as itself, with zeros in front too; without the sign its digits
are too many by one. -/
theorem scanAt_number_bounds :
    scanAt "[-9223372036854775808]".toList 1 =
        ⟨.integer (-2 ^ 63), "-9223372036854775808".toList, 1⟩ ∧
      scanAt "-009223372036854775808.x".toList 0 =
        ⟨.integer (-2 ^ 63), "-009223372036854775808".toList, 0⟩ ∧
      scanAt "9223372036854775808".toList 0 =
        ⟨.float (.ofDecimal false (2 ^ 63) 0), "9223372036854775808".toList, 0⟩ := by
  refine ⟨?_, ?_, ?_⟩
  · exact ((scanAt_number ['['] [']']).2 (-2 ^ 63) (by decide) (by decide) (by simp)
      (by simp)).1
  · have hscan := ((scanAt_number [] "09223372036854775808.x".toList).1 true '0' (by decide)).2.1
      (by simp)
    exact hscan
  · have hscan := ((scanAt_number [] "223372036854775808".toList).1 false '9' (by decide)).2.1
      (by simp)
    exact hscan

end SchemaLang
