import SchemaLang.Entries
import SchemaLang.Number.Binary64

/-!
# Values

What a configuration is made of: the values of JSON, with objects as entries in
order, and with integers apart from other numbers.

## Main definitions

* `Value` — a value.
* `Value.same` — equality of values, which does not look at the order of members.
* `Value.get?` — a member of an object.

## References

`SPEC_FULL.md`, section 10.4, the values of a configuration.
-/

namespace SchemaLang

/-- A value of a configuration. -/
inductive Value where
  /-- The absent value. -/
  | null : Value
  /-- A truth value. -/
  | bool (b : Bool) : Value
  /-- An integer. -/
  | int (n : Int) : Value
  /-- Any other number. -/
  | float (x : Binary64) : Value
  /-- A string. -/
  | str (s : String) : Value
  /-- Values in order. -/
  | arr (elements : List Value) : Value
  /-- Named values in order. -/
  | obj (members : List (String × Value)) : Value
  deriving Repr, Inhabited

namespace Value

/-- The member of an object with a name; no other value has members. -/
def get? : Value → String → Option Value
  | .obj ms, key => Entries.get? ms key
  | _, _ => none

mutual

/-- Equality of values.  Objects are equal when they have the same names with equal
values, in whatever order.  An integer is never equal to another number. -/
def same : Value → Value → Bool
  | .null, .null => true
  | .bool a, .bool b => a == b
  | .int m, .int n => m == n
  | .float x, .float y => x.same y
  | .str s, .str t => s == t
  | .arr xs, .arr ys => sameElements xs ys
  | .obj ms, .obj ns => ms.length == ns.length && sameMembers ms ns
  | _, _ => false

/-- Equality of values one by one. -/
def sameElements : List Value → List Value → Bool
  | [], [] => true
  | x :: xs, y :: ys => same x y && sameElements xs ys
  | _, _ => false

/-- Whether every member of the first object has an equal one in the second. -/
def sameMembers : List (String × Value) → List (String × Value) → Bool
  | [], _ => true
  | (k, v) :: ms, ns =>
    (match Entries.get? ns k with
      | some w => same v w
      | none => false) && sameMembers ms ns

end

end Value

/-- Equality of entries, which does not look at their order. -/
def Entries.same (es fs : Entries Value) : Bool := (Value.obj es).same (.obj fs)

end SchemaLang
