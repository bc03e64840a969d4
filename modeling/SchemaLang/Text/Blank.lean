/-!
# Blank characters

The characters with the Unicode property `White_Space`.  They separate tokens,
and comments are trimmed of them at both ends.

## Main definitions

* `blankRanges` — the table of the property.
* `isBlank` — membership in the table.
* `trim` — a text without the blanks at its ends.

## References

`SPEC_FULL.md`, section 4.1, runs of whitespace and comments: `read_whitespace`, `read_comment`,
`read_block_comment`.
-/

namespace SchemaLang

/-- The code points with the property `White_Space`, as inclusive ranges in
increasing order. -/
def blankRanges : List (Nat × Nat) :=
  [(0x09, 0x0D), (0x20, 0x20), (0x85, 0x85), (0xA0, 0xA0), (0x1680, 0x1680), (0x2000, 0x200A),
   (0x2028, 0x2029), (0x202F, 0x202F), (0x205F, 0x205F), (0x3000, 0x3000)]

/-- The table covers twenty-five code points. -/
example : (blankRanges.map fun r => r.2 + 1 - r.1).sum = 25 := by decide

/-- Whether a character is blank. -/
def isBlank (c : Char) : Bool :=
  blankRanges.any fun r => r.1 ≤ c.toNat && c.toNat ≤ r.2

/-- The text without the blanks at its two ends. -/
def trim (cs : List Char) : List Char :=
  ((cs.dropWhile isBlank).reverse.dropWhile isBlank).reverse

@[simp] theorem trim_nil : trim [] = [] := rfl

end SchemaLang
