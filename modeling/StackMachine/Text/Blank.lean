/-! # Blank characters

The characters with the Unicode property `White_Space`, and the removal of blanks from both ends of
a text.

* **`Text.isBlank`** decides the property from the table `Text.blankRanges`.
* **`Text.trim`** drops the blanks at both ends and keeps those between other characters. -/

namespace StackMachine

namespace Text

/-- The code points with the property `White_Space`, as closed ranges in increasing order. -/
def blankRanges : List (Nat × Nat) :=
  [(0x09, 0x0D), (0x20, 0x20), (0x85, 0x85), (0xA0, 0xA0), (0x1680, 0x1680), (0x2000, 0x200A),
    (0x2028, 0x2029), (0x202F, 0x202F), (0x205F, 0x205F), (0x3000, 0x3000)]

/-- A character is **blank** when its code point lies in one of the `blankRanges`. -/
def isBlank (c : Char) : Bool :=
  blankRanges.any fun range => range.1 ≤ c.toNat && c.toNat ≤ range.2

/-- The text without the blanks at its two ends. -/
def trim (text : List Char) : List Char :=
  ((text.dropWhile isBlank).reverse.dropWhile isBlank).reverse

/-- The table has twenty-five code points. -/
example : blankRanges.foldl (fun count range => count + (range.2 + 1 - range.1)) 0 = 25 := rfl

/-- Every character that core calls white space is blank. -/
theorem isBlank_of_isWhitespace {c : Char} (h : c.isWhitespace = true) : isBlank c = true := by
  simp only [Char.isWhitespace, Bool.or_eq_true, decide_eq_true_eq] at h
  rcases h with ((rfl | rfl) | rfl) | rfl <;> rfl

end Text

end StackMachine
