/-!
# Blank Characters

White space as the Unicode property of that name lists it: twenty-five code
points, most of them outside ASCII. Source lines and configuration values are
trimmed by this rule, whereas the separators inside a line are only the space,
the tab and the comma, so the two notions must not be confused.

## Main definitions

* `isBlank`: The character is Unicode white space.
* `trimList`, `trim`: A text without the blanks at its two ends.
* `trimEndList`, `trimEnd`: A text without the blanks at its end.
-/

namespace UnrollAsm

namespace Text

/-- The character has the Unicode property `White_Space`. -/
def isBlank (c : Char) : Bool :=
  let n := c.toNat
  (0x09 ≤ n && n ≤ 0x0D) || n == 0x20 || n == 0x85 || n == 0xA0 || n == 0x1680 ||
    (0x2000 ≤ n && n ≤ 0x200A) || n == 0x2028 || n == 0x2029 || n == 0x202F ||
    n == 0x205F || n == 0x3000

/-- The characters without the blanks at the end. -/
def trimEndList (cs : List Char) : List Char :=
  (cs.reverse.dropWhile isBlank).reverse

/-- The characters without the blanks at either end. -/
def trimList (cs : List Char) : List Char :=
  trimEndList (cs.dropWhile isBlank)

/-- The text without the blanks at its end. -/
def trimEnd (s : String) : String :=
  String.ofList (trimEndList s.toList)

/-- The text without the blanks at either end. -/
def trim (s : String) : String :=
  String.ofList (trimList s.toList)

end Text

end UnrollAsm
