/-!
# Blank characters

Values read from the environment may stand between blanks. Blank are the
characters with the Unicode property White_Space.
-/

namespace Liveness.Text

/-- Whether a character has the property White_Space. -/
def isBlank (c : Char) : Bool :=
  let n := c.toNat
  (0x09 ≤ n && n ≤ 0x0D) || n == 0x20 || n == 0x85 || n == 0xA0 || n == 0x1680 ||
    (0x2000 ≤ n && n ≤ 0x200A) || n == 0x2028 || n == 0x2029 || n == 0x202F || n == 0x205F ||
    n == 0x3000

/-- The characters without the blanks at either end. -/
def strip (cs : List Char) : List Char :=
  ((cs.dropWhile isBlank).reverse.dropWhile isBlank).reverse

/-- A text without the blanks at either end. -/
def trim (s : String) : String := String.ofList (strip s.toList)

/-- The letters `A` to `Z` made small, all other characters kept. -/
def lower (s : String) : String := s.map Char.toLower

end Liveness.Text
