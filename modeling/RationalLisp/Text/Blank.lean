import RationalLisp.Text

/-! # Blank code points

The white space of the reader: the tabs, line ends and information separators of ASCII, and the
spaces and separators of Unicode. -/

namespace RationalLisp.CodePoint

/-- The blank code points outside U+2000 to U+200A. -/
def blanks : List Nat :=
  [0x09, 0x0A, 0x0B, 0x0C, 0x0D, 0x1C, 0x1D, 0x1E, 0x1F, 0x20, 0x85, 0xA0, 0x1680,
    0x2028, 0x2029, 0x202F, 0x205F, 0x3000]

/-- White space. -/
def isBlank (c : CodePoint) : Bool :=
  blanks.contains c.val || (0x2000 ≤ c.val && c.val ≤ 0x200A)

end RationalLisp.CodePoint

namespace RationalLisp.Text

/-- A text without the blanks at its two ends. -/
def trim (t : Text) : Text :=
  ((t.dropWhile CodePoint.isBlank).reverse.dropWhile CodePoint.isBlank).reverse

end RationalLisp.Text
