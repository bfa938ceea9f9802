import Quadword.Text.CodeRange

/-!
# White space

White space separates tokens and means nothing else, whatever script it comes from.
-/

namespace Quadword.Text

/-- The code points with the property `White_Space`. -/
def blankRanges : List CodeRange :=
  [(0x9, 0xD), (0x20, 0x20), (0x85, 0x85), (0xA0, 0xA0), (0x1680, 0x1680), (0x2000, 0x200A),
   (0x2028, 0x2029), (0x202F, 0x202F), (0x205F, 0x205F), (0x3000, 0x3000)]

/-- Whether a character is white space, in any script. -/
def isBlank (c : Char) : Bool := within blankRanges c

end Quadword.Text
