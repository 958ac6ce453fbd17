import DesignTokens.Text.Range

/-! # White space

The characters that separate words in any script: the ASCII blanks with the four separators from
U+001C on, and the blanks and separators of Unicode.  The zero-width space and the byte order mark
are not among them.
-/

namespace DesignTokens.Text

/-- The ranges of white space, in increasing order. -/
def blankRanges : List Range :=
  [(0x9, 0xd), (0x1c, 0x20), (0x85, 0x85), (0xa0, 0xa0), (0x1680, 0x1680), (0x2000, 0x200a),
   (0x2028, 0x2029), (0x202f, 0x202f), (0x205f, 0x205f), (0x3000, 0x3000)]

def isBlank (c : Char) : Bool := isIn c blankRanges

def stripEnd (cs : List Char) : List Char := (cs.reverse.dropWhile isBlank).reverse

def strip (cs : List Char) : List Char := stripEnd (cs.dropWhile isBlank)

end DesignTokens.Text
