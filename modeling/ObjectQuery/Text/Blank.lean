/-!
# Blank characters

The characters with the property `White_Space`, and the trimming of a text
at both ends. The class holds more than the blanks of ASCII: the no-break
space and the ideographic space are in it, the zero-width space is not.
-/

namespace ObjectQuery.Text

/-- The property `White_Space`. -/
def isBlank (c : Char) : Bool :=
  let code := c.toNat
  (0x09 ≤ code && code ≤ 0x0D) || code == 0x20 || code == 0x85 || code == 0xA0 ||
    code == 0x1680 || (0x2000 ≤ code && code ≤ 0x200A) || code == 0x2028 ||
    code == 0x2029 || code == 0x202F || code == 0x205F || code == 0x3000

/-- What is left of `cs` when the blanks at both ends are taken away. -/
def trimChars (cs : List Char) : List Char :=
  ((cs.dropWhile isBlank).reverse.dropWhile isBlank).reverse

/-- A text without the blanks at its two ends. -/
def trim (s : String) : String :=
  String.ofList (trimChars s.toList)

end ObjectQuery.Text
