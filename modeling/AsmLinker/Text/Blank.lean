/-!
# White space

The characters with the Unicode property White_Space.
-/

namespace AsmLinker.Text

/-- The characters with the property White_Space: the ASCII blanks and line ends, the next-line
control, the no-break and Ogham spaces, the spaces of General Punctuation with its two separators,
and the ideographic space. -/
def isBlank (c : Char) : Bool :=
  let n := c.toNat
  (0x9 ≤ n && n ≤ 0xD) || n == 0x20 || n == 0x85 || n == 0xA0 || n == 0x1680 ||
    (0x2000 ≤ n && n ≤ 0x200A) || n == 0x2028 || n == 0x2029 || n == 0x202F || n == 0x205F ||
    n == 0x3000

end AsmLinker.Text
