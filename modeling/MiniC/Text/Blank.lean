/-
# Blank characters

The characters of the Unicode property White_Space. The information separators
U+001C to U+001F and the zero-width marks U+200B and U+FEFF are not among them.

Key definitions: `isBlank`, `trimStart`.
-/
namespace MiniC
namespace Text

/-- White_Space holds of the character. -/
def isBlank (c : Char) : Bool :=
  let n := c.toNat
  (0x9 ≤ n && n ≤ 0xD) || n == 0x20 || n == 0x85 || n == 0xA0 || n == 0x1680 ||
    (0x2000 ≤ n && n ≤ 0x200A) || n == 0x2028 || n == 0x2029 || n == 0x202F ||
    n == 0x205F || n == 0x3000

/-- The text without the blanks it starts with. -/
def trimStart (cs : List Char) : List Char :=
  cs.dropWhile isBlank

end Text
end MiniC
