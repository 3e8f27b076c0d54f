/-! White space, as the Unicode property of that name has it: besides the blanks of ASCII it holds
the vertical tab, the form feed and the blanks of other scripts. -/

namespace SqlLayout.Text
set_option autoImplicit false

/-- The characters that separate lexemes and that the content of a text does not count. -/
def isWhitespace (c : Char) : Bool :=
  let n := c.toNat
  (0x09 ≤ n && n ≤ 0x0D) || n == 0x20 || n == 0x85 || n == 0xA0 || n == 0x1680 ||
    (0x2000 ≤ n && n ≤ 0x200A) || n == 0x2028 || n == 0x2029 || n == 0x202F || n == 0x205F ||
    n == 0x3000

end SqlLayout.Text
