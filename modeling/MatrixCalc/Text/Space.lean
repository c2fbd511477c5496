import MatrixCalc.Text

/-!
# White space

The characters with the Unicode property `White_Space`. They are wider than the six blanks
between tokens: a line that holds nothing else counts as empty.
-/
namespace MatrixCalc.Text

/-- The 25 characters with the property `White_Space`. -/
def isSpace (c : Char) : Bool :=
  let n := c.toNat
  (0x9 ≤ n && n ≤ 0xd) || n == 0x20 || n == 0x85 || n == 0xa0 || n == 0x1680 ||
    (0x2000 ≤ n && n ≤ 0x200a) || n == 0x2028 || n == 0x2029 || n == 0x202f || n == 0x205f ||
    n == 0x3000

def isEmptyLine (t : Text) : Bool := t.all isSpace

end MatrixCalc.Text
