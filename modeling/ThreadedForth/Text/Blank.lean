/-!
# Blanks

Two classes of white space. Source text is cut into words at the five blank bytes of ASCII. A line
of input counts as empty if it holds only characters with the Unicode property `White_Space`.
-/

namespace ThreadedForth.Blank

/-- Space, tab, line feed, form feed or carriage return. The vertical tab is none of them. -/
def isBlankByte (byte : UInt8) : Bool :=
  byte == 0x20 || byte == 0x09 || byte == 0x0A || byte == 0x0C || byte == 0x0D

/-- The character has the property `White_Space`. -/
def isBlank (c : Char) : Bool :=
  let n := c.toNat
  (0x09 ≤ n && n ≤ 0x0D) || n == 0x20 || n == 0x85 || n == 0xA0 || n == 0x1680 ||
    (0x2000 ≤ n && n ≤ 0x200A) || n == 0x2028 || n == 0x2029 || n == 0x202F || n == 0x205F ||
    n == 0x3000

end ThreadedForth.Blank
