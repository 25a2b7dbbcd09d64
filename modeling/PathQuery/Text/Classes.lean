import PathQuery.Text.Table
import PathQuery.Text.Letters
import PathQuery.Text.Numbers
import PathQuery.Text.Words

/-!
# Character classes

Every class answers for ASCII by itself and looks other characters up in its table.

* `isAlphabetic`, `isAlphanumeric`   letters, and letters with numbers of any kind;
* `isDecimal`, `isWord`, `isBlank`   the classes that patterns call digit, word and space;
* `isControl`                        the control characters.
-/

namespace PathQuery.Text

def isAscii (c : Char) : Bool := c.toNat < 128

/-- letters of every script, with the marks and letter numbers counted as alphabetic -/
def isAlphabetic (c : Char) : Bool :=
  if isAscii c then c.isAlpha else inTable letterTable c

def isAlphanumeric (c : Char) : Bool :=
  if isAscii c then c.isAlphanum else inTable letterTable c || inTable numberTable c

/-- decimal digits of every script, as patterns know them -/
def isDecimal (c : Char) : Bool :=
  if isAscii c then c.isDigit else inTable decimalTable c

/-- what a word is made of, as patterns know it: letters, decimal digits, marks and connectors -/
def isWord (c : Char) : Bool :=
  if isAscii c then c.isAlphanum || c == '_' else inTable wordTable c

def isBlank (c : Char) : Bool :=
  let n := c.toNat
  (9 ≤ n && n ≤ 13) || n == 0x20 || n == 0x85 || n == 0xa0 || n == 0x1680
    || (0x2000 ≤ n && n ≤ 0x200a) || n == 0x2028 || n == 0x2029 || n == 0x202f
    || n == 0x205f || n == 0x3000

/-- the control characters, U+0000 to U+001F and U+007F to U+009F -/
def isControl (c : Char) : Bool :=
  c.toNat < 0x20 || (0x7f ≤ c.toNat && c.toNat < 0xa0)

end PathQuery.Text
