/-!
# Quoted text

A quoted text stands between double quotes. A quote, a backslash and five control characters
have short escapes; the characters that the style names are written by their code, `\u` and four
digits; all other characters stand for themselves.

* `quoteChar`   the spelling of one character;
* `quote`       the spelling of a text.
-/

namespace PathQuery.Text

def hexDigit (d : Nat) : Char :=
  if d < 10 then Char.ofNat (48 + d) else Char.ofNat (87 + d)

def hex4 (n : Nat) : List Char :=
  [n / 4096, n / 256 % 16, n / 16 % 16, n % 16].map hexDigit

/-- the spelling of one character between quotes; `byCode` names the characters that are written
by their code when they have no short escape -/
def quoteChar (byCode : Char → Bool) (c : Char) : List Char :=
  if c = '"' then ['\\', '"']
  else if c = '\\' then ['\\', '\\']
  else if c = '\n' then ['\\', 'n']
  else if c = '\r' then ['\\', 'r']
  else if c = '\t' then ['\\', 't']
  else if c.toNat = 8 then ['\\', 'b']
  else if c.toNat = 12 then ['\\', 'f']
  else if byCode c then '\\' :: 'u' :: hex4 c.toNat
  else [c]

def quoteChars (byCode : Char → Bool) (cs : List Char) : List Char :=
  '"' :: cs.flatMap (quoteChar byCode) ++ ['"']

def quote (byCode : Char → Bool) (s : String) : String :=
  String.ofList (quoteChars byCode s.toList)

end PathQuery.Text
