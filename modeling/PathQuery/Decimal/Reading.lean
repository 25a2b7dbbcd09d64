/-!
# Reading decimals

Reading gives the float nearest to the number that a decimal text stands for.

* `natOfDigits`   the number that a row of digits stands for;
* `intOfText`     an integer text: an optional minus and digits;
* `intChars`      the text of an integer;
* `nearest`       the float nearest to `mantissa · 10 ^ exponent`;
* `ofText?`       a decimal text: sign, digits, fraction and exponent.
-/

namespace PathQuery.Decimal

def natOfDigits (ds : List Char) : Nat :=
  ds.foldl (fun n d => 10 * n + (d.toNat - 48)) 0

def splitSign : List Char → Bool × List Char
  | '-' :: rest => (true, rest)
  | rest => (false, rest)

def intOfText (cs : List Char) : Int :=
  let (negative, digits) := splitSign cs
  if negative then -(natOfDigits digits : Int) else natOfDigits digits

def intChars (n : Int) : List Char :=
  (if n < 0 then ['-'] else []) ++ Nat.toDigits 10 n.natAbs

/-- the float nearest to `mantissa · 10 ^ exponent`. No float reaches `10 ^ 400`, and what is
below `10 ^ -400` is nearest to zero; between these the power of ten is of moderate size. -/
def nearest (mantissa : Nat) (exponent : Int) : Float :=
  if mantissa = 0 then 0.0
  else if 400 < exponent then 1.0 / 0.0
  else if exponent + (Nat.log2 mantissa / 3 + 1 : Nat) < -400 then 0.0
  else Float.ofScientific mantissa (exponent < 0) exponent.natAbs

def spanDigits (cs : List Char) : List Char × List Char :=
  (cs.takeWhile Char.isDigit, cs.dropWhile Char.isDigit)

/-- the exponent at the end of a decimal text: nothing, or `e`, an optional sign and digits -/
def exponentOfText? : List Char → Option Int
  | [] => some 0
  | c :: rest =>
    if c = 'e' ∨ c = 'E' then
      let (negative, digits) := match rest with
        | '+' :: ds => (false, ds)
        | '-' :: ds => (true, ds)
        | ds => (false, ds)
      if digits.isEmpty || !digits.all Char.isDigit then none
      else
        let n : Int := natOfDigits digits
        some (if negative then -n else n)
    else none

def ofText? (cs : List Char) : Option Float :=
  let (negative, body) := splitSign cs
  let (whole, afterWhole) := spanDigits body
  let (fraction, tail) := match afterWhole with
    | '.' :: rest => spanDigits rest
    | rest => ([], rest)
  if (whole ++ fraction).isEmpty then none
  else
    (exponentOfText? tail).map fun e =>
      let x := nearest (natOfDigits (whole ++ fraction)) (e - fraction.length)
      if negative then -x else x

end PathQuery.Decimal
