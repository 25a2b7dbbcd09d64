import PathQuery.Decimal.Shortest

/-!
# Layouts of decimals

How the digits of a number are set out as text: positionally, or with an exponent.

* `Layout.plain`      positional, no point on whole numbers: what a number is as text;
* `Layout.literal`    positional, always with a point: a number literal of a path;
* `Layout.document`   with an exponent outside 1e-5 to 1e15: a number inside a document.
-/

namespace PathQuery.Decimal

structure Layout where
  /-- which of two equally near texts is written -/
  tie : Tie
  /-- whether whole numbers end in a point and a zero -/
  pointed : Bool
  /-- the exponents of the leading digit that are written positionally -/
  positional : Int → Bool
  /-- the texts of what is no number and of the infinities -/
  nan : String
  infinity : String
  minusInfinity : String

def Layout.plain : Layout := ⟨.away, false, fun _ => true, "NaN", "inf", "-inf"⟩

def Layout.literal : Layout := ⟨.away, true, fun _ => true, "NaN", "inf", "-inf"⟩

/-- a document holds finite numbers only; anything else would be written as null -/
def Layout.document : Layout :=
  ⟨.even, true, fun e => -5 ≤ e && e < 16, "null", "null", "null"⟩

/-- the digits of `digits · 10 ^ exponent` written out around a point -/
def positionalText (pointed : Bool) (digits : List Char) (exponent : Int) : List Char :=
  if 0 ≤ exponent then
    digits ++ List.replicate exponent.toNat '0' ++ (if pointed then ['.', '0'] else [])
  else
    let places := (-exponent).toNat
    if places < digits.length then
      digits.take (digits.length - places) ++ '.' :: digits.drop (digits.length - places)
    else
      '0' :: '.' :: List.replicate (places - digits.length) '0' ++ digits

/-- one digit, the others after a point, and the exponent of the leading digit with its sign -/
def exponentText (digits : List Char) (leading : Int) : List Char :=
  let mantissa := match digits with
    | d :: e :: rest => d :: '.' :: e :: rest
    | short => short
  mantissa ++ 'e' :: (if leading < 0 then '-' else '+') :: Nat.toDigits 10 leading.natAbs

def Layout.unsigned (l : Layout) (d : Scaled) : List Char :=
  let digits := Nat.toDigits 10 d.digits
  let leading := d.exponent + digits.length - 1
  if l.positional leading then positionalText l.pointed digits d.exponent
  else exponentText digits leading

def Layout.chars (l : Layout) (x : Float) : List Char :=
  match parts x with
  | .nan => l.nan.toList
  | .infinite negative => (if negative then l.minusInfinity else l.infinity).toList
  | .finite negative mantissa exponent =>
    (if negative then ['-'] else [])
      ++ l.unsigned (if mantissa = 0 then ⟨0, 0⟩ else shortest l.tie mantissa exponent)

def Layout.text (l : Layout) (x : Float) : String := String.ofList (l.chars x)

end PathQuery.Decimal
