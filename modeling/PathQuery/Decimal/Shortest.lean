/-!
# Shortest decimals

The decimal text of a binary number has the fewest digits that still read back as that number,
and of these the nearest; of two equally near ones, the format decides.

* `Parts`        a float taken apart: its sign and `mantissa · 2 ^ exponent`;
* `onGrid?`      the multiple of a power of ten that reads back as a number, if there is one;
* `shortest`     the multiple on the coarsest such grid.
-/

namespace PathQuery.Decimal

inductive Parts where
  | nan
  | infinite (negative : Bool)
  | finite (negative : Bool) (mantissa : Nat) (exponent : Int)

/-- the least mantissa of a number that is not denormal, a one and 52 zeros -/
def leastMantissa : Nat := 0x10000000000000

/-- a float taken apart: a bit for the sign, 11 for the exponent, 52 for the mantissa -/
def parts (x : Float) : Parts :=
  let bits : Nat := x.toBits.toNat
  let negative := bits / leastMantissa / 2048 == 1
  let biased : Nat := bits / leastMantissa % 2048
  let fraction : Nat := bits % leastMantissa
  if biased = 2047 then
    if fraction = 0 then .infinite negative else .nan
  else if biased = 0 then .finite negative fraction (-1074)
  else .finite negative (leastMantissa + fraction) ((biased : Int) - 1075)

def isFinite (x : Float) : Bool :=
  match parts x with
  | .finite .. => true
  | _ => false

/-- the decimal `digits · 10 ^ exponent` -/
structure Scaled where
  digits : Nat
  exponent : Int

/-- which of two equally near decimals is taken -/
inductive Tie where
  | away
  | even
  deriving DecidableEq

/-- the multiple of `10 ^ k` nearest to `m · 2 ^ e` among those that read back as it. In quarters
of the unit `2 ^ e` the numbers that do so reach from `4 m - 2` to `4 m + 2`, except that below a
power of two the next number down is half as far away; the ends belong to even mantissas. -/
def onGrid? (tie : Tie) (m : Nat) (e k : Int) : Option Nat :=
  let up := Nat.pow 2 (e - 2).toNat * Nat.pow 10 (-k).toNat
  let den := Nat.pow 2 (2 - e).toNat * Nat.pow 10 k.toNat
  let below := if m = leastMantissa ∧ -1074 < e then 1 else 2
  let value := 4 * m * up
  let low := (4 * m - below) * up
  let high := (4 * m + 2) * up
  let inside (d : Nat) : Bool :=
    if m % 2 = 0 then low ≤ d * den && d * den ≤ high else low < d * den && d * den < high
  let d := value / den
  if inside d && inside (d + 1) then
    let toLower := value - d * den
    let toUpper := (d + 1) * den - value
    let lower : Bool := toLower < toUpper || (toLower == toUpper && tie == .even && d % 2 == 0)
    some (if lower then d else d + 1)
  else if inside d then some d
  else if inside (d + 1) then some (d + 1)
  else none

/-- tries the grids `10 ^ k`, `10 ^ (k - 1)`, and so on, `tries` of them -/
def firstGrid (tie : Tie) (m : Nat) (e : Int) : (tries : Nat) → (k : Int) → Scaled
  | 0, k => ⟨0, k⟩
  | tries + 1, k =>
    match onGrid? tie m e k with
    | some d => ⟨d, k⟩
    | none => firstGrid tie m e tries (k - 1)

/-- the shortest decimal of `m · 2 ^ e`. The search starts above the number, so that the grid of
its seventeenth digit, which always has a hit, is among those tried. -/
def shortest (tie : Tie) (m : Nat) (e : Int) : Scaled :=
  firstGrid tie m e 24 (((Nat.log2 m : Int) + 1 + e) * 30103 / 100000 + 1)

end PathQuery.Decimal
