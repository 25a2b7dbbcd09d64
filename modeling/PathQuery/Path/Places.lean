import PathQuery.Path.Basic

/-!
# Indices and slices

The elements of a list are counted from 0, and from its end by negative numbers.

* `placeOf?`        the place that an index names;
* `Slice.places`    the places that a slice names, in its order.
-/

namespace PathQuery

/-- the greatest length of a list whose places can be counted, one of 64 bits with its sign -/
def maxPlace : Nat := 0x7fffffffffffffff

def placeOf? (length : Nat) (index : Int) : Option Nat :=
  let place := if index < 0 then length + index else index
  if length ≤ maxPlace ∧ 0 ≤ place ∧ place < length then some place.toNat else none

namespace Slice

/-- a bound as a place: counted from the end if it is negative, and never further than one place
beyond either end -/
def bound (length : Nat) (b : Int) : Int :=
  max (-1) (min length (if b < 0 then b + length else b))

/-- where a slice starts: at its bound, or else at the end that its step leads away from -/
def first (s : Slice) (length : Nat) (step : Int) : Int :=
  match s.start with
  | some b => bound length b
  | none => if 0 < step then 0 else length - 1

/-- where a slice stops, that place not included -/
def last (s : Slice) (length : Nat) (step : Int) : Int :=
  match s.stop with
  | some b => bound length b
  | none => if 0 < step then length else -1

/-- how many steps there are from `first` on before `last` is reached or passed -/
def count (first last step : Int) : Nat :=
  if 0 < step then ((last - first + step - 1) / step).toNat
  else ((first - last - step - 1) / -step).toNat

/-- the places that a slice names in a list of `length` elements, in its order; a step of zero
leads nowhere -/
def places (s : Slice) (length : Nat) : List Nat :=
  let step := s.step.getD 1
  if step = 0 ∨ maxPlace < length then []
  else
    let first := s.first length step
    (List.range (count first (s.last length step) step)).filterMap fun (k : Nat) =>
      let place : Int := first + k * step
      if 0 ≤ place ∧ place < length then some place.toNat else none

end Slice
end PathQuery
