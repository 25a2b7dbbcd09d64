import PathQuery.Value.Basic

/-!
# Comparing values

The coercion table. Only values of one kind compare: numbers by size, texts by code point. Booleans,
nulls, maps and lists are equal or not, but in no order. Values of different kinds are neither equal
nor ordered; an integer and a float are of one kind and compare as floats.

* `Value.equal`, `Value.order?`   equality and order;
* `Comparison.holds`              the comparisons of filters;
* `TextTest.holds`                the string tests, on the texts of values.
-/

namespace PathQuery

namespace Value

/-- the order of two floats; what is no number has none -/
def floatOrder? (x y : Float) : Option Ordering :=
  if x < y then some .lt else if x == y then some .eq else if y < x then some .gt else none

def numberOrder? : Value → Value → Option Ordering
  | integer m, integer n => some (compare m n)
  | integer m, float y => floatOrder? (Float.ofInt m) y
  | float x, integer n => floatOrder? x (Float.ofInt n)
  | float x, float y => floatOrder? x y
  | _, _ => none

def order? : Value → Value → Option Ordering
  | text s, text t => some (if s < t then .lt else if s = t then .eq else .gt)
  | v, w => numberOrder? v w

def equal : Value → Value → Bool
  | missing, _ => false
  | _, missing => false
  | null, null => true
  | bool a, bool b => a == b
  | text s, text t => s == t
  | node d, node e => d.same e
  | v, w => numberOrder? v w == some .eq

end Value

def Comparison.holds (c : Comparison) (v w : Value) : Bool :=
  match c with
  | .equal => v.equal w
  | .notEqual => !v.equal w
  | .less => (v.order? w).any (· == .lt)
  | .lessEq => (v.order? w).any (· != .gt)
  | .greater => (v.order? w).any (· == .gt)
  | .greaterEq => (v.order? w).any (· != .lt)

def occursIn (needle : List Char) : List Char → Bool
  | [] => needle.isEmpty
  | c :: rest => needle.isPrefixOf (c :: rest) || occursIn needle rest

def TextTest.holdsOn (t : TextTest) (cs needle : List Char) : Bool :=
  match t with
  | .contains => occursIn needle cs
  | .startsWith => needle.isPrefixOf cs
  | .endsWith => needle.isSuffixOf cs

/-- the tests look at the texts of the values -/
def TextTest.holds (t : TextTest) (v w : Value) : Bool :=
  match v.chars?, w.chars? with
  | some cs, some needle => t.holdsOn cs needle
  | _, _ => false

end PathQuery
