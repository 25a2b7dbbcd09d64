import PathQuery.Pattern.Basic
import PathQuery.Pattern.Ranges

/-!
# Shapes of patterns

The shape of a pattern is what is left of it once everything is put in its simplest form:
characters in a row are one text, rows in rows and choices in choices are laid open, a choice among
characters is a set, and what all branches of a choice begin with is taken in front of it.

* `Shape`                          the shapes;
* `Shape.shortest?`, `Shape.longest?`   how many characters a match has;
* `Shape.again`, `Shape.inRow`, `Shape.oneOf`   repetitions, rows and choices in simplest form;
* `Pattern.shape`                  the shape of a pattern.
-/

namespace PathQuery

/-- the ways in which patterns are built once they are in their simplest form -/
inductive Shape where
  | empty
  | text (cs : List Char)
  /-- one character in some ranges of code points -/
  | set (ranges : List (Nat × Nat))
  | assertion (a : Assertion)
  /-- a group whose place in a match is to be noted -/
  | group (p : Shape)
  | repeated (least : Nat) (most? : Option Nat) (p : Shape)
  | row (ps : List Shape)
  | choice (ps : List Shape)

namespace Shape

/-! ## lengths of matches -/

mutual
/-- the least number of characters of a match, `none` if something in it can never match -/
def shortest? : Shape → Option Nat
  | empty => some 0
  | text cs => some cs.length
  | set ranges => if ranges.isEmpty then none else some 1
  | assertion _ => some 0
  | group p => p.shortest?
  | repeated least _ p => p.shortest?.map (least * ·)
  | row ps => shortestOfRow? ps
  | choice ps => shortestOfChoice? ps

def shortestOfRow? : List Shape → Option Nat
  | [] => some 0
  | p :: ps => p.shortest?.bind fun n => (shortestOfRow? ps).map (n + ·)

def shortestOfChoice? : List Shape → Option Nat
  | [] => none
  | [p] => p.shortest?
  | p :: ps => p.shortest?.bind fun n => (shortestOfChoice? ps).map (min n)
end

mutual
/-- the greatest number of characters of a match, if there is one -/
def longest? : Shape → Option Nat
  | empty => some 0
  | text cs => some cs.length
  | set ranges => if ranges.isEmpty then none else some 1
  | assertion _ => some 0
  | group p => p.longest?
  | repeated _ most? p => most?.bind fun most => p.longest?.map (most * ·)
  | row ps => longestOfRow? ps
  | choice ps => longestOfChoice? ps

def longestOfRow? : List Shape → Option Nat
  | [] => some 0
  | p :: ps => p.longest?.bind fun n => (longestOfRow? ps).map (n + ·)

def longestOfChoice? : List Shape → Option Nat
  | [] => none
  | [p] => p.longest?
  | p :: ps => p.longest?.bind fun n => (longestOfChoice? ps).map (max n)
end

def isBlank (p : Shape) : Bool := p.longest? == some 0

def isSolid (p : Shape) : Bool := p.shortest?.any (0 < ·)

/-! ## equality -/

mutual
/-- equality, where no two groups are equal: each is noted by itself -/
def same : Shape → Shape → Bool
  | empty, empty => true
  | text cs, text ds => cs == ds
  | set rs, set ss => rs == ss
  | assertion a, assertion b => a == b
  | repeated m m' p, repeated n n' q => m == n && m' == n' && p.same q
  | row ps, row qs => sameAll ps qs
  | choice ps, choice qs => sameAll ps qs
  | _, _ => false

def sameAll : List Shape → List Shape → Bool
  | [], [] => true
  | p :: ps, q :: qs => p.same q && sameAll ps qs
  | _, _ => false
end

/-- how many parts two rows have in common at their beginning -/
def commonLength : List Shape → List Shape → Nat
  | p :: ps, q :: qs => if p.same q then commonLength ps qs + 1 else 0
  | _, _ => 0

/-! ## simplest forms -/

def ofRanges (ranges : List (Nat × Nat)) : Shape :=
  match ranges with
  | [(low, high)] => if low = high then text [Char.ofNat low] else set ranges
  | _ => set ranges

/-- something repeated. What has no characters is as good once as many times. -/
def again (q : Quantifier) (p : Shape) : Shape :=
  let least := if p.isBlank then min q.least 1 else q.least
  let most? := if p.isBlank then some (min (q.most?.getD 1) 1) else q.most?
  if most? = some 0 then empty
  else if least = 1 ∧ most? = some 1 then p
  else repeated least most? p

def parts : Shape → List Shape
  | empty => []
  | row ps => ps
  | p => [p]

/-- a part in front of others; texts are joined -/
def joinText : Shape → List Shape → List Shape
  | text cs, text ds :: ps => text (cs ++ ds) :: ps
  | p, ps => p :: ps

def inRow (ps : List Shape) : Shape :=
  match (ps.flatMap parts).foldr joinText [] with
  | [] => empty
  | [p] => p
  | ps => row ps

def branches : Shape → List Shape
  | choice ps => ps
  | p => [p]

/-- the code point of a text of one character -/
def codePoint? : Shape → Option Nat
  | text [c] => some c.toNat
  | _ => none

def ranges? : Shape → Option (List (Nat × Nat))
  | set ranges => some ranges
  | _ => none

def joinRanges (ranges : List (Nat × Nat)) : Shape := ofRanges (rangesOf (changesOf ranges))

/-- a choice as a set, where all branches are characters or all are sets -/
def gathered (ps : List Shape) : Shape :=
  match ps with
  | [p] => p
  | ps =>
    match ps.mapM codePoint?, ps.mapM ranges? with
    | some points, _ => joinRanges (points.map fun n => (n, n))
    | none, some rs => joinRanges rs.flatten
    | none, none => choice ps

/-- the parts of a row of two or more -/
def row? : Shape → Option (List Shape)
  | row ps => some ps
  | _ => none

/-- one of some shapes; what all of them begin with is taken in front of the choice -/
def oneOf (ps : List Shape) : Shape :=
  match gathered (ps.flatMap branches) with
  | choice qs =>
    match qs.mapM row? with
    | some (first :: others) =>
      let n := others.foldl (fun n ps => min n (commonLength first ps)) first.length
      if n = 0 then choice qs
      else
        let rest := ((first :: others).map fun ps => inRow (ps.drop n)).flatMap branches
        inRow (first.take n ++ [gathered rest])
    | _ => choice qs
  | p => p

end Shape

/-! ## patterns -/

namespace Pattern

/-- the shapes of the branches of a pattern, one if it is no choice -/
def branchShapes : Pattern → List Shape
  | empty => [.empty]
  | set _ s => [.ofRanges s.ranges]
  | assertion a => [.assertion a]
  | group noted p => [if noted then .group (.oneOf p.branchShapes) else .oneOf p.branchShapes]
  | repeated q p => [.again q (.oneOf p.branchShapes)]
  | seq p q => [.inRow [.oneOf p.branchShapes, .oneOf q.branchShapes]]
  | either p q => .oneOf p.branchShapes :: q.branchShapes

def shape (p : Pattern) : Shape := .oneOf p.branchShapes

end Pattern
end PathQuery
