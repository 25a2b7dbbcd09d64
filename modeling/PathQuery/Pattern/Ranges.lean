import PathQuery.Pattern.CharSet

/-!
# Sets of characters as ranges

A set is written down as the increasing list of the code points at which membership changes, as in
the tables of characters. A set has only one such list, so equal sets have equal lists.

* `mergeChanges`       an operation on two sets;
* `CharSet.changes`    the changes of a set: a character is in it after an odd number of them;
* `CharSet.ranges`     the ranges of the characters of a set.
-/

namespace PathQuery

/-! ## changes of membership -/

def noteChange (before after : Bool) (n : Nat) (later : List Nat) : List Nat :=
  if before = after then later else n :: later

/-- the changes of what `op` makes of two sets, from the changes still ahead in both and whether
what comes before them is in the left set and in the right one -/
def mergeChanges (op : Bool → Bool → Bool) (a b : Bool) : (left right : List Nat) → List Nat
  | [], [] => []
  | x :: left, [] => noteChange (op a b) (op (!a) b) x (mergeChanges op (!a) b left [])
  | [], y :: right => noteChange (op a b) (op a (!b)) y (mergeChanges op a (!b) [] right)
  | x :: left, y :: right =>
    if x < y then noteChange (op a b) (op (!a) b) x (mergeChanges op (!a) b left (y :: right))
    else if y < x then noteChange (op a b) (op a (!b)) y (mergeChanges op a (!b) (x :: left) right)
    else noteChange (op a b) (op (!a) (!b)) x (mergeChanges op (!a) (!b) left right)
termination_by left right => left.length + right.length

def rangesOf : List Nat → List (Nat × Nat)
  | low :: high :: later => (low, high - 1) :: rangesOf later
  | _ => []

/-- the changes of a range and of ranges that begin no earlier, in the order in which they begin -/
def changesFrom (low high : Nat) : List (Nat × Nat) → List Nat
  | [] => [low, high + 1]
  | (low', high') :: later =>
    if low' ≤ high + 1 then changesFrom low (max high high') later
    else low :: (high + 1) :: changesFrom low' high' later

def changesOf (ranges : List (Nat × Nat)) : List Nat :=
  match ranges.mergeSort (fun r s => r.1 ≤ s.1) with
  | [] => []
  | (low, high) :: later => changesFrom low high later

/-! ## changes of a set -/

/-- the changes of all characters; the surrogates are none -/
def allChanges : List Nat := [0, 0xd800, 0xe000, 0x110000]

def CharClass.changes : CharClass → List Nat
  | .digit => 48 :: 58 :: Text.decimalTable.toList
  | .space => [
      9, 14, 0x20, 0x21, 0x85, 0x86, 0xa0, 0xa1, 0x1680, 0x1681, 0x2000, 0x200b, 0x2028, 0x202a,
      0x202f, 0x2030, 0x205f, 0x2060, 0x3000, 0x3001]
  | .word => [48, 58, 65, 91, 95, 96, 97, 123] ++ Text.wordTable.toList
  | .property _ => []

/-- the changes of what is in a set up to case: what folding makes of the set, and all that it
makes that of -/
def foldChanges (rows : List Text.FoldRow) (changes : List Nat) : List Nat :=
  let joined (f : Text.FoldRow → Nat → Nat → List (Nat × Nat)) (changes : List Nat) : List Nat :=
    let ranges := rangesOf changes
    changesOf (ranges ++ rows.flatMap fun r => ranges.flatMap fun (low, high) => f r low high)
  joined Text.FoldRow.origins (joined Text.FoldRow.images changes)

namespace CharSet

def changes : CharSet → List Nat
  | nothing => []
  | range low high => if low ≤ high then [low.toNat, high.toNat + 1] else []
  | named k => k.changes
  | complement s => mergeChanges SetOperation.difference.holds false false allChanges s.changes
  | union s t => mergeChanges or false false s.changes t.changes
  | combined op s t => mergeChanges op.holds false false s.changes t.changes
  | folded ascii s => foldChanges (if ascii then [Text.asciiRow] else Text.foldRows) s.changes

/-- the ranges of the characters of a set, in order and apart from each other -/
def ranges (s : CharSet) : List (Nat × Nat) :=
  rangesOf (mergeChanges SetOperation.intersection.holds false false allChanges s.changes)

end CharSet
end PathQuery
