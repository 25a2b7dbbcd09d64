/-!
# Character tables

A class of characters is kept as the increasing list of the code points at which membership
changes: the class holds from an entry at an even place up to, and without, the next entry.

* `changesUpTo`   how many entries of a table are at most a number;
* `inTable`       membership of a character.
-/

namespace PathQuery.Text

/-- the place in `table`, between `lo` and `hi`, of the first entry above `n` -/
def changesUpTo (table : Array Nat) (n lo hi : Nat) : Nat :=
  if lo < hi then
    let mid := (lo + hi) / 2
    if table.getD mid 0 ≤ n then changesUpTo table n (mid + 1) hi
    else changesUpTo table n lo mid
  else lo
termination_by hi - lo
decreasing_by all_goals omega

/-- a character is in the class of a table iff membership changed an odd number of times
up to it -/
def inTable (table : Array Nat) (c : Char) : Bool :=
  changesUpTo table c.toNat 0 table.size % 2 == 1

end PathQuery.Text
