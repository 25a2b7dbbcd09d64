import PathQuery.Proofs.Filter.Reading
import PathQuery.Proofs.Filter.Safety

/-!
# The levels of expressions

The number of levels of an expression is found by going through its parts, with those still to be
seen in a list. It is one more than that of the deepest part right inside it.

* `reach`              how deep the expressions go that are still to be seen;
* `depth_eq_height`    what going through the parts finds;
* `Part.depth_le`      no part has more levels than the whole.
-/

namespace PathQuery.Filter

/-- one below the deepest level of the expressions still to be seen, each from its own level on -/
def reach : List (Filter × ℕ) → ℕ
  | [] => 0
  | (f, level) :: pending => max (level + f.height) (reach pending)

theorem reach_append (ps qs : List (Filter × ℕ)) :
    reach (ps ++ qs) = max (reach ps) (reach qs) := by
  induction ps with
  | nil => exact (Nat.zero_max _).symm
  | cons p ps ih => rw [List.cons_append, reach, ih, reach, Nat.max_assoc]

theorem height_eq (f : Filter) : f.height = heights f.children + 1 := by
  cases f with
  | binary op left right =>
    show max left.height right.height + 1 = max left.height (max right.height 0) + 1
    rw [Nat.max_zero]
  | negation operand =>
    show operand.height + 1 = max operand.height 0 + 1
    rw [Nat.max_zero]
  | _ => rfl

theorem reach_parts (level : ℕ) (parts : List Filter) :
    max level (reach (parts.map fun part => (part, level))) = level + heights parts := by
  induction parts with
  | nil => exact Nat.max_zero level
  | cons f parts ih =>
    have hcons : max level (reach ((f :: parts).map fun part => (part, level)))
        = max (level + f.height) (max level (reach (parts.map fun part => (part, level)))) := by
      rw [List.map_cons, reach]
      omega
    rw [hcons, ih, heights, Nat.add_max_add_left]

theorem deepest_eq (found : ℕ) (pending : List (Filter × ℕ)) :
    deepest found pending + 1 = max (found + 1) (reach pending) := by
  induction found, pending using deepest.induct with
  | case1 found => rw [deepest, reach, Nat.max_zero]
  | case2 found f level pending ih =>
    have hparts := reach_parts (level + 1) f.children
    rw [deepest, ih, reach_append, reach, height_eq]
    omega

/-- **Going through the parts finds the number of levels.** -/
theorem depth_eq_height (f : Filter) : f.depth = f.height := by
  have h := deepest_eq 0 [(f, 1)]
  rw [reach, reach, Nat.max_zero] at h
  rw [depth]
  omega

theorem height_le_heights {f : Filter} {fs : List Filter} (h : f ∈ fs) : f.height ≤ heights fs := by
  induction fs with
  | nil => cases h
  | cons g fs ih =>
    rw [heights]
    rcases List.mem_cons.mp h with rfl | h
    · exact Nat.le_max_left _ _
    · exact (ih h).trans (Nat.le_max_right _ _)

theorem Part.depth_le {g f : Filter} (h : Part g f) : g.depth ≤ f.depth := by
  rw [depth_eq_height, depth_eq_height]
  induction h with
  | self => exact Nat.le_refl _
  | @inside h f hh _ ih =>
    rw [f.height_eq]
    exact ih.trans ((height_le_heights hh).trans (Nat.le_succ _))

end PathQuery.Filter
