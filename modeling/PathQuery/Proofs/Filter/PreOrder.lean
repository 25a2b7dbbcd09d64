import PathQuery.Proofs.Filter.Depth
import Mathlib.Data.List.Lex

/-!
# The order in which expressions are seen

An expression in an expression stands at a place: the row of indices that tell which part to go
into, level by level. Places are compared index by index, and one that goes on behind another comes
after it. So an expression comes before its own parts, and all that stands in one part before all
that stands in the next.

* `preorder`          all expressions in an expression, by recursion on it;
* `part?`, `places`   what stands at a place, and the places where something stands;
* `walk_eq_preorder`  going through the parts with a stack is the recursion;
* `walk_places`       it sees what stands at each place, once, in the order of places;
* `FirstAt`           the first answer in that order;
* `findSome_walk`     the first answer on the way is the answer at the first place that has one.
-/

namespace PathQuery.Filter

/-! ## by recursion -/

mutual
/-- all expressions in an expression: itself, and then those in its parts from left to right -/
def preorder : Filter → List Filter
  | literal value => [literal value]
  | reference names => [reference names]
  | binary op left right => binary op left right :: (left.preorder ++ right.preorder)
  | negation operand => negation operand :: operand.preorder
  | call name args => call name args :: preorders args

def preorders : List Filter → List Filter
  | [] => []
  | f :: rest => f.preorder ++ preorders rest
end

theorem preorders_append (fs gs : List Filter) :
    preorders (fs ++ gs) = preorders fs ++ preorders gs := by
  induction fs with
  | nil => rfl
  | cons f fs ih => rw [List.cons_append, preorders, preorders, ih, List.append_assoc]

theorem preorder_eq (f : Filter) : f.preorder = f :: preorders f.children := by
  cases f with
  | binary op left right =>
    show _ :: (left.preorder ++ right.preorder) = _ :: (left.preorder ++ (right.preorder ++ []))
    rw [List.append_nil]
  | negation operand =>
    show _ :: operand.preorder = _ :: (operand.preorder ++ [])
    rw [List.append_nil]
  | _ => rfl

/-- of the expressions still to be seen, the first is seen with all its parts before the others -/
theorem visit_eq_preorders (pending : List Filter) : visit pending = preorders pending := by
  induction pending using visit.induct with
  | case1 => rw [visit, preorders]
  | case2 f pending ih =>
    rw [visit, ih, preorders_append, preorders, preorder_eq, List.cons_append]

/-- **Going through the parts is the recursion on the expression.** -/
theorem walk_eq_preorder (f : Filter) : f.walk = f.preorder := by
  rw [walk, visit_eq_preorders, preorders, preorders, List.append_nil]

/-! ## places -/

def part? : Filter → List ℕ → Option Filter
  | f, [] => some f
  | f, i :: place => f.children[i]?.bind (part? · place)

mutual
def places : Filter → List (List ℕ)
  | literal _ => [[]]
  | reference _ => [[]]
  | binary _ left right => [] :: (left.places.map (0 :: ·) ++ right.places.map (1 :: ·))
  | negation operand => [] :: operand.places.map (0 :: ·)
  | call _ args => [] :: placesFrom 0 args

/-- the places in parts of which the first has the index `i` -/
def placesFrom (i : ℕ) : List Filter → List (List ℕ)
  | [] => []
  | f :: rest => f.places.map (i :: ·) ++ placesFrom (i + 1) rest
end

theorem places_eq (f : Filter) : f.places = [] :: placesFrom 0 f.children := by
  cases f with
  | binary op left right =>
    show _ = [] :: (left.places.map (0 :: ·) ++ (right.places.map (1 :: ·) ++ []))
    rw [List.append_nil]
    rfl
  | negation operand =>
    show _ = [] :: (operand.places.map (0 :: ·) ++ [])
    rw [List.append_nil]
    rfl
  | _ => rfl

theorem mem_placesFrom {i : ℕ} {fs : List Filter} {p : List ℕ} :
    p ∈ placesFrom i fs ↔
      ∃ j place f, p = (i + j) :: place ∧ fs[j]? = some f ∧ place ∈ f.places := by
  induction fs generalizing i with
  | nil => simp [placesFrom]
  | cons f fs ih =>
    rw [placesFrom, List.mem_append, List.mem_map, ih]
    constructor
    · rintro (⟨place, hplace, rfl⟩ | ⟨j, place, g, rfl, hg, hplace⟩)
      · exact ⟨0, place, f, rfl, rfl, hplace⟩
      · exact ⟨j + 1, place, g, by rw [Nat.add_assoc, Nat.add_comm 1], hg, hplace⟩
    · rintro ⟨j, place, g, rfl, hg, hplace⟩
      cases j with
      | zero =>
        cases hg
        exact .inl ⟨place, hplace, rfl⟩
      | succ j => exact .inr ⟨j, place, g, by rw [Nat.add_assoc, Nat.add_comm 1], hg, hplace⟩

theorem mem_places {f : Filter} {place : List ℕ} : place ∈ f.places ↔ (f.part? place).isSome := by
  induction place generalizing f with
  | nil =>
    rw [places_eq]
    exact ⟨fun _ => rfl, fun _ => List.mem_cons_self⟩
  | cons i place ih =>
    rw [places_eq, List.mem_cons, mem_placesFrom, part?, Option.isSome_bind, Option.any_eq_true]
    constructor
    · rintro (h | ⟨j, place', g, h, hg, hplace⟩)
      · cases h
      · rw [Nat.zero_add] at h
        cases h
        exact ⟨g, hg, ih.mp hplace⟩
    · rintro ⟨g, hg, hsome⟩
      exact .inr ⟨i, place, g, by rw [Nat.zero_add], hg, ih.mpr hsome⟩

/-- what holds of an expression as soon as it holds of its parts holds of all -/
theorem induction_parts {P : Filter → Prop} (h : ∀ f, (∀ g ∈ f.children, P g) → P f)
    (f : Filter) : P f :=
  h f fun g hg => by
    have hlt : g.height < f.height := by
      rw [f.height_eq]
      exact Nat.lt_succ_of_le (height_le_heights hg)
    exact induction_parts h g
termination_by f.height

theorem placesFrom_pairwise (i : ℕ) {fs : List Filter}
    (h : ∀ f ∈ fs, f.places.Pairwise (· < ·)) : (placesFrom i fs).Pairwise (· < ·) := by
  induction fs generalizing i with
  | nil => exact .nil
  | cons f fs ih =>
    obtain ⟨hf, hfs⟩ := List.forall_mem_cons.mp h
    rw [placesFrom, List.pairwise_append, List.pairwise_map]
    refine ⟨hf.imp fun hlt => List.cons_lt_cons_iff.mpr (.inr ⟨rfl, hlt⟩), ih (i + 1) hfs, ?_⟩
    intro p hp q hq
    obtain ⟨place, -, rfl⟩ := List.mem_map.mp hp
    obtain ⟨j, place', g, rfl, -⟩ := mem_placesFrom.mp hq
    exact List.cons_lt_cons_iff.mpr (.inl (by omega))

theorem places_pairwise (f : Filter) : f.places.Pairwise (· < ·) := by
  induction f using induction_parts with
  | h f ih =>
    rw [places_eq, List.pairwise_cons]
    refine ⟨fun p hp => ?_, placesFrom_pairwise 0 ih⟩
    obtain ⟨j, place, g, rfl, -⟩ := mem_placesFrom.mp hp
    exact List.nil_lt_cons _ _

/-- the places that are listed before one are those that come before it -/
theorem mem_before {f : Filter} {before behind : List (List ℕ)} {place place' : List ℕ}
    (heq : f.places = before ++ place :: behind) :
    place' ∈ before ↔ place' ∈ f.places ∧ place' < place := by
  have hsorted := f.places_pairwise
  rw [heq, List.pairwise_append] at hsorted
  obtain ⟨-, hbehind, hacross⟩ := hsorted
  constructor
  · intro h
    rw [heq]
    exact ⟨List.mem_append_left _ h, hacross place' h place List.mem_cons_self⟩
  · rintro ⟨hmem, hlt⟩
    rw [heq, List.mem_append, List.mem_cons] at hmem
    rcases hmem with h | rfl | h
    · exact h
    · exact absurd hlt (lt_irrefl _)
    · exact absurd (hlt.trans (List.rel_of_pairwise_cons hbehind h)) (lt_irrefl _)

/-- what stands at the places in some parts, where `at?` finds what stands at them -/
theorem map_placesFrom {i : ℕ} {fs : List Filter} {at? : List ℕ → Option Filter}
    (hat : ∀ j place, at? ((i + j) :: place) = fs[j]?.bind (part? · place))
    (h : ∀ f ∈ fs, f.places.map f.part? = f.preorder.map some) :
    (placesFrom i fs).map at? = (preorders fs).map some := by
  induction fs generalizing i with
  | nil => rfl
  | cons f fs ih =>
    obtain ⟨hf, hfs⟩ := List.forall_mem_cons.mp h
    have hfirst : at? ∘ (i :: ·) = f.part? := funext fun place => hat 0 place
    have hrest (j : ℕ) (place : List ℕ) :
        at? ((i + 1 + j) :: place) = fs[j]?.bind (part? · place) := by
      rw [Nat.add_assoc, Nat.add_comm 1, hat, List.getElem?_cons_succ]
    rw [placesFrom, preorders, List.map_append, List.map_append, List.map_map, hfirst, hf,
      ih hrest hfs]

theorem map_places (f : Filter) : f.places.map f.part? = f.preorder.map some := by
  induction f using induction_parts with
  | h f ih =>
    have hparts : (placesFrom 0 f.children).map f.part? = (preorders f.children).map some :=
      map_placesFrom (fun j place => by rw [Nat.zero_add, part?]) ih
    rw [places_eq, preorder_eq, List.map_cons, List.map_cons, hparts, part?]

/-- **What stands at each place is seen once, in the order of places.** -/
theorem walk_places (f : Filter) : f.walk.map some = f.places.map f.part? := by
  rw [walk_eq_preorder, map_places]

/-! ## first answers -/

section
variable {α : Type} (answer? : Filter → Option α)

/-- the first answer among the expressions in an expression, in the order of their places -/
def FirstAt (f : Filter) (a : α) : Prop :=
  ∃ place g, f.part? place = some g ∧ answer? g = some a ∧
    ∀ place' < place, ∀ g', f.part? place' = some g' → answer? g' = none

/-- none of the expressions in an expression has an answer -/
def NoneAt (f : Filter) : Prop := ∀ place g, f.part? place = some g → answer? g = none

variable {answer?} {f : Filter}

theorem findSome_walk_eq : f.walk.findSome? answer? =
    f.places.findSome? fun place => (f.part? place).bind answer? := by
  have hsome : f.walk.findSome? answer? = (f.walk.map some).findSome? (·.bind answer?) := by
    rw [List.findSome?_map]
    rfl
  rw [hsome, walk_places, List.findSome?_map]
  rfl

theorem findSome_walk_none : f.walk.findSome? answer? = none ↔ f.NoneAt answer? := by
  rw [findSome_walk_eq, List.findSome?_eq_none_iff]
  constructor
  · intro h place g hg
    have hmem : place ∈ f.places := mem_places.mpr (Option.isSome_of_eq_some hg)
    have hplace := h place hmem
    rwa [hg] at hplace
  · intro h place _
    cases hg : f.part? place with
    | none => rfl
    | some g => exact h place g hg

/-- **The first answer on the way is that at the first place that has one.** -/
theorem findSome_walk {a : α} : f.walk.findSome? answer? = some a ↔ f.FirstAt answer? a := by
  rw [findSome_walk_eq, List.findSome?_eq_some_iff]
  constructor
  · rintro ⟨before, place, behind, heq, hanswer, hnone⟩
    obtain ⟨g, hg, ha⟩ := Option.bind_eq_some_iff.mp hanswer
    refine ⟨place, g, hg, ha, fun place' hlt g' hg' => ?_⟩
    have hmem : place' ∈ f.places := mem_places.mpr (Option.isSome_of_eq_some hg')
    have hplace := hnone place' ((mem_before heq).mpr ⟨hmem, hlt⟩)
    rwa [hg'] at hplace
  · rintro ⟨place, g, hg, ha, hnone⟩
    have hmem : place ∈ f.places := mem_places.mpr (Option.isSome_of_eq_some hg)
    obtain ⟨before, behind, heq⟩ := List.append_of_mem hmem
    refine ⟨before, place, behind, heq, by rw [hg]; exact ha, fun place' hplace' => ?_⟩
    obtain ⟨-, hlt⟩ := (mem_before heq).mp hplace'
    cases hg' : f.part? place' with
    | none => rfl
    | some g' => exact hnone place' hlt g' hg'

end

end PathQuery.Filter
