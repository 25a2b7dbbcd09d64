import PathQuery.Proofs.Path.Reach
import PathQuery.Token.Lexer
import Mathlib.Data.List.Sort
import Mathlib.Tactic.Ring

/-!
# Slices

A slice names the places that are met on the way from its first place towards its last one, by
steps of one size. They can be found one by one with integers of 64 bits: no sum on the way is too
large for these before the last place is passed.

* `Slice.Before`               what is met first on the way;
* `mem_places`, `places_pairwise`   the places of a slice, and their order;
* `visited`, `visited_eq`      the same places, found one by one with integers of 64 bits;
* `select`                     the elements at the places of a slice;
* `usual`, `usualBackward`     the parts of a list that bounds are commonly taken to mark off;
* `select_backward`            a slice that turns lists round;
* `places_progression`         all this for any slice.
-/

namespace PathQuery
namespace Slice

/-- by steps like `step`, `i` is met before `j` -/
def Before (step i j : ℤ) : Prop := (0 < step ∧ i < j) ∨ (step < 0 ∧ j < i)

instance (step i j : ℤ) : Decidable (Before step i j) := inferInstanceAs (Decidable (_ ∨ _))

/-! ## the places -/

/-- a place as one of a list of `length` elements -/
def placeIn? (length : ℕ) (place : ℤ) : Option ℕ :=
  if 0 ≤ place ∧ place < length then some place.toNat else none

theorem placeIn_eq_some {length j : ℕ} {place : ℤ} :
    placeIn? length place = some j ↔ j < length ∧ (j : ℤ) = place := by
  unfold placeIn?
  split
  · rw [Option.some_inj]
    omega
  · simp only [reduceCtorEq, false_iff]
    omega

/-- the places met in `n` steps from `first` on, as far as they are in the list -/
def met (length : ℕ) (first step : ℤ) (n : ℕ) : List ℕ :=
  (List.range n).filterMap fun (k : ℕ) => placeIn? length (first + k * step)

theorem met_succ (length : ℕ) (first step : ℤ) (n : ℕ) :
    met length first step (n + 1) =
      (placeIn? length first).toList ++ met length (first + step) step n := by
  have hnext (k : ℕ) : first + (k + 1 : ℕ) * step = first + step + k * step := by
    push_cast
    ring
  unfold met
  rw [List.range_succ_eq_map, List.filterMap_cons, List.filterMap_map]
  simp only [Function.comp_def, Nat.succ_eq_add_one, hnext]
  rw [Nat.cast_zero, zero_mul, add_zero]
  cases placeIn? length first <;> rfl

/-- the last place is not met earlier than by `count` steps, and it is met or passed by then -/
theorem lt_count {first last step : ℤ} (hstep : step ≠ 0) (k : ℕ) :
    k < count first last step ↔ Before step (first + k * step) last := by
  have hsucc : ((k : ℤ) + 1) * step = k * step + step := by ring
  have hneg : ((k : ℤ) + 1) * -step = -(k * step) - step := by ring
  unfold count Before
  split
  · rename_i hpos
    rw [Int.lt_toNat, ← Int.add_one_le_iff, Int.le_ediv_iff_mul_le hpos, hsucc]
    omega
  · rename_i hpos
    rw [Int.lt_toNat, ← Int.add_one_le_iff, Int.le_ediv_iff_mul_le (by omega), hneg]
    omega

section
variable {s : Slice} {length : ℕ}

theorem places_eq_nil (hstep : s.step.getD 1 = 0) : s.places length = [] := by
  unfold places
  exact if_pos (.inl hstep)

theorem places_eq (hstep : s.step.getD 1 ≠ 0) (hlength : length ≤ maxPlace) :
    s.places length = met length (s.first length (s.step.getD 1)) (s.step.getD 1)
      (count (s.first length (s.step.getD 1)) (s.last length (s.step.getD 1))
        (s.step.getD 1)) := by
  unfold places
  exact if_neg (not_or.mpr ⟨hstep, Nat.not_lt.mpr hlength⟩)

/-- **The places of a slice** are those of the list that some number of steps leads to before the
last place. -/
theorem mem_places (hstep : s.step.getD 1 ≠ 0) (hlength : length ≤ maxPlace) {j : ℕ} :
    j ∈ s.places length ↔ j < length ∧ ∃ n : ℕ,
      (j : ℤ) = s.first length (s.step.getD 1) + n * s.step.getD 1 ∧
        Before (s.step.getD 1) j (s.last length (s.step.getD 1)) := by
  rw [places_eq hstep hlength, met, List.mem_filterMap]
  simp only [List.mem_range, lt_count hstep, placeIn_eq_some]
  constructor
  · rintro ⟨n, hbefore, hj, heq⟩
    exact ⟨hj, n, heq, heq ▸ hbefore⟩
  · rintro ⟨hj, n, heq, hbefore⟩
    exact ⟨n, heq ▸ hbefore, hj, heq⟩

theorem before_of_lt {step : ℤ} (hstep : step ≠ 0) (first : ℤ) {m n : ℕ} (h : m < n) :
    Before step (first + m * step) (first + n * step) := by
  have hmn : (m : ℤ) < n := Int.ofNat_lt.mpr h
  rcases Int.lt_or_gt_of_ne hstep with hneg | hpos
  · exact .inr ⟨hneg, Int.add_lt_add_left (Int.mul_lt_mul_of_neg_right hmn hneg) first⟩
  · exact .inl ⟨hpos, Int.add_lt_add_left (Int.mul_lt_mul_of_pos_right hmn hpos) first⟩

/-- they are in the order in which they are met, so that none comes twice -/
theorem places_pairwise (s : Slice) (length : ℕ) :
    (s.places length).Pairwise fun (i j : ℕ) => Before (s.step.getD 1) i j := by
  by_cases hstep : s.step.getD 1 = 0
  · rw [places_eq_nil hstep]
    exact .nil
  by_cases hlength : length ≤ maxPlace
  · rw [places_eq hstep hlength, met]
    refine List.Pairwise.filterMap _ (fun m n hmn i hi j hj => ?_) List.pairwise_lt_range
    obtain ⟨-, heq⟩ := placeIn_eq_some.mp hi
    obtain ⟨-, heq'⟩ := placeIn_eq_some.mp hj
    rw [heq, heq']
    exact before_of_lt hstep _ hmn
  · unfold places
    rw [if_pos (.inr (Nat.not_le.mp hlength))]
    exact .nil

end

/-! ## in integers of 64 bits -/

/-- the sum of two integers, if it is one of 64 bits with its sign -/
def sum? (a b : ℤ) : Option ℤ := if Token.inIntegerRange (a + b) then some (a + b) else none

/-- the sum of two integers, or the integer of 64 bits with its sign that is nearest to it -/
def heldSum (a b : ℤ) : ℤ := max (-0x8000000000000000) (min 0x7fffffffffffffff (a + b))

/-- a bound as a place, by a sum that is held among the integers of 64 bits -/
def heldBound (length : ℕ) (b : ℤ) : ℤ :=
  max (-1) (min length (if b < 0 then heldSum b length else b))

/-- the places met from `place` on until `last` is met or passed, or until there is no next place
among the integers of 64 bits; those outside of the list are left out -/
def visit (length : ℕ) (last step place : ℤ) : List ℕ :=
  if Before step place last then
    (placeIn? length place).toList ++
      match _hnext : sum? place step with
      | some next => visit length last step next
      | none => []
  else []
termination_by (if 0 < step then last - place else place - last).toNat
decreasing_by
  rename_i hbefore
  unfold Before at hbefore
  unfold sum? at _hnext
  split at _hnext
  · cases _hnext
    split <;> omega
  · cases _hnext

/-- the places of a slice, found one by one with integers of 64 bits -/
def visited (s : Slice) (length : ℕ) : List ℕ :=
  let step := s.step.getD 1
  if step = 0 ∨ maxPlace < length then []
  else
    let (first, last) : ℤ × ℤ := if 0 < step then (0, length) else (length - 1, -1)
    visit length ((s.stop.map (heldBound length)).getD last) step
      ((s.start.map (heldBound length)).getD first)

theorem inIntegerRange_iff {n : ℤ} : Token.inIntegerRange n = true ↔
    -0x8000000000000000 ≤ n ∧ n < 0x8000000000000000 := by
  rw [Token.inIntegerRange, Bool.and_eq_true, decide_eq_true_iff, decide_eq_true_iff]

/-- a bound that is too far from the end for a sum of 64 bits is in front of the list -/
theorem heldBound_eq {length : ℕ} (hlength : length ≤ maxPlace) (b : ℤ) :
    heldBound length b = bound length b := by
  unfold maxPlace at hlength
  unfold heldBound bound heldSum
  split <;> omega

/-- a next place that is not among the integers of 64 bits is behind the last place -/
theorem not_before_of_range {length : ℕ} {last step place : ℤ} (hlength : length ≤ maxPlace)
    (hlast : -1 ≤ last ∧ last ≤ length)
    (hfirst : (0 < step → -1 ≤ place) ∧ (step < 0 → place ≤ length))
    (hrange : ¬Token.inIntegerRange (place + step) = true) :
    ¬Before step (place + step) last := by
  rw [inIntegerRange_iff] at hrange
  unfold maxPlace at hlength
  unfold Before
  omega

/-- the walk with integers of 64 bits meets the places that are met by counting the steps -/
theorem visit_eq {length : ℕ} {last step : ℤ} (hlength : length ≤ maxPlace) (hstep : step ≠ 0)
    (hlast : -1 ≤ last ∧ last ≤ length) {n : ℕ} {place : ℤ} (hn : count place last step = n)
    (hfirst : (0 < step → -1 ≤ place) ∧ (step < 0 → place ≤ length)) :
    visit length last step place = met length place step n := by
  have hcount (place : ℤ) : 0 < count place last step ↔ Before step place last := by
    rw [lt_count hstep, Nat.cast_zero, zero_mul, add_zero]
  induction n generalizing place with
  | zero =>
    rw [visit, if_neg ((hcount place).not.mp (by omega))]
    rfl
  | succ n ih =>
    have hbefore := (hcount place).mp (by omega)
    -- from the next place on it is one step less
    have hnext : count (place + step) last step = n := by
      have hiff (k : ℕ) : k < count (place + step) last step ↔ k < n := by
        rw [← Nat.add_lt_add_iff_right (m := n) (k := 1), ← hn, lt_count hstep, lt_count hstep,
          Nat.cast_add, Nat.cast_one, add_mul, one_mul, add_assoc, add_comm step]
      have hle := (hiff n).mp.mt (Nat.lt_irrefl n)
      have hge := (hiff (count (place + step) last step)).mpr.mt (Nat.lt_irrefl _)
      omega
    rw [visit, if_pos hbefore, met_succ, sum?]
    split
    · rename_i next heq
      split at heq
      · cases heq
        rw [ih hnext (by unfold Before at hbefore; omega)]
      · cases heq
    · rename_i heq
      split at heq
      · cases heq
      · rename_i hrange
        have hnone := (hcount (place + step)).not.mpr
          (not_before_of_range hlength hlast hfirst hrange)
        rw [show n = 0 by omega]
        rfl

theorem bound_range (length : ℕ) (b : ℤ) : -1 ≤ bound length b ∧ bound length b ≤ length := by
  unfold bound
  omega

theorem first_range (s : Slice) (length : ℕ) (step : ℤ) :
    (0 < step → -1 ≤ s.first length step) ∧ (step < 0 → s.first length step ≤ length) := by
  unfold first
  cases s.start with
  | none => dsimp only; split <;> omega
  | some b => exact ⟨fun _ => (bound_range length b).1, fun _ => (bound_range length b).2⟩

theorem last_range (s : Slice) (length : ℕ) (step : ℤ) :
    -1 ≤ s.last length step ∧ s.last length step ≤ length := by
  unfold last
  cases s.stop with
  | none => dsimp only; split <;> omega
  | some b => exact bound_range length b

theorem heldFirst_eq {length : ℕ} (hlength : length ≤ maxPlace) (s : Slice) (step : ℤ) :
    (s.start.map (heldBound length)).getD (if 0 < step then 0 else (length : ℤ) - 1)
      = s.first length step := by
  unfold first
  cases s.start with
  | none => rfl
  | some b => exact heldBound_eq hlength b

theorem heldLast_eq {length : ℕ} (hlength : length ≤ maxPlace) (s : Slice) (step : ℤ) :
    (s.stop.map (heldBound length)).getD (if 0 < step then (length : ℤ) else -1)
      = s.last length step := by
  unfold last
  cases s.stop with
  | none => rfl
  | some b => exact heldBound_eq hlength b

/-- **Slices can be followed with integers of 64 bits.** Neither counting a bound from the end nor
going from place to place leads out of these, as long as there is a place to be met. -/
theorem visited_eq (s : Slice) (length : ℕ) : s.visited length = s.places length := by
  by_cases hstep : s.step.getD 1 = 0
  · rw [places_eq_nil hstep]
    unfold visited
    exact if_pos (.inl hstep)
  by_cases hlength : length ≤ maxPlace
  · rw [places_eq hstep hlength, ← visit_eq hlength hstep (s.last_range length _) rfl
      (s.first_range length _), ← heldFirst_eq hlength, ← heldLast_eq hlength]
    unfold visited
    dsimp only
    rw [if_neg (not_or.mpr ⟨hstep, Nat.not_lt.mpr hlength⟩)]
    split <;> rfl
  · unfold visited places
    dsimp only
    rw [if_pos (.inr (Nat.not_le.mp hlength)), if_pos (.inr (Nat.not_le.mp hlength))]

/-! ## the elements at these places -/

section
variable {α : Type}

/-- the elements of a list at the places of a slice -/
def select (s : Slice) (xs : List α) : List α := (s.places xs.length).filterMap (xs[·]?)

theorem forall₂_select {s : Slice} {xs : List α} (hlength : xs.length ≤ maxPlace) :
    List.Forall₂ (fun i x => xs[i]? = some x) (s.places xs.length) (s.select xs) := by
  have hinside : ∀ i ∈ s.places xs.length, i < xs.length := by
    intro i hi
    by_cases hstep : s.step.getD 1 = 0
    · rw [places_eq_nil hstep] at hi
      cases hi
    · exact ((mem_places hstep hlength).mp hi).1
  unfold select
  generalize s.places xs.length = is at hinside
  induction is with
  | nil => exact .nil
  | cons i is ih =>
    obtain ⟨hi, hrest⟩ := List.forall_mem_cons.mp hinside
    rw [List.filterMap_cons, List.getElem?_eq_getElem hi]
    exact .cons (List.getElem?_eq_getElem hi) (ih hrest)

/-- a bound as it is commonly taken: counted from the end if it is negative, and then moved to the
nearest of the places from `low` to `high` -/
def commonBound (low high : ℤ) (length : ℕ) (b : ℤ) : ℤ :=
  max low (min high (if b < 0 then b + length else b))

/-- the part of a list from one bound up to another, as it is commonly taken -/
def usual (s : Slice) (xs : List α) : List α :=
  let n := xs.length
  let low := (s.start.map (commonBound 0 n n)).getD 0
  let high := (s.stop.map (commonBound 0 n n)).getD n
  (xs.take high.toNat).drop low.toNat

def usualBackward (s : Slice) (xs : List α) : List α :=
  let n := xs.length
  let high := (s.start.map (commonBound (-1) (n - 1) n)).getD (n - 1)
  let low := (s.stop.map (commonBound (-1) (n - 1) n)).getD (-1)
  ((xs.take (high + 1).toNat).drop (low + 1).toNat).reverse

theorem filterMap_range' {xs : List α} {low n : ℕ} (h : low + n ≤ xs.length) :
    (List.range' low n).filterMap (xs[·]?) = (xs.drop low).take n := by
  induction n generalizing low with
  | zero => rw [List.take_zero]; rfl
  | succ n ih =>
    have hlow : low < xs.length := by omega
    rw [List.range'_succ, List.filterMap_cons, List.getElem?_eq_getElem hlow, ih (by omega),
      List.drop_eq_getElem_cons hlow, List.take_succ_cons]

theorem select_ascending {s : Slice} {xs : List α} {low high : ℕ} (hhigh : high ≤ xs.length)
    (hstep : 0 < s.step.getD 1) (hmem : ∀ j, j ∈ s.places xs.length ↔ low ≤ j ∧ j < high) :
    s.select xs = (xs.take high).drop low := by
  have hascending : (s.places xs.length).Pairwise (· < ·) :=
    (s.places_pairwise xs.length).imp fun hij => by unfold Before at hij; omega
  have hplaces : s.places xs.length = List.range' low (high - low) :=
    hascending.eq_of_mem_iff (List.pairwise_lt_range' 1) fun j => by
      rw [hmem, List.mem_range'_1]
      omega
  rw [select, hplaces, List.drop_take]
  by_cases hlow : low ≤ high
  · exact filterMap_range' (by omega)
  · rw [Nat.sub_eq_zero_of_le (by omega), List.take_zero]
    rfl

theorem select_descending {s : Slice} {xs : List α} {low high : ℕ} (hhigh : high ≤ xs.length)
    (hstep : s.step.getD 1 < 0) (hmem : ∀ j, j ∈ s.places xs.length ↔ low ≤ j ∧ j < high) :
    s.select xs = ((xs.take high).drop low).reverse := by
  have hdescending : (s.places xs.length).Pairwise (· > ·) :=
    (s.places_pairwise xs.length).imp fun hij => by unfold Before at hij; omega
  have hplaces : s.places xs.length = (List.range' low (high - low)).reverse :=
    hdescending.eq_of_mem_iff (List.pairwise_reverse.mpr (List.pairwise_lt_range' 1)) fun j => by
      rw [hmem, List.mem_reverse, List.mem_range'_1]
      omega
  rw [select, hplaces, List.filterMap_reverse, List.drop_take]
  by_cases hlow : low ≤ high
  · rw [filterMap_range' (by omega)]
  · rw [Nat.sub_eq_zero_of_le (by omega), List.take_zero]
    rfl

/-- for a place of the list, a bound can be taken either way -/
theorem bound_iff {length j : ℕ} (hj : j < length) (b : ℤ) :
    (bound length b ≤ j ↔ commonBound 0 length length b ≤ j) ∧
    ((j : ℤ) < bound length b ↔ (j : ℤ) < commonBound 0 length length b) ∧
    ((j : ℤ) ≤ bound length b ↔ (j : ℤ) ≤ commonBound (-1) (length - 1) length b) ∧
    (bound length b < j ↔ commonBound (-1) (length - 1) length b < j) := by
  unfold bound commonBound
  omega

/-- a bound that need not be there stays between the ends as well -/
theorem commonBound_range {low high default : ℤ} (h : low ≤ default ∧ default ≤ high) (length : ℕ)
    (b? : Option ℤ) : low ≤ (b?.map (commonBound low high length)).getD default ∧
      (b?.map (commonBound low high length)).getD default ≤ high := by
  cases b? with
  | none => exact h
  | some b =>
    show low ≤ commonBound low high length b ∧ commonBound low high length b ≤ high
    unfold commonBound
    omega

section
variable {s : Slice} {length j : ℕ}

theorem first_le_iff (hj : j < length) : s.first length 1 ≤ j ↔
    (s.start.map (commonBound 0 length length)).getD 0 ≤ j := by
  unfold first
  cases s.start with
  | none => exact Iff.rfl
  | some b => exact (bound_iff hj b).1

theorem lt_last_iff (hj : j < length) : j < s.last length 1 ↔
    j < (s.stop.map (commonBound 0 length length)).getD length := by
  unfold last
  cases s.stop with
  | none => exact Iff.rfl
  | some b => exact (bound_iff hj b).2.1

theorem le_first_iff (hj : j < length) : j ≤ s.first length (-1) ↔
    j ≤ (s.start.map (commonBound (-1) (length - 1) length)).getD (length - 1) := by
  unfold first
  cases s.start with
  | none => exact Iff.rfl
  | some b => exact (bound_iff hj b).2.2.1

theorem last_lt_iff (hj : j < length) : s.last length (-1) < j ↔
    (s.stop.map (commonBound (-1) (length - 1) length)).getD (-1) < j := by
  unfold last
  cases s.stop with
  | none => exact Iff.rfl
  | some b => exact (bound_iff hj b).2.2.2

theorem mem_places_up (hlength : length ≤ maxPlace) (hstep : s.step.getD 1 = 1) :
    j ∈ s.places length ↔ j < length ∧ s.first length 1 ≤ j ∧ j < s.last length 1 := by
  rw [mem_places (by omega) hlength, hstep]
  refine and_congr_right fun _ => ⟨?_, ?_⟩
  · rintro ⟨n, heq, hbefore⟩
    unfold Before at hbefore
    omega
  · rintro ⟨hfirst, hlast⟩
    exact ⟨(j - s.first length 1).toNat, by omega, .inl ⟨Int.one_pos, hlast⟩⟩

theorem mem_places_down (hlength : length ≤ maxPlace) (hstep : s.step.getD 1 = -1) :
    j ∈ s.places length ↔ j < length ∧ j ≤ s.first length (-1) ∧ s.last length (-1) < j := by
  rw [mem_places (by omega) hlength, hstep]
  refine and_congr_right fun _ => ⟨?_, ?_⟩
  · rintro ⟨n, heq, hbefore⟩
    unfold Before at hbefore
    omega
  · rintro ⟨hfirst, hlast⟩
    exact ⟨(s.first length (-1) - j).toNat, by omega, .inr ⟨by omega, hlast⟩⟩

end

/-- upwards one by one, a slice is the part of the list between its bounds -/
theorem select_usual {s : Slice} {xs : List α} (hlength : xs.length ≤ maxPlace)
    (hstep : s.step.getD 1 = 1) : s.select xs = s.usual xs := by
  have hlow := commonBound_range (show (0 : ℤ) ≤ 0 ∧ (0 : ℤ) ≤ xs.length by omega) xs.length s.start
  have hhigh := commonBound_range (show (0 : ℤ) ≤ xs.length ∧ (xs.length : ℤ) ≤ xs.length by omega)
    xs.length s.stop
  unfold usual
  dsimp only
  refine select_ascending (by omega) (by omega) fun j => ?_
  rw [mem_places_up hlength hstep]
  constructor
  · rintro ⟨hj, hfirst, hlast⟩
    rw [first_le_iff hj] at hfirst
    rw [lt_last_iff hj] at hlast
    omega
  · intro h
    have hj : j < xs.length := by omega
    rw [first_le_iff hj, lt_last_iff hj]
    omega

theorem select_usualBackward {s : Slice} {xs : List α} (hlength : xs.length ≤ maxPlace)
    (hstep : s.step.getD 1 = -1) : s.select xs = s.usualBackward xs := by
  have hhigh := commonBound_range
    (show (-1 : ℤ) ≤ xs.length - 1 ∧ (xs.length : ℤ) - 1 ≤ xs.length - 1 by omega) xs.length s.start
  have hlow := commonBound_range (show (-1 : ℤ) ≤ -1 ∧ (-1 : ℤ) ≤ xs.length - 1 by omega) xs.length
    s.stop
  unfold usualBackward
  dsimp only
  refine select_descending (by omega) (by omega) fun j => ?_
  rw [mem_places_down hlength hstep]
  constructor
  · rintro ⟨hj, hfirst, hlast⟩
    rw [le_first_iff hj] at hfirst
    rw [last_lt_iff hj] at hlast
    omega
  · intro h
    have hj : j < xs.length := by omega
    rw [le_first_iff hj, last_lt_iff hj]
    omega

def backward : Slice := ⟨none, none, some (-1)⟩

/-- **The slice `::-1` turns a list round.** -/
theorem select_backward {xs : List α} (hlength : xs.length ≤ maxPlace) :
    backward.select xs = xs.reverse := by
  rw [select_usualBackward hlength rfl]
  show ((xs.take ((xs.length : ℤ) - 1 + 1).toNat).drop 0).reverse = _
  rw [Int.sub_add_cancel, Int.toNat_natCast, List.take_length, List.drop_zero]

end

/-- a path of one slice leads from a list to the elements at its places -/
theorem evaluate_select (s : Slice) (items : List Document) {ω : Type} (H : Hooks ω)
    (o : EvaluateOptions) (σ : ω) : (Path.ofSteps [.root, .slice s]).evaluate H (.list items) o σ
      = .ok (.many (s.select items)) σ := by
  have hallow : (Path.ofSteps [.root, .slice s]).allow o = .ok () := rfl
  have hfollow : (Path.ofSteps [.root, .slice s]).follow H (.list items) o.maxDepth
      = pure ((s.select items).map (⟨·, .ofDocument (.list items) o.maxDepth⟩)) := by
    show (do
      let here ← (Step.slice s).follow H ⟨.list items, .ofDocument (.list items) o.maxDepth⟩
      pure (here ++ [])) = _
    rw [Step.follow_slice, pure_bind, List.append_nil]
    rfl
  unfold Path.evaluate
  rw [hallow, hfollow]
  show EStateM.Result.ok (Output.many (((s.select items).map _).map Cursor.value)) σ = _
  rw [List.map_map, show (Cursor.value ∘ fun v => _) = id from rfl, List.map_id]

/-- **A slice names an arithmetic progression.** The places of a slice are those of the list that
some number of steps leads to before the last place, in the order in which they are met; without a
step there are none. They are found one by one with integers of 64 bits. A path of one slice leads
to the elements at these places, and there is one at each of them. By steps of one these elements
are the part of the list that the bounds are commonly taken to mark off, and the slice `::-1` turns
a list round, so that it turns it back the second time. -/
theorem places_progression (s : Slice) (length : ℕ) (hlength : length ≤ maxPlace) :
    let step := s.step.getD 1
    s.visited length = s.places length ∧
    (step = 0 → s.places length = []) ∧
    (step ≠ 0 → ∀ j, j ∈ s.places length ↔ j < length ∧ ∃ n : ℕ,
      (j : ℤ) = s.first length step + n * step ∧ Before step j (s.last length step)) ∧
    (s.places length).Pairwise (fun (i j : ℕ) => Before step i j) ∧
    (∀ (items : List Document) {ω : Type} (H : Hooks ω) (o : EvaluateOptions) (σ : ω),
      items.length = length → (Path.ofSteps [.root, .slice s]).evaluate H (.list items) o σ
        = .ok (.many (s.select items)) σ) ∧
    ∀ (α : Type) (xs : List α), xs.length = length →
      List.Forall₂ (fun i x => xs[i]? = some x) (s.places length) (s.select xs) ∧
      (step = 1 → s.select xs = s.usual xs) ∧
      (step = -1 → s.select xs = s.usualBackward xs) ∧
      (backward.select xs).length = length ∧ backward.select (backward.select xs) = xs := by
  refine ⟨s.visited_eq length, places_eq_nil, fun hstep j => mem_places hstep hlength,
    s.places_pairwise length, fun items _ H o σ _ => evaluate_select s items H o σ, ?_⟩
  rintro α xs rfl
  have hreverse := select_backward hlength
  have hback : xs.reverse.length ≤ maxPlace := by rwa [List.length_reverse]
  refine ⟨forall₂_select hlength, select_usual hlength, select_usualBackward hlength, ?_, ?_⟩
  · rw [hreverse, List.length_reverse]
  · rw [hreverse, select_backward hback, List.reverse_reverse]

/-- a step that leads out of the integers of 64 bits, and bounds beyond both ends -/
theorem places_progression_far :
    let far : Slice := ⟨some 1, none, some 0x7fffffffffffffff⟩
    let all : Slice := ⟨some (-0x8000000000000000), some 0x7fffffffffffffff, none⟩
    3 ≤ maxPlace ∧ sum? 1 0x7fffffffffffffff = none ∧ far.visited 3 = [1] ∧
      all.select ['a', 'b', 'c'] = ['a', 'b', 'c'] := by
  intro far all
  have hlength : 3 ≤ maxPlace := by decide
  refine ⟨hlength, by decide, (places_progression far 3 hlength).1, ?_⟩
  obtain ⟨-, -, -, -, -, hselect⟩ := places_progression all 3 hlength
  exact (hselect Char ['a', 'b', 'c'] rfl).2.1 rfl

end Slice
end PathQuery
