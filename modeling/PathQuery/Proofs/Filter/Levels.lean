import PathQuery.Proofs.Filter.Depth
import PathQuery.Proofs.Token.Takes

/-!
# The levels that readers count

Readers of expressions count the levels of what they read while they put it together. The count is
right, whatever the tokens are, and it stays within the limit but for expressions of one level,
which nothing checks.

* `Exact`              the count is right and within the limit;
* `takes_expression`   so it is for all expressions that are read, and these take tokens.
-/

namespace PathQuery.Filter
open Token Token.Reader

/-- what is counted for an expression is the number of its levels, and within the limit -/
structure Exact (b : Bounds) (m : Measured) : Prop where
  height : m.height = m.filter.height
  bound : m.height ≤ max 1 b.limit

/-- the reader one level further in counts right and takes tokens -/
def CountsRight (b : Bounds) (inner : Inner) : Prop :=
  ∀ reader ∈ inner, ∀ least, Takes (reader least) fun m n => Exact b m ∧ 0 < n

theorem foldl_height_eq_heights {ms : List Measured} (h : ∀ m ∈ ms, m.height = m.filter.height) :
    ms.foldl (fun h m => max h m.height) 0 = heights (ms.map Measured.filter) := by
  have hmeasured : (ms.map Measured.filter).map measured = ms := by
    rw [List.map_map]
    refine (List.map_congr_left fun m hm => ?_).trans (List.map_id ms)
    show (⟨m.filter, m.filter.height⟩ : Measured) = m
    rw [← h m hm]
  have hfold := foldl_height (ms.map Measured.filter) 0
  rwa [hmeasured, Nat.zero_max] at hfold

section
variable {b : Bounds} {inner : Inner}

theorem takes_tooDeep {α : Type} {position : ℕ} {Q : α → ℕ → Prop} :
    Takes (tooDeep b position) Q :=
  (Takes.front fun _ => Takes.throw _).bind

theorem takes_enter (h : CountsRight b inner) (position : ℕ) :
    Takes (enter b position inner) fun reader n => n = 0 ∧
      ∀ least, Takes (reader least) fun m n => Exact b m ∧ 0 < n := by
  cases inner with
  | none => exact takes_tooDeep
  | some reader => exact Takes.pure ⟨rfl, h reader rfl⟩

theorem takes_checked {position : ℕ} {m : Measured} (h : m.height = m.filter.height) :
    Takes (checked b position m) fun m _ => Exact b m := by
  unfold checked
  split
  · exact takes_tooDeep
  · rename_i hle
    exact Takes.pure ⟨h, (Nat.not_lt.mp hle).trans (Nat.le_max_right _ _)⟩

/-! ## operands -/

theorem takes_member : Takes (member? b) fun _ _ => True := by
  unfold member?
  refine (Takes.kind fun k? => ?_).bind
  split
  · refine (Takes.skip fun _ => (Takes.next fun t => ?_).bind).bind
    split
    · exact Takes.pure trivial
    · exact Takes.refuse _ _
  · refine (Takes.skip fun _ => (Takes.next fun t => ?_).bind).bind
    split
    · exact (Takes.expect (Takes.pure trivial)).bind
    · exact Takes.refuse _ _
  · exact Takes.pure trivial

theorem takes_argumentsUpTo {argument : Reader Measured}
    (h : Takes argument fun m n => Exact b m ∧ 0 < n) (tries : ℕ) :
    Takes (argumentsUpTo argument tries) fun ms _ => ∀ m ∈ ms, Exact b m := by
  induction tries with
  | zero => exact Takes.map (h.mono fun m n hm => List.forall_mem_singleton.mpr hm.1)
  | succ tries ih =>
    refine (h.mono fun m n hm => (Takes.skipIf ?_ ?_).bind).bind
    · exact Takes.map (ih.mono fun ms n hms => List.forall_mem_cons.mpr ⟨hm.1, hms⟩)
    · exact Takes.pure (List.forall_mem_singleton.mpr hm.1)

theorem takes_arguments {argument : Reader Measured}
    (h : Takes argument fun m n => Exact b m ∧ 0 < n) :
    Takes (arguments b argument) fun ms n => (∀ m ∈ ms, Exact b m) ∧ 0 < n := by
  refine (Takes.skipIf ?_ ?_).bind
  · rw [if_pos rfl]
    exact Takes.pure ⟨nofun, Nat.zero_lt_one⟩
  · refine Takes.bind (Takes.mono (Takes.tries fun n => takes_argumentsUpTo h n) fun ms n hms => ?_)
    exact (Takes.expect (Takes.pure ⟨hms, by omega⟩)).bind

theorem takes_callOf (h : CountsRight b inner) (name : String) (position : ℕ) :
    Takes (callOf b inner name position) fun m _ => Exact b m := by
  refine ((takes_enter h position).mono fun reader n hreader => ?_).bind
  refine ((takes_arguments (hreader.2 1)).mono fun ms n hms => ?_).bind
  refine takes_checked ?_
  show _ + 1 = heights (ms.map Measured.filter) + 1
  rw [foldl_height_eq_heights fun m hm => (hms.1 m hm).height]

theorem takes_group (h : CountsRight b inner) (position : ℕ) :
    Takes (group b inner position) fun m _ => Exact b m := by
  refine ((takes_enter h position).mono fun reader n hreader => ?_).bind
  refine ((hreader.2 1).mono fun m n hm => ?_).bind
  exact (Takes.expect (Takes.pure hm.1)).bind

theorem takes_ofLiteral (value : Literal) : Takes (ofLiteral value) fun m _ => Exact b m :=
  Takes.pure ⟨rfl, Nat.le_max_left 1 b.limit⟩

theorem takes_primary (h : CountsRight b inner) (t : Token) :
    Takes (primary b inner t) fun m _ => Exact b m := by
  unfold primary
  cases t.kind with
  | current =>
    refine Takes.map (Takes.repeated takes_member fun names n => ?_)
    exact ⟨rfl, Nat.le_max_left 1 b.limit⟩
  | openParen => exact takes_group h t.position
  | identifier name =>
    refine (Takes.skipIf ?_ (Takes.refuse _ _)).bind
    exact (takes_callOf h name t.position)
  | text value => exact takes_ofLiteral _
  | integer value => exact takes_ofLiteral _
  | float value => exact takes_ofLiteral _
  | bool value => exact takes_ofLiteral _
  | null => exact takes_ofLiteral _
  | _ => exact Takes.refuse _ _

theorem takes_operand (h : CountsRight b inner) :
    Takes (operand b inner) fun m n => Exact b m ∧ 0 < n := by
  refine (Takes.next fun t => ?_).bind
  split
  · refine ((takes_enter h t.position).mono fun reader n hreader => ?_).bind
    refine ((hreader.2 tightest).mono fun m n hm => ?_).bind
    exact (takes_checked (congrArg (· + 1) hm.1.height)).mono fun m n hm => ⟨hm, by omega⟩
  · exact (takes_primary h t).mono fun m n hm => ⟨hm, by omega⟩

/-! ## operators -/

theorem takes_operator (least : ℕ) : Takes (operator? least) fun _ _ => True := by
  intro tokens found rest hread
  unfold operator? at hread
  cases tokens with
  | nil =>
    cases hread
    exact ⟨[], rfl, trivial⟩
  | cons t tokens =>
    dsimp only at hread
    split at hread
    · split at hread
      · cases hread
        exact ⟨[t], rfl, trivial⟩
      · cases hread
        exact ⟨[], rfl, trivial⟩
    · cases hread
      exact ⟨[], rfl, trivial⟩

theorem takes_chainUpTo (h : CountsRight b inner) (least tries : ℕ) {left : Measured}
    (hleft : Exact b left) : Takes (chainUpTo b inner least tries left) fun m _ => Exact b m := by
  induction tries generalizing left with
  | zero => exact Takes.pure hleft
  | succ tries ih =>
    refine ((takes_operator least).mono fun found _ _ => ?_).bind
    cases found with
    | none => exact Takes.pure hleft
    | some found =>
      obtain ⟨op, position⟩ := found
      refine ((takes_enter h position).mono fun reader n hreader => ?_).bind
      refine ((hreader.2 (op.precedence + 1)).mono fun right n hright => ?_).bind
      refine ((takes_checked ?_).mono fun joined n hjoined => ih hjoined).bind
      show max left.height right.height + 1 = max left.filter.height right.filter.height + 1
      rw [hleft.height, hright.1.height]

theorem takes_level (h : CountsRight b inner) (least : ℕ) :
    Takes (level b inner least) fun m n => Exact b m ∧ 0 < n := by
  refine ((takes_operand h).mono fun left n hleft => ?_).bind
  refine (Takes.tries fun tries => takes_chainUpTo h least tries hleft.1).mono fun m n' hm => ?_
  exact ⟨hm, by omega⟩

/-- **The levels of all expressions that are read are counted right.** -/
theorem takes_expression (b : Bounds) (room least : ℕ) :
    Takes (expression b room least) fun m n => Exact b m ∧ 0 < n := by
  induction room generalizing least with
  | zero => exact takes_level (fun reader hreader => by cases hreader) least
  | succ room ih =>
    refine takes_level (fun reader hreader => ?_) least
    cases hreader
    exact ih

end

end PathQuery.Filter
