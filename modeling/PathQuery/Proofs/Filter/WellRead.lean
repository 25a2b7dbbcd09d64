import PathQuery.Proofs.Token.Proper
import PathQuery.Proofs.Filter.Levels

/-!
# Filters that have been read

Whatever is read as a filter can be written, and it keeps to the limit on its levels.

* `Writable`           what can be written, of all that has been read;
* `gives_expression`   all readers of expressions give such;
* `gives_read`         whole filters keep to the limit, too.
-/

namespace PathQuery.Filter
open Token Token.Reader

/-- an expression that has been read can be written -/
def Writable (m : Measured) : Prop := m.filter.isPrintable = true

/-- the reader one level further in gives expressions that can be written -/
def GivesWritable (inner : Inner) : Prop :=
  ∀ reader ∈ inner, ∀ least, Gives Writable (reader least)

variable {b : Bounds} {inner : Inner}

theorem gives_enter (h : GivesWritable inner) (position : ℕ) :
    Gives (fun reader => ∀ least, Gives Writable (reader least)) (enter b position inner) := by
  cases inner with
  | none =>
    refine Gives.front.bind fun _ _ => ?_
    exact Gives.throw _
  | some reader => exact Gives.pure (h reader rfl)

theorem gives_checked (position : ℕ) {m : Measured} (h : Writable m) :
    Gives Writable (checked b position m) := by
  unfold checked
  split
  · refine Gives.front.bind fun _ _ => ?_
    exact Gives.throw _
  · exact Gives.pure h

/-! ## operands -/

theorem gives_member : Gives (fun _ => True) (member? b) := by
  unfold member?
  refine Gives.kind.bind fun k? _ => ?_
  split
  · refine Gives.skip.bind fun _ _ => (Gives.next _).bind fun t _ => ?_
    split
    · exact Gives.pure trivial
    · exact Gives.refuse _ _
  · refine Gives.skip.bind fun _ _ => (Gives.next _).bind fun t _ => ?_
    split
    · exact (Gives.expect _ _ _).bind fun _ _ => Gives.pure trivial
    · exact Gives.refuse _ _
  · exact Gives.pure trivial

theorem gives_argumentsUpTo {argument : Reader Measured} (h : Gives Writable argument)
    (tries : ℕ) : Gives (fun ms => ∀ m ∈ ms, Writable m) (argumentsUpTo argument tries) := by
  induction tries with
  | zero => exact h.map fun m hm => List.forall_mem_singleton.mpr hm
  | succ tries ih =>
    refine h.bind fun m hm => (Gives.skipIf _).bind fun more _ => ?_
    split
    · exact ih.map fun ms hms => List.forall_mem_cons.mpr ⟨hm, hms⟩
    · exact Gives.pure (List.forall_mem_singleton.mpr hm)

theorem gives_arguments {argument : Reader Measured} (h : Gives Writable argument) :
    Gives (fun ms => ∀ m ∈ ms, Writable m) (arguments b argument) := by
  refine (Gives.skipIf _).bind fun closed _ => ?_
  split
  · exact Gives.pure fun m hm => by cases hm
  · refine (Gives.tries fun n => gives_argumentsUpTo h n).bind fun ms hms => ?_
    exact (Gives.expect _ _ _).bind fun _ _ => Gives.pure hms

theorem arePrintable_iff (args : List Filter) :
    arePrintable args = true ↔ ∀ f ∈ args, f.isPrintable = true := by
  induction args with
  | nil => simp [arePrintable]
  | cons f args ih => rw [arePrintable, Bool.and_eq_true, ih, List.forall_mem_cons]

theorem gives_callOf (h : GivesWritable inner) {name : String} (hname : isFreeName name = true)
    (position : ℕ) : Gives Writable (callOf b inner name position) := by
  refine (gives_enter h position).bind fun reader hreader => ?_
  refine (gives_arguments (hreader 1)).bind fun ms hms => gives_checked position ?_
  show (isFreeName name && arePrintable (ms.map Measured.filter)) = true
  rw [hname, Bool.true_and, arePrintable_iff, List.forall_mem_map]
  exact hms

theorem gives_group (h : GivesWritable inner) (position : ℕ) :
    Gives Writable (group b inner position) := by
  refine (gives_enter h position).bind fun reader hreader => (hreader 1).bind fun m hm => ?_
  exact (Gives.expect _ _ _).bind fun _ _ => Gives.pure hm

theorem gives_ofLiteral {value : Literal} (h : value.isPrintable = true) :
    Gives Writable (ofLiteral value) :=
  Gives.pure h

theorem gives_primary (h : GivesWritable inner) {t : Token} (ht : t.kind.isProper = true) :
    Gives Writable (primary b inner t) := by
  unfold primary
  cases hk : t.kind with
  | current =>
    exact Gives.map (Gives.repeated gives_member) fun names _ => rfl
  | openParen => exact gives_group h t.position
  | identifier name =>
    rw [hk] at ht
    refine (Gives.skipIf _).bind fun called _ => ?_
    split
    · exact gives_callOf h ht t.position
    · exact Gives.refuse _ _
  | text value => exact gives_ofLiteral rfl
  | integer value =>
    rw [hk] at ht
    exact gives_ofLiteral ht
  | float value =>
    rw [hk] at ht
    exact gives_ofLiteral ht
  | bool value => exact gives_ofLiteral rfl
  | null => exact gives_ofLiteral rfl
  | _ => exact Gives.refuse _ _

theorem gives_operand (h : GivesWritable inner) : Gives Writable (operand b inner) := by
  refine (Gives.next _).bind fun t ht => ?_
  split
  · refine (gives_enter h t.position).bind fun reader hreader => ?_
    exact (hreader tightest).bind fun m hm => gives_checked t.position hm
  · exact gives_primary h ht

/-! ## operators -/

theorem gives_operator (least : ℕ) :
    Gives (fun found => ∀ p ∈ found, p.1.isPrintable = true) (operator? least) := by
  intro tokens found rest hproper hread
  unfold operator? at hread
  cases tokens with
  | nil =>
    cases hread
    exact ⟨fun p hp => by (cases hp), hproper⟩
  | cons t tokens =>
    dsimp only at hread
    cases hop : t.kind.operator? with
    | none =>
      rw [hop] at hread
      cases hread
      exact ⟨fun p hp => by (cases hp), hproper⟩
    | some op =>
      rw [hop] at hread
      dsimp only at hread
      split at hread
      · cases hread
        refine ⟨?_, hproper.tail⟩
        intro p hp
        cases hp
        have ht := hproper t List.mem_cons_self
        cases hk : t.kind <;> rw [hk] at hop ht <;> cases hop
        · rfl
        · exact ht
      · cases hread
        exact ⟨fun p hp => by (cases hp), hproper⟩

theorem gives_chainUpTo (h : GivesWritable inner) (least tries : ℕ) {left : Measured}
    (hleft : Writable left) : Gives Writable (chainUpTo b inner least tries left) := by
  induction tries generalizing left with
  | zero => exact Gives.pure hleft
  | succ tries ih =>
    refine (gives_operator least).bind fun found hfound => ?_
    cases found with
    | none => exact Gives.pure hleft
    | some p =>
      obtain ⟨op, position⟩ := p
      have hop : op.isPrintable = true := hfound _ rfl
      refine (gives_enter h position).bind fun reader hreader => ?_
      refine (hreader (op.precedence + 1)).bind fun right hright => ?_
      refine (gives_checked position ?_).bind fun joined hjoined => ih hjoined
      show (op.isPrintable && (left.filter.isPrintable && right.filter.isPrintable)) = true
      rw [hop, show left.filter.isPrintable = true from hleft,
        show right.filter.isPrintable = true from hright]
      rfl

theorem gives_level (h : GivesWritable inner) (least : ℕ) :
    Gives Writable (level b inner least) := by
  refine (gives_operand h).bind fun left hleft => ?_
  exact Gives.tries fun n => gives_chainUpTo h least n hleft

/-- **Whatever is read as an expression can be written.** -/
theorem gives_expression (b : Bounds) (room least : ℕ) :
    Gives Writable (expression b room least) := by
  induction room generalizing least with
  | zero => exact gives_level (fun reader hreader => by cases hreader) least
  | succ room ih =>
    refine gives_level (fun reader hreader => ?_) least
    cases hreader
    exact ih

theorem gives_exact (b : Bounds) (room least : ℕ) :
    Gives (fun m => Writable m ∧ Exact b m) (expression b room least) := by
  intro tokens m rest hproper hread
  obtain ⟨hwritable, hrest⟩ := gives_expression b room least hproper hread
  obtain ⟨_, _, hexact, _⟩ := takes_expression b room least hread
  exact ⟨⟨hwritable, hexact⟩, hrest⟩

theorem gives_read (limit finish : ℕ) :
    Gives (fun f => f.isPrintable = true ∧ f.height ≤ max 1 limit) (read limit finish) := by
  refine (gives_exact ⟨limit, finish⟩ limit 1).map fun m hm => ?_
  exact ⟨hm.1, hm.2.height ▸ hm.2.bound⟩

end PathQuery.Filter
