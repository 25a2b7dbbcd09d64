import PathQuery.Proofs.Filter.Levels
import PathQuery.Proofs.Filter.TooDeep
import PathQuery.Proofs.Token.Repeats

/-!
# Expressions in front of other tokens

Reading an expression depends on its own tokens and on the one behind them. So in another text,
where the same tokens stand and the same one behind them, the same is read.

* `Inner.Repeats`         what holds of the readers one level further in for two ends of the text;
* `repeats_expression`    the readers of expressions give the same in both;
* `repeats_read`          and so do those of whole filters.
-/

namespace PathQuery.Filter
open Token Token.Reader

/-- the same bounds in a text that ends elsewhere -/
def Bounds.endingAt (b : Bounds) (finish : ℕ) : Bounds := { b with finish := finish }

/-- the reader one level further in gives what the other gives, and takes tokens -/
def RepeatsFrom (reader reader' : ℕ → Reader Measured) : Prop :=
  ∀ least, RepeatsAll (reader least) (reader' least) ∧ Takes (reader least) fun _ n => 0 < n

/-- so it is where there is a reader one level further in; there is none on both sides or on none -/
def Inner.Repeats : Inner → Inner → Prop := Option.Rel RepeatsFrom

section
variable {α : Type} {b : Bounds} {finish n n' : ℕ} {inner inner' : Inner}

theorem repeats_enter (h : inner.Repeats inner') (position : ℕ)
    {k k' : (ℕ → Reader Measured) → Reader α}
    (hk : ∀ reader reader', RepeatsFrom reader reader' →
      Repeats n n' Alike (k reader) (k' reader')) :
    Repeats n n' Alike (enter b position inner >>= k)
      (enter (b.endingAt finish) position inner' >>= k') := by
  cases h with
  | none =>
    refine Repeats.of_error fun tokens => ?_
    obtain ⟨found, position, rest, herror⟩ := (enter_none position).bind k
    exact ⟨_, rest, herror, _, _, _, rfl⟩
  | some h => exact hk _ _ h

theorem repeats_checked (position : ℕ) (m : Measured) :
    RepeatsAll (checked b position m) (checked (b.endingAt finish) position m) := by
  unfold checked
  split
  · rename_i hdeep
    rw [if_pos (show (b.endingAt finish).limit < m.height from hdeep)]
    exact RepeatsAll.front.bind fun _ _ _ => Repeats.throw
  · rename_i hle
    rw [if_neg (show ¬(b.endingAt finish).limit < m.height from hle)]
    exact RepeatsAll.pure m

/-! ## operands -/

theorem repeats_member : RepeatsAll (member? b) (member? (b.endingAt finish)) := by
  unfold member?
  refine RepeatsAll.kind.bind fun k? => ?_
  split
  · refine RepeatsAll.skip.bind fun _ => RepeatsAll.bind (fun _ _ => Repeats.next _ _) fun t => ?_
    split
    · exact RepeatsAll.pure _
    · exact fun _ _ => Repeats.refuse _ _
  · refine RepeatsAll.skip.bind fun _ => RepeatsAll.bind (fun _ _ => Repeats.next _ _) fun t => ?_
    split
    · exact RepeatsAll.bind (fun _ _ => Repeats.expect _ _ _ _) fun _ => RepeatsAll.pure _
    · exact fun _ _ => Repeats.refuse _ _
  · exact RepeatsAll.pure _

theorem takes_member_pos : Takes (member? b) fun name? n => name?.isSome → 0 < n := by
  unfold member?
  refine (Takes.kind fun k? => ?_).bind
  split
  · refine (Takes.skip fun _ => (Takes.next fun t => ?_).bind).bind
    split
    · exact Takes.pure fun _ => by omega
    · exact Takes.refuse _ _
  · refine (Takes.skip fun _ => (Takes.next fun t => ?_).bind).bind
    split
    · exact (Takes.expect (Takes.pure fun _ => by omega)).bind
    · exact Takes.refuse _ _
  · exact Takes.pure nofun

theorem repeats_members :
    RepeatsAll (repeated (member? b)) (repeated (member? (b.endingAt finish))) :=
  repeats_member.repeated rfl takes_member_pos

theorem argumentsUpTo_nil {argument : Reader Measured} (h : Takes argument fun _ n => 0 < n)
    (tries : ℕ) (ms : List Measured) : argumentsUpTo argument tries [] ≠ .ok ms [] := by
  obtain ⟨e, more, herror⟩ : ∃ e more, argument [] = .error e more := by
    cases hr : argument [] with
    | error e more => exact ⟨e, more, rfl⟩
    | ok m more =>
      obtain ⟨taken, htokens, hpos⟩ := h hr
      rw [(List.append_eq_nil_iff.mp htokens.symm).1] at hpos
      cases hpos
  intro hread
  cases tries with
  | zero => rw [argumentsUpTo, map_error herror] at hread; cases hread
  | succ tries => rw [argumentsUpTo, bind_error herror] at hread; cases hread

theorem repeats_argumentsUpTo {argument argument' : Reader Measured}
    (h : RepeatsAll argument argument') (htakes : Takes argument fun _ n => 0 < n) (n n' : ℕ) :
    Repeats n n' Alike (argumentsUpTo argument n) (argumentsUpTo argument' n') := by
  refine Repeats.upTo (r := fun _ => argumentsUpTo argument)
    (q := fun _ => argumentsUpTo argument') (fun _ => (h 0 0).map)
    (fun _ n _ ms hread => absurd hread (argumentsUpTo_nil htakes n ms)) (fun _ n n' ih => ?_) ()
    n n'
  refine Repeats.bind_all h fun m => ?_
  refine ((RepeatsAll.skipIf .comma) (n + 1) (n' + 1)).bind (Takes.skipIf ?_ ?_)
  · exact (ih ()).map
  · exact Repeats.pure _

theorem repeats_arguments {argument argument' : Reader Measured} (h : RepeatsAll argument argument')
    (htakes : Takes argument fun _ n => 0 < n) :
    RepeatsAll (arguments b argument) (arguments (b.endingAt finish) argument') := by
  refine (RepeatsAll.skipIf .closeParen).bind fun closed => ?_
  split
  · exact RepeatsAll.pure []
  · refine (RepeatsAll.tries (repeats_argumentsUpTo h htakes)).bind fun ms => ?_
    exact RepeatsAll.bind (fun _ _ => Repeats.expect _ _ _ _) fun _ => RepeatsAll.pure ms

theorem repeats_callOf (h : inner.Repeats inner') (name : String) (position : ℕ) :
    RepeatsAll (callOf b inner name position)
      (callOf (b.endingAt finish) inner' name position) := by
  refine fun n n' => repeats_enter h position fun reader reader' hreader => ?_
  obtain ⟨hargument, htakes⟩ := hreader 1
  exact (repeats_arguments hargument htakes).bind (fun args => repeats_checked position _) n n'

theorem repeats_group (h : inner.Repeats inner') (position : ℕ) :
    RepeatsAll (group b inner position) (group (b.endingAt finish) inner' position) := by
  refine fun n n' => repeats_enter h position fun reader reader' hreader => ?_
  refine Repeats.bind_all (hreader 1).1 fun m => ?_
  exact Repeats.bind_all (fun _ _ => Repeats.expect _ _ _ _) fun _ => Repeats.pure m

theorem repeats_primary (h : inner.Repeats inner') (t : Token) :
    RepeatsAll (primary b inner t) (primary (b.endingAt finish) inner' t) := by
  unfold primary
  cases t.kind with
  | current => exact repeats_members.map
  | openParen => exact repeats_group h t.position
  | identifier name =>
    refine (RepeatsAll.skipIf .openParen).bind fun opened => ?_
    split
    · exact repeats_callOf h name t.position
    · exact fun _ _ => Repeats.refuse _ _
  | text value => exact RepeatsAll.pure _
  | integer value => exact RepeatsAll.pure _
  | float value => exact RepeatsAll.pure _
  | bool value => exact RepeatsAll.pure _
  | null => exact RepeatsAll.pure _
  | _ => exact fun _ _ => Repeats.refuse _ _

theorem repeats_operand (h : inner.Repeats inner') :
    RepeatsAll (operand b inner) (operand (b.endingAt finish) inner') := by
  refine RepeatsAll.bind (fun _ _ => Repeats.next _ _) fun t => ?_
  split
  · refine fun n n' => repeats_enter h t.position fun reader reader' hreader => ?_
    exact (hreader tightest).1.bind (fun m => repeats_checked t.position _) n n'
  · exact repeats_primary h t

/-! ## operators -/

theorem repeats_operator (least : ℕ) : RepeatsAll (operator? least) (operator? least) := by
  refine RepeatsAll.of_front
    (g := fun t? => t?.bind fun t => t.kind.operator?.bind fun op =>
      if least ≤ op.precedence then some (op, t.position) else none)
    (p := fun t? => t?.any fun t => t.kind.operator?.any fun op => least ≤ op.precedence)
    fun tokens => ?_
  cases tokens with
  | nil => rfl
  | cons t tokens =>
    unfold operator?
    dsimp only
    split
    · rename_i op hop
      by_cases hle : least ≤ op.precedence <;> simp [hop, hle]
    · rename_i hop
      simp [hop]

theorem takes_operator_pos (least : ℕ) :
    Takes (operator? least) fun found n => found.isSome → 0 < n := by
  intro tokens found rest hread
  unfold operator? at hread
  split at hread
  · split at hread
    · split at hread
      · cases hread
        exact ⟨[_], rfl, fun _ => Nat.zero_lt_one⟩
      · cases hread
        exact ⟨[], rfl, nofun⟩
    · cases hread
      exact ⟨[], rfl, nofun⟩
  · cases hread
    exact ⟨[], rfl, nofun⟩

theorem chainUpTo_nil (least tries : ℕ) (left : Measured) :
    chainUpTo b inner least tries left [] = .ok left [] := by
  cases tries with
  | zero => rfl
  | succ tries => rfl

/-- a chain goes on as long as there are operators, and each of them is a token -/
theorem repeats_chainUpTo (h : inner.Repeats inner') (least : ℕ) (left : Measured) (n n' : ℕ) :
    Repeats n n' Alike (chainUpTo b inner least n left)
      (chainUpTo (b.endingAt finish) inner' least n' left) := by
  refine Repeats.upTo (r := fun left n => chainUpTo b inner least n left)
    (q := fun left n => chainUpTo (b.endingAt finish) inner' least n left)
    (fun left => Repeats.pure left) (fun left n n' m hread => ?_) (fun left n n' ih => ?_) left n n'
  · rw [chainUpTo_nil] at hread ⊢
    exact hread
  · refine (repeats_operator least (n + 1) (n' + 1)).bind
      ((takes_operator_pos least).mono fun found k hfound => ?_)
    cases found with
    | none => exact Repeats.pure left
    | some found =>
      obtain ⟨op, position⟩ := found
      have hpos := hfound rfl
      refine repeats_enter h position fun reader reader' hreader => ?_
      refine Repeats.bind_all (hreader (op.precedence + 1)).1 fun right => ?_
      refine Repeats.bind_all (repeats_checked position _) fun joined => ?_
      exact (ih joined).mono (by omega) (by omega) fun _ _ => id

theorem repeats_level (h : inner.Repeats inner') (least : ℕ) :
    RepeatsAll (level b inner least) (level (b.endingAt finish) inner' least) :=
  (repeats_operand h).bind fun left => RepeatsAll.tries (repeats_chainUpTo h least left)

/-- **The readers of expressions do not depend on what is further behind.** -/
theorem repeats_expression (b : Bounds) (finish room least : ℕ) :
    RepeatsAll (expression b room least) (expression (b.endingAt finish) room least) := by
  induction room generalizing least with
  | zero => exact repeats_level .none least
  | succ room ih =>
    refine repeats_level (.some fun least => ⟨ih least, ?_⟩) least
    exact (takes_expression b room least).mono fun _ _ h => h.2

theorem repeats_read (limit finish finish' : ℕ) :
    RepeatsAll (read limit finish) (read limit finish') :=
  RepeatsAll.map (repeats_expression ⟨limit, finish⟩ finish' limit 1)

end
end PathQuery.Filter
