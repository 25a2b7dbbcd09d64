import PathQuery.Proofs.Filter.Sessions
import PathQuery.Proofs.Path.Limits
import PathQuery.Proofs.Path.RoundTrip
import PathQuery.Proofs.Path.WellRead

/-!
# The output belongs to the canonical text

What a path leads to does not depend on the session, nor on a leading `$`, nor on where its steps
are written. So two paths with one canonical text lead to the same output.

* `Path.steady_evaluate`      a path leads to the same output in all sessions;
* `Path.normalized_of_text`   the steps that a canonical text spells;
* `Path.evaluate_of_text`     what they lead to.
-/

namespace PathQuery
open Stateful
variable {E : RegexEngine}

/-! ## sessions -/

section
variable [E.Deterministic]

namespace Step

theorem steady_kept (r : Registry) (f : Filter) (items : List Document) :
    (kept (r.hooks E) f items).Steady :=
  (steady_closed.related r).kept f items

theorem steady_follow (r : Registry) (c : Cursor) (s : Step) :
    (s.follow (r.hooks E) c).Steady :=
  (steady_closed.related r).follow c s

theorem steady_followAll (r : Registry) (s : Step) (cs : List Cursor) :
    (s.followAll (r.hooks E) cs).Steady :=
  (steady_closed.related r).followAll s cs

end Step

theorem steady_followSteps (r : Registry) (steps : List Step) (cs : List Cursor) :
    (followSteps (r.hooks E) steps cs).Steady :=
  steady_closed.followSteps r steps cs

/-- what a path leads to does not depend on the session -/
theorem Path.steady_evaluate (p : Path) (r : Registry) (d : Document) (o : EvaluateOptions) :
    (p.evaluate (r.hooks E) d o).Steady :=
  (steady_closed.related r).path (steady_ofExcept _) d

end

namespace Path

/-! ## a leading `$` -/

theorem follow_eq (p : Path) {ω : Type} (H : Hooks ω) (d : Document) (n : ℕ) :
    p.follow H d n = followSteps H p.normalized [⟨d, .ofDocument d n⟩] := by
  rw [follow]
  obtain h | h := p.steps_eq
  · rw [h]
  · rw [h]
    rfl

theorem any_steps (p : Path) {f : Step → Bool} (h : f .root = false) :
    p.steps.any f = p.normalized.any f := by
  obtain hs | hs := p.steps_eq
  · rw [hs]
  · rw [hs, List.any_cons, h, Bool.false_or]

theorem isDeterministic_of_normalized {p q : Path} (h : q.normalized = p.normalized) :
    q.profile.isDeterministic = p.profile.isDeterministic := by
  have hany (f : Step → Bool) (hf : f .root = false) : q.steps.any f = p.steps.any f := by
    rw [any_steps q hf, any_steps p hf, h]
  unfold profile Profile.isDeterministic
  dsimp only
  rw [hany Step.isWildcard rfl, hany Step.isDescendants rfl, hany (·.filter?.isSome) rfl,
    hany Step.isSlice rfl]

/-- paths of the same steps lead to the same output, though their errors can differ in the
positions that they report -/
theorem evaluate_of_normalized {p q : Path} (h : q.normalized = p.normalized) {r : Registry}
    {d : Document} {o : EvaluateOptions} {output : Output}
    (hp : (p.evaluate (r.hooks E) d o).alone = .ok output) :
    (q.evaluate (r.hooks E) d o).alone = .ok output := by
  cases hallow : p.allow o with
  | error e =>
    have herror : (p.evaluate (r.hooks E) d o).alone = .error e := by
      unfold evaluate
      rw [hallow]
      rfl
    rw [herror] at hp
    cases hp
  | ok u =>
    have hallow' : q.allow o = .ok () := by
      rw [allow_iff, h, ← allow_iff]
      exact hallow
    rw [← hp]
    unfold evaluate
    rw [hallow, hallow', follow_eq, follow_eq, h, isDeterministic_of_normalized h]

/-! ## canonical texts -/

/-- paths that can be written and have one canonical text have the same steps -/
theorem normalized_of_text {p q : Path} (hp : p.isPrintable = true) (hq : q.isPrintable = true)
    (h : q.text = p.text) : q.normalized = p.normalized := by
  let o : ParseOptions :=
    { validate := false, maxFilterDepth := max p.kinds.length q.kinds.length }
  obtain ⟨p', hparse, hp', -⟩ := parse_text hp (o := o) rfl (fits_of_length_le (le_max_left _ _))
  obtain ⟨q', hparse', hq', -⟩ := parse_text hq (o := o) rfl (fits_of_length_le (le_max_right _ _))
  rw [h, hparse] at hparse'
  cases hparse'
  exact hq'.symm.trans hp'

/-- **Paths that have been read and have one canonical text lead to the same output.** -/
theorem evaluate_of_text {o : ParseOptions} {s t : String} {p q : Path}
    (hp : compile o s = .ok p) (hq : compile o t = .ok q) (h : q.text = p.text) {r : Registry}
    {d : Document} {options : EvaluateOptions} {output : Output}
    (houtput : (p.evaluate (r.hooks E) d options).alone = .ok output) :
    (q.evaluate (r.hooks E) d options).alone = .ok output :=
  evaluate_of_normalized
    (normalized_of_text (wellRead_of_compile hp).printable (wellRead_of_compile hq).printable h)
    houtput

end Path
end PathQuery
