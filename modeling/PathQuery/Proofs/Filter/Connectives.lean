import PathQuery.Proofs.Filter.Hosts

/-!
# The laws of the logical operators

A logical operator short-circuits once its left operand decides, and an operand can fail, call what
a host has registered, and be of any type. The laws of Boolean algebra that keep the order of the
operands hold all the same, and nothing more or less is done on either side of them.

* `negated`, `both`, `either`     what the connectives make of their operands, in any monad;
* `SameTruth`                     expressions that come to the same truth and do the same;
* `connectives_lawful`            negation goes inside, grouping does not matter, and negating twice
                                  only leaves the truthiness of a value.
-/

namespace PathQuery

@[simp] theorem Value.isTruthy_bool (b : Bool) : (Value.bool b).isTruthy = b := rfl

/-! ## connectives of computations -/

namespace Connective

variable {m : Type → Type} [Monad m]

def negated (x : m Value) : m Value := do
  let v ← x
  pure (.bool !v.isTruthy)

/-- `y` is left alone if `x` comes to something false -/
def both (x y : m Value) : m Value := do
  let v ← x
  if v.isTruthy then do
    let w ← y
    pure (.bool w.isTruthy)
  else pure (.bool false)

/-- `y` is left alone if `x` comes to something true -/
def either (x y : m Value) : m Value := do
  let v ← x
  if v.isTruthy then pure (.bool true)
  else do
    let w ← y
    pure (.bool w.isTruthy)

variable [LawfulMonad m] (x y z : m Value)

theorem negated_both : negated (both x y) = either (negated x) (negated y) := by
  simp only [negated, both, either, bind_assoc, pure_bind]
  refine bind_congr fun v => ?_
  cases v.isTruthy <;> simp

theorem negated_either : negated (either x y) = both (negated x) (negated y) := by
  simp only [negated, both, either, bind_assoc, pure_bind]
  refine bind_congr fun v => ?_
  cases v.isTruthy <;> simp

theorem both_assoc : both (both x y) z = both x (both y z) := by
  simp only [both, bind_assoc]
  refine bind_congr fun v => ?_
  cases v.isTruthy with
  | false => simp
  | true =>
    simp only [if_true, bind_assoc, pure_bind]
    refine bind_congr fun w => ?_
    cases w.isTruthy <;> simp

theorem either_assoc : either (either x y) z = either x (either y z) := by
  simp only [either, bind_assoc]
  refine bind_congr fun v => ?_
  cases v.isTruthy with
  | true => simp
  | false =>
    simp only [Bool.false_eq_true, if_false, bind_assoc, pure_bind]
    refine bind_congr fun w => ?_
    cases w.isTruthy <;> simp

theorem isTruthy_negated_negated :
    Value.isTruthy <$> negated (negated x) = Value.isTruthy <$> x := by
  simp [negated]

end Connective

/-! ## connectives of expressions -/

namespace Filter
open Connective

section
variable {σ : Type} (H : Hooks σ) (item : Document) (f g : Filter)

theorem evaluate_negation :
    (negation f).evaluate H item = negated (f.evaluate H item) := by
  rw [evaluate, negated]

theorem evaluate_and : (binary (.known .and) f g).evaluate H item =
    both (f.evaluate H item) (g.evaluate H item) := by
  rw [evaluate, evaluateBinary_and, both, bind_assoc]
  refine bind_congr fun v => ?_
  cases v.isTruthy <;> simp

theorem evaluate_or : (binary (.known .or) f g).evaluate H item =
    either (f.evaluate H item) (g.evaluate H item) := by
  rw [evaluate, evaluateBinary_or, either, bind_assoc]
  refine bind_congr fun v => ?_
  cases v.isTruthy <;> simp

end

/-- whatever engine compiles the patterns and whatever is cached when they are evaluated, two
expressions come to the same truth or the same error, and have then asked the same of what is
registered, in the same order, and leave the same regexes cached; this also before a host whose
answers depend on what it was asked earlier -/
structure SameTruth (f g : Filter) : Prop where
  registered : ∀ {E : RegexEngine} (r : Registry) (item : Document) (s : Session E),
    f.holds (r.hooks E) item s = g.holds (r.hooks E) item s
  hosted : ∀ {E : RegexEngine} {σ : Type} (h : Host σ) (item : Document) (s : Session E × σ),
    f.holds (h.hooks E) item s = g.holds (h.hooks E) item s

theorem SameTruth.of_holds {f g : Filter}
    (h : ∀ {σ : Type} (H : Hooks σ) (item : Document), f.holds H item = g.holds H item) :
    SameTruth f g where
  registered r item s := congrFun (h (r.hooks _) item) s
  hosted host item s := congrFun (h (host.hooks _) item) s

theorem SameTruth.of_evaluate {f g : Filter}
    (h : ∀ {σ : Type} (H : Hooks σ) (item : Document), f.evaluate H item = g.evaluate H item) :
    SameTruth f g :=
  .of_holds fun H item => by rw [holds, h, holds]

/-- **Negation goes inside `&&` and `||`, these associate, and double negation keeps the
truthiness**, with the same done on both sides. -/
theorem connectives_lawful (a b c : Filter) :
    SameTruth (.negation (.binary (.known .and) a b))
        (.binary (.known .or) (.negation a) (.negation b)) ∧
      SameTruth (.negation (.binary (.known .or) a b))
        (.binary (.known .and) (.negation a) (.negation b)) ∧
      SameTruth (.binary (.known .and) (.binary (.known .and) a b) c)
        (.binary (.known .and) a (.binary (.known .and) b c)) ∧
      SameTruth (.binary (.known .or) (.binary (.known .or) a b) c)
        (.binary (.known .or) a (.binary (.known .or) b c)) ∧
      SameTruth (.negation (.negation a)) a := by
  refine ⟨.of_evaluate fun H item => ?_, .of_evaluate fun H item => ?_,
    .of_evaluate fun H item => ?_, .of_evaluate fun H item => ?_, .of_holds fun H item => ?_⟩
  · simp only [evaluate_negation, evaluate_and, evaluate_or, negated_both]
  · simp only [evaluate_negation, evaluate_and, evaluate_or, negated_either]
  · simp only [evaluate_and, both_assoc]
  · simp only [evaluate_or, either_assoc]
  · simp only [holds, evaluate_negation, isTruthy_negated_negated]

end Filter
end PathQuery
