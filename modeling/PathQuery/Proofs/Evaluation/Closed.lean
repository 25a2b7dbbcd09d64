import PathQuery.Proofs.Evaluation.Hooks

/-!
# What holds of all evaluations

Whatever is evaluated is put together from a few computations: calls are noted, the regex engine is
asked, and filters are refused or cannot be decided. A property that these have, and that `bind`
keeps, is a property of all evaluations.

* `Run.Closed`           such a property;
* `Closed.related`       the hooks of a registry have it;
* `Closed.evaluate`      filter expressions have it;
* `Closed.followSteps`   and rows of steps.
-/

namespace PathQuery
variable {E : RegexEngine}

/-- a property that computations have if all those have it from which they are put together -/
structure Run.Closed (C : ∀ {α : Type}, Run E α → Prop) : Prop where
  pure : ∀ {α : Type} (a : α), C (pure a)
  bind : ∀ {α β : Type} {m : Run E α} {f : α → Run E β}, C m → (∀ a, C (f a)) → C (m >>= f)
  /-- security errors -/
  security : ∀ {α : Type} (fault : SecurityFault), C (throw (.security fault) : Run E α)
  /-- giving up where a filter cannot be decided -/
  evaluation : ∀ {α : Type} (fault : EvaluationFault), C (throw (.evaluation fault) : Run E α)
  note : ∀ i, C (Run.note i)
  compile : ∀ text, C (Run.compile text)
  isMatch : ∀ regex text, C (Run.isMatch regex text)

namespace Run.Closed
variable {C : ∀ {α : Type}, Run E α → Prop} {α β : Type}

theorem ofExcept (h : Run.Closed C) {r : Except PathError α} (hr : OnlySecurity r) :
    C (.ofExcept r) := by
  obtain ⟨a, rfl⟩ | ⟨fault, rfl⟩ := hr
  · exact h.pure a
  · exact h.security fault

theorem search (h : Run.Closed C) (text pattern : Value) : C (Filter.search text pattern) := by
  unfold Filter.search
  split
  · refine h.bind (h.ofExcept (onlySecurity_guardPattern _)) fun _ =>
      h.bind (h.compile _) fun regex? => ?_
    cases regex? with
    | ok regex => exact h.isMatch regex _
    | error error => exact h.evaluation _
  · exact h.pure _

theorem applyNoted (h : Run.Closed C) (r : Registry) (name : String) (v w : Value) :
    C (Filter.applyNoted r name v w) := by
  unfold Filter.applyNoted
  split_ifs
  · exact h.bind (h.note _) fun _ => h.pure _
  · exact h.pure _

theorem callNoted (h : Run.Closed C) (r : Registry) (name : String) (args : List Value) :
    C (Filter.callNoted r name args) := by
  unfold Filter.callNoted
  split_ifs
  · exact h.bind (h.note _) fun _ => h.pure _
  · exact h.pure _

theorem related (h : Run.Closed C) (r : Registry) :
    Hooks.Related (fun m (_ : Run E _) => C m) (r.hooks E) (r.hooks E) where
  pure := h.pure
  bind := h.bind
  security := h.security
  search := h.search
  operator := h.applyNoted r
  call := h.callNoted r

theorem evaluateBinary (h : Run.Closed C) (r : Registry) (op : Operator) {x y : Run E Value}
    (hx : C x) (hy : C y) : C (Filter.evaluateBinary (r.hooks E) op x y) :=
  @Hooks.Related.evaluateBinary _ _ _ _ _ (h.related r) op x y x y hx hy

theorem evaluate (h : Run.Closed C) (r : Registry) (item : Document) (f : Filter) :
    C (f.evaluate (r.hooks E) item) :=
  (h.related r).evaluate item f

theorem evaluateAll (h : Run.Closed C) (r : Registry) (item : Document) (fs : List Filter) :
    C (Filter.evaluateAll (r.hooks E) item fs) :=
  (h.related r).evaluateAll item fs

theorem followSteps (h : Run.Closed C) (r : Registry) (steps : List Step) (cs : List Cursor) :
    C (PathQuery.followSteps (r.hooks E) steps cs) :=
  (h.related r).followSteps steps cs

end Run.Closed
end PathQuery
