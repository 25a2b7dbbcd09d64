import PathQuery.Evaluation.Basic
import Mathlib.Tactic.SplitIfs

/-!
# Evaluations over different hooks

An evaluation asks its hooks, puts the answers together, and throws security errors. So evaluations
of one filter expression over different hooks are related, in whatever way the answers of the hooks
are, as long as `pure`, `bind` and these errors keep the relation.

* `Stateful.bind_eq_ok`, `bind_eq_error`, `bind_congr`   one computation after the other;
* `Hooks.Related`          hooks with related answers;
* `Related.evaluate`       filter expressions over them;
* `Related.followSteps`    rows of steps;
* `Filter.evaluate_stray`  what stands in the arm for stray connectives makes no difference.
-/

namespace PathQuery

/-! ## computations one after the other -/

namespace Stateful
variable {σ α β : Type}

/-- a result with the state in which it was reached -/
def ending (r : Except PathError α) (s : σ) : EStateM.Result PathError σ α :=
  match r with
  | .ok a => .ok a s
  | .error e => .error e s

theorem eq_ok_of_ending {r : Except PathError α} {a : α} {s t : σ}
    (h : ending r s = .ok a t) : r = .ok a := by
  cases r with
  | ok b =>
    cases h
    rfl
  | error e => cases h

theorem bind_of_ok {m : Stateful σ α} {f : α → Stateful σ β} {s t : σ} {a : α}
    (h : m s = .ok a t) : (m >>= f) s = f a t := by
  show EStateM.bind m f s = _
  rw [EStateM.bind, h]

theorem bind_eq_ok {m : Stateful σ α} {f : α → Stateful σ β} {s t : σ} {b : β} :
    (m >>= f) s = .ok b t ↔ ∃ a u, m s = .ok a u ∧ f a u = .ok b t := by
  show EStateM.bind m f s = _ ↔ _
  rw [EStateM.bind]
  cases m s with
  | ok a u => exact ⟨fun h => ⟨a, u, rfl, h⟩, fun ⟨_, _, hm, h⟩ => by cases hm; exact h⟩
  | error e u => exact ⟨nofun, fun ⟨_, _, hm, _⟩ => nomatch hm⟩

theorem bind_eq_error {m : Stateful σ α} {f : α → Stateful σ β} {s t : σ} {e : PathError} :
    (m >>= f) s = .error e t ↔
      m s = .error e t ∨ ∃ a u, m s = .ok a u ∧ f a u = .error e t := by
  show EStateM.bind m f s = _ ↔ _
  rw [EStateM.bind]
  cases m s with
  | ok a u =>
    refine ⟨fun h => .inr ⟨a, u, rfl, h⟩, ?_⟩
    rintro (hm | ⟨_, _, hm, h⟩)
    · cases hm
    · cases hm
      exact h
  | error e u =>
    refine ⟨fun h => .inl (by cases h; rfl), ?_⟩
    rintro (hm | ⟨_, _, hm, _⟩)
    · cases hm
      rfl
    · cases hm

theorem bind_congr {m : Stateful σ α} {f g : α → Stateful σ β}
    (h : ∀ s a t, m s = .ok a t → f a = g a) : m >>= f = m >>= g := by
  funext s
  show EStateM.bind m f s = EStateM.bind m g s
  rw [EStateM.bind, EStateM.bind]
  cases hm : m s with
  | ok a t => exact congrFun (h s a t hm) t
  | error e t => rfl

theorem map_eq_ok {m : Stateful σ α} {f : α → β} {s t : σ} {b : β} :
    (f <$> m) s = .ok b t ↔ ∃ a, m s = .ok a t ∧ f a = b := by
  rw [map_eq_pure_bind, bind_eq_ok]
  constructor
  · rintro ⟨a, u, hm, h⟩
    cases h
    exact ⟨a, hm, rfl⟩
  · rintro ⟨a, hm, rfl⟩
    exact ⟨a, t, hm, rfl⟩

end Stateful

/-! ## what is refused before it is run -/

/-- there is no error, or a security error -/
def OnlySecurity {α : Type} (x : Except PathError α) : Prop :=
  (∃ a, x = .ok a) ∨ ∃ fault, x = .error (.security fault)

theorem onlySecurity_guardPattern (text : String) : OnlySecurity (Pattern.guardPattern text) := by
  unfold Pattern.guardPattern
  split
  · exact .inr ⟨_, rfl⟩
  · exact .inl ⟨_, rfl⟩

theorem onlySecurity_resolve (d : Document) (names : List String) :
    OnlySecurity (Filter.resolve d names) := by
  induction names generalizing d with
  | nil => exact .inl ⟨_, rfl⟩
  | cons name names ih =>
    rw [Filter.resolve, checkName]
    split_ifs
    · exact .inr ⟨_, rfl⟩
    · cases d.lookup name with
      | none => exact .inl ⟨_, rfl⟩
      | some d' => exact ih d'

/-! ## operators -/

namespace Filter
variable {σ : Type} (H : Hooks σ) (x y : Stateful σ Value)

theorem evaluateBinary_and : evaluateBinary H (.known .and) x y =
    x >>= fun v => if v.isTruthy then Value.isTruthy <$> y else pure false := rfl

theorem evaluateBinary_or : evaluateBinary H (.known .or) x y =
    x >>= fun v => if v.isTruthy then pure true else Value.isTruthy <$> y := rfl

/-- operators that are no connectives have both operands evaluated -/
theorem evaluateBinary_of_strict {op : Operator} (hand : op ≠ .known .and)
    (hor : op ≠ .known .or) :
    evaluateBinary H op x y = x >>= fun v => y >>= fun w => compareValues H v w op := by
  unfold evaluateBinary
  refine bind_congr fun v => ?_
  cases op with
  | custom name => rfl
  | known op =>
    cases op with
    | and => exact absurd rfl hand
    | or => exact absurd rfl hor
    | comparison c => rfl
    | textTest t => rfl
    | pattern => rfl

end Filter

/-! ## related hooks -/

section
variable {σ τ : Type}

/-- evaluations over `H` and over `K` ask for related answers, and put them together alike -/
structure Hooks.Related (R : ∀ {α : Type}, Stateful σ α → Stateful τ α → Prop) (H : Hooks σ)
    (K : Hooks τ) : Prop where
  pure : ∀ {α : Type} (a : α), R (pure a) (pure a)
  bind : ∀ {α β : Type} {m : Stateful σ α} {n : Stateful τ α} {f : α → Stateful σ β}
    {g : α → Stateful τ β}, R m n → (∀ a, R (f a) (g a)) → R (m >>= f) (n >>= g)
  security : ∀ {α : Type} (fault : SecurityFault),
    R (throw (.security fault) : Stateful σ α) (throw (.security fault))
  search : ∀ v w, R (H.search v w) (K.search v w)
  operator : ∀ name v w, R (H.operator name v w) (K.operator name v w)
  call : ∀ name args, R (H.call name args) (K.call name args)

namespace Hooks.Related
variable {R : ∀ {α : Type}, Stateful σ α → Stateful τ α → Prop} {H : Hooks σ} {K : Hooks τ}
  {α β : Type}

theorem map (h : Related R H K) {m : Stateful σ α} {n : Stateful τ α} (hm : R m n) (f : α → β) :
    R (f <$> m) (f <$> n) := by
  rw [map_eq_pure_bind, map_eq_pure_bind]
  exact h.bind hm fun a => h.pure (f a)

theorem ofExcept (h : Related R H K) {r : Except PathError α} (hr : OnlySecurity r) :
    R (.ofExcept r) (.ofExcept r) := by
  obtain ⟨a, rfl⟩ | ⟨fault, rfl⟩ := hr
  · exact h.pure a
  · exact h.security fault

/-! ## filter expressions -/

/-- no operator comes to the arm for stray connectives, of which nothing is known -/
theorem evaluateBinary (h : Related R H K) (op : Operator) {x y : Stateful σ Value}
    {x' y' : Stateful τ Value} (hx : R x x') (hy : R y y') :
    R (Filter.evaluateBinary H op x y) (Filter.evaluateBinary K op x' y') := by
  have strict (hand : op ≠ .known .and) (hor : op ≠ .known .or)
      (hop : ∀ v w, R (Filter.compareValues H v w op) (Filter.compareValues K v w op)) :
      R (Filter.evaluateBinary H op x y) (Filter.evaluateBinary K op x' y') := by
    rw [Filter.evaluateBinary_of_strict H x y hand hor,
      Filter.evaluateBinary_of_strict K x' y' hand hor]
    exact h.bind hx fun v => h.bind hy fun w => hop v w
  cases op with
  | custom name => exact strict nofun nofun (h.operator name)
  | known op =>
    cases op with
    | and =>
      rw [Filter.evaluateBinary_and, Filter.evaluateBinary_and]
      refine h.bind hx fun v => ?_
      split_ifs
      · exact h.map hy _
      · exact h.pure _
    | or =>
      rw [Filter.evaluateBinary_or, Filter.evaluateBinary_or]
      refine h.bind hx fun v => ?_
      split_ifs
      · exact h.pure _
      · exact h.map hy _
    | comparison c => exact strict nofun nofun fun v w => h.pure _
    | textTest t => exact strict nofun nofun fun v w => h.pure _
    | pattern => exact strict nofun nofun h.search

mutual
/-- **Over related hooks filter expressions are evaluated in related ways.** -/
theorem evaluate (h : Related R H K) (item : Document) (f : Filter) :
    R (f.evaluate H item) (f.evaluate K item) := by
  cases f with
  | literal l =>
    rw [Filter.evaluate, Filter.evaluate]
    exact h.pure _
  | reference names =>
    rw [Filter.evaluate, Filter.evaluate]
    exact h.ofExcept (onlySecurity_resolve item names)
  | negation operand =>
    rw [Filter.evaluate, Filter.evaluate]
    exact h.bind (evaluate h item operand) fun _ => h.pure _
  | binary op left right =>
    rw [Filter.evaluate, Filter.evaluate]
    exact h.bind (h.evaluateBinary op (evaluate h item left) (evaluate h item right)) fun _ =>
      h.pure _
  | call name args =>
    rw [Filter.evaluate, Filter.evaluate]
    exact h.bind (evaluateAll h item args) fun vs => h.call name vs

theorem evaluateAll (h : Related R H K) (item : Document) (fs : List Filter) :
    R (Filter.evaluateAll H item fs) (Filter.evaluateAll K item fs) := by
  cases fs with
  | nil =>
    rw [Filter.evaluateAll, Filter.evaluateAll]
    exact h.pure _
  | cons f rest =>
    rw [Filter.evaluateAll, Filter.evaluateAll]
    exact h.bind (evaluate h item f) fun _ => h.bind (evaluateAll h item rest) fun _ => h.pure _
end

theorem holds (h : Related R H K) (f : Filter) (item : Document) :
    R (f.holds H item) (f.holds K item) :=
  h.map (h.evaluate item f) _

/-! ## steps -/

theorem kept (h : Related R H K) (f : Filter) (items : List Document) :
    R (Step.kept H f items) (Step.kept K f items) := by
  induction items with
  | nil => exact h.pure _
  | cons d items ih => exact h.bind (h.holds f d) fun _ => h.bind ih fun _ => h.pure _

theorem follow (h : Related R H K) (c : Cursor) (s : Step) : R (s.follow H c) (s.follow K c) := by
  cases s with
  | root => exact h.pure _
  | property name => exact h.pure _
  | descendants name => exact h.pure _
  | index i =>
    simp only [Step.follow]
    split <;> exact h.pure _
  | wildcard =>
    simp only [Step.follow]
    split <;> exact h.pure _
  | slice s =>
    simp only [Step.follow]
    split <;> exact h.pure _
  | filter f =>
    simp only [Step.follow]
    split
    · exact h.map (h.kept f _) _
    · exact h.pure _

theorem followAll (h : Related R H K) (s : Step) (cs : List Cursor) :
    R (s.followAll H cs) (s.followAll K cs) := by
  induction cs with
  | nil => exact h.pure _
  | cons c cs ih => exact h.bind (h.follow c s) fun _ => h.bind ih fun _ => h.pure _

theorem followSteps (h : Related R H K) (steps : List Step) (cs : List Cursor) :
    R (PathQuery.followSteps H steps cs) (PathQuery.followSteps K steps cs) := by
  induction steps generalizing cs with
  | nil => exact h.pure _
  | cons s steps ih => exact h.bind (h.followAll s cs) fun next => ih next

theorem path (h : Related R H K) {p : Path} {o : EvaluateOptions}
    (hallow : R (.ofExcept (p.allow o)) (.ofExcept (p.allow o))) (d : Document) :
    R (p.evaluate H d o) (p.evaluate K d o) :=
  h.bind hallow fun _ => h.bind (h.followSteps p.steps _) fun _ => h.pure _

end Hooks.Related
end

/-- **No filter expression gets to the arm for stray connectives**, whatever stands in it. -/
theorem Filter.evaluate_stray {σ : Type} (H : Hooks σ) (stray : Stateful σ Bool) (item : Document)
    (f : Filter) : f.evaluate { H with stray := stray } item = f.evaluate H item := by
  have h : Hooks.Related Eq { H with stray := stray } H := {
    pure := fun _ => rfl
    bind := fun hm hf => by rw [hm, funext hf]
    security := fun _ => rfl
    search := fun _ _ => rfl
    operator := fun _ _ _ => rfl
    call := fun _ _ => rfl }
  exact h.evaluate item f

end PathQuery
