import PathQuery.Proofs.Evaluation.Hooks

/-!
# Hosts with a memory

What a host registers may remember earlier calls, such as an operator that counts how often it is
asked, so that the same question need not get the same answer twice. A registry gives its answers
without a memory. Here filter expressions are evaluated before a host that has one.

* `Host`                  what a host registers, over its memory;
* `Host.hooks`            evaluating in a session, before a host;
* `Host.ofRegistry`       a registry as a host that remembers nothing;
* `evaluate_ofRegistry`   before it, an expression has the value it has for the registry.
-/

namespace PathQuery
variable {E : RegexEngine} {σ α β : Type}

/-- a function of a host, which may look at the memory and change it -/
structure MindfulFunction (σ : Type) where
  arity : Option Nat
  run : List Value → σ → Value × σ

/-- the operators and functions of a host, whose memory is in `σ` -/
structure Host (σ : Type) where
  operator? : String → Option (Value → Value → σ → Bool × σ)
  function? : String → Option (MindfulFunction σ)

abbrev Hosted (E : RegexEngine) (σ : Type) := Stateful (Session E × σ)

namespace Hosted

def lift (m : Run E α) : Hosted E σ α := fun s =>
  match m s.1 with
  | .ok a t => .ok a (t, s.2)
  | .error e t => .error e (t, s.2)

/-- an answer of the host; that it was asked is noted in the session -/
def ask (i : Invocation) (answer : σ → α × σ) : Hosted E σ α := do
  lift (Run.note i)
  modifyGet fun s => ((answer s.2).1, s.1, (answer s.2).2)

@[simp] theorem lift_pure (a : α) : (lift (pure a : Run E α) : Hosted E σ α) = pure a := rfl

@[simp] theorem lift_bind (m : Run E α) (f : α → Run E β) :
    (lift (m >>= f) : Hosted E σ β) = lift m >>= fun a => lift (f a) := by
  funext s
  show lift (EStateM.bind m f) s = EStateM.bind (lift m) (fun a => lift (f a)) s
  simp only [lift, EStateM.bind]
  cases m s.1 <;> rfl

end Hosted

namespace Host

/-! ## what a host answers -/

/-- an operator of the host; an unknown one is false -/
def apply (h : Host σ) (name : String) (v w : Value) : Hosted E σ Bool :=
  match h.operator? name with
  | some run => Hosted.ask (.operator name v w) (run v w)
  | none => pure false

/-- the function that a call with so many arguments reaches -/
def reached? (h : Host σ) (name : String) (count : Nat) : Option (MindfulFunction σ) :=
  (h.function? name).filter fun f => f.arity.all (· == count)

/-- a built-in function, or else one of the host; an unknown one, or one of another arity, is
false -/
def call (h : Host σ) (name : String) (args : List Value) : Hosted E σ Value :=
  Value.normalize <$>
    match Registry.builtin? name args with
    | some v => pure v
    | none =>
      match h.reached? name args.length with
      | some f => Hosted.ask (.function name args) (f.run args)
      | none => pure (.bool false)

def hooks (E : RegexEngine) (h : Host σ) : Hooks (Session E × σ) where
  search v w := Hosted.lift (Filter.search v w)
  operator := h.apply
  call := h.call

/-! ## a registry as a host -/

/-- what is registered, by a host that remembers nothing -/
def ofRegistry (r : Registry) : Host σ where
  operator? name := (r.operator? name).map fun run v w x => (run v w, x)
  function? name := (r.function? name).map fun f => ⟨f.arity, fun args x => (f.run args, x)⟩

theorem reached?_ofRegistry (r : Registry) (name : String) (count : Nat) :
    (ofRegistry r : Host σ).reached? name count =
      (r.reached? name count).map fun f => ⟨f.arity, fun args x => (f.run args, x)⟩ := by
  rw [reached?, Registry.reached?, ofRegistry, Option.filter_map]
  rfl

theorem apply_ofRegistry (r : Registry) (name : String) (v w : Value) :
    ((ofRegistry r).apply name v w : Hosted E σ Bool) =
      Hosted.lift (Filter.applyNoted r name v w) := by
  have hlookup : (ofRegistry r : Host σ).operator? name =
      (r.operator? name).map fun run v w x => (run v w, x) := rfl
  rw [apply, hlookup, Filter.applyNoted, Registry.hasOperator, Registry.apply]
  cases r.operator? name <;> rfl

theorem call_ofRegistry (r : Registry) (name : String) (args : List Value) :
    ((ofRegistry r).call name args : Hosted E σ Value) =
      Hosted.lift (Filter.callNoted r name args) := by
  rw [call, Filter.callNoted, Registry.call, reached?_ofRegistry]
  cases Registry.builtin? name args with
  | some v => rfl
  | none => cases r.reached? name args.length <;> rfl

theorem related_ofRegistry (r : Registry) :
    Hooks.Related (fun (m : Hosted E σ _) (n : Run E _) => m = Hosted.lift n)
      ((ofRegistry r).hooks E) (r.hooks E) where
  pure _ := rfl
  bind hm hf := by rw [Hosted.lift_bind, hm, funext hf]
  security _ := rfl
  search _ _ := rfl
  operator := apply_ofRegistry r
  call := call_ofRegistry r

/-- before a registry that remembers nothing, an expression has the value it has for it -/
theorem evaluate_ofRegistry (r : Registry) (item : Document) (f : Filter) :
    (f.evaluate ((ofRegistry r).hooks E) item : Hosted E σ Value) =
      Hosted.lift (f.evaluate (r.hooks E) item) :=
  (related_ofRegistry r).evaluate item f

end Host
end PathQuery
