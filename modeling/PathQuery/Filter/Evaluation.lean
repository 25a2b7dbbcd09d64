import PathQuery.Error
import PathQuery.Filter.Safety
import PathQuery.RegexCache
import PathQuery.Registry
import PathQuery.Value.Comparison

/-!
# Evaluating filters

A filter expression is evaluated with one element bound as `@`. There is one evaluator, over its
hooks: the regex search, custom operators and function calls. The program's own hooks are the
registry and a regex engine behind a cache. What they leave behind is a session, kept also when the
evaluation ends in an error.

* `Session`, `Run`             what evaluating leaves behind;
* `Hooks`, `Filter.evaluate`   the evaluator over its hooks;
* `Registry.hooks`             the program's own.
-/

namespace PathQuery

inductive Invocation where
  | operator (name : String) (left right : Value)
  | function (name : String) (args : List Value)

structure Session (E : RegexEngine) where
  regexes : RegexCache E
  memory : E.Memory
  /-- the latest first -/
  invocations : List Invocation

def Session.fresh {E : RegexEngine} : Session E := ⟨.empty, E.start, []⟩

/-- what has a result or an error, and a state in either case -/
abbrev Stateful (σ : Type) := EStateM PathError σ

abbrev Run (E : RegexEngine) := Stateful (Session E)

def Stateful.ofExcept {σ α : Type} : Except PathError α → Stateful σ α
  | .ok a => pure a
  | .error e => throw e

namespace Run
variable {E : RegexEngine}

def note (i : Invocation) : Run E Unit := fun s =>
  .ok () { s with invocations := i :: s.invocations }

/-- the regex of a text, or why there is none; it may be cached -/
def compile (text : String) : Run E (Except String E.Regex) := fun s =>
  let (regex?, regexes, memory) := s.regexes.compile text s.memory
  .ok regex? { s with regexes := regexes, memory := memory }

def isMatch (regex : E.Regex) (text : String) : Run E Bool := fun s =>
  let (found, memory) := E.isMatch regex text s.memory
  .ok found { s with memory := memory }

end Run

/-- what an evaluation asks of the world outside the expression -/
structure Hooks (σ : Type) where
  search : (text pattern : Value) → Stateful σ Bool
  operator : (name : String) → (left right : Value) → Stateful σ Bool
  call : (name : String) → (args : List Value) → Stateful σ Value
  /-- the arm for `&&` and `||` where two values are compared -/
  stray : Stateful σ Bool := throw (.evaluation .strayConnective)

namespace Filter
variable {E : RegexEngine} {σ : Type}

/-- follows a property path; a missing key gives `missing` -/
def resolve (d : Document) : List String → Except PathError Value
  | [] => .ok (.ofDocument d)
  | name :: rest => do
    checkName name
    match d.lookup name with
    | some d' => resolve d' rest
    | none => .ok .missing

/-! ## the evaluator -/

/-- `&&` and `||` short-circuit; no other operator does -/
def shortCircuit (v : Value) (right : Stateful σ Value) :
    Operator → Option (Stateful σ Bool)
  | .known .and => some (if v.isTruthy then Value.isTruthy <$> right else pure false)
  | .known .or => some (if v.isTruthy then pure true else Value.isTruthy <$> right)
  | _ => none

def compareValues (H : Hooks σ) (v w : Value) : Operator → Stateful σ Bool
  | .known (.comparison c) => pure (c.holds v w)
  | .known (.textTest t) => pure (t.holds v w)
  | .known .pattern => H.search v w
  | .custom name => H.operator name v w
  | .known .and => H.stray
  | .known .or => H.stray

def evaluateBinary (H : Hooks σ) (op : Operator) (left right : Stateful σ Value) :
    Stateful σ Bool := do
  let v ← left
  match shortCircuit v right op with
  | some answer => answer
  | none => do
    let w ← right
    compareValues H v w op

mutual
def evaluate (H : Hooks σ) (item : Document) : Filter → Stateful σ Value
  | literal l => pure (.ofLiteral l)
  | reference names => .ofExcept (resolve item names)
  | negation operand => do
    let v ← operand.evaluate H item
    pure (.bool !v.isTruthy)
  | binary op left right => do
    let b ← evaluateBinary H op (left.evaluate H item) (right.evaluate H item)
    pure (.bool b)
  | call name args => do
    let vs ← evaluateAll H item args
    H.call name vs

def evaluateAll (H : Hooks σ) (item : Document) : List Filter → Stateful σ (List Value)
  | [] => pure []
  | f :: rest => do
    let v ← f.evaluate H item
    let vs ← evaluateAll H item rest
    pure (v :: vs)
end

def holds (H : Hooks σ) (f : Filter) (item : Document) : Stateful σ Bool :=
  Value.isTruthy <$> f.evaluate H item

/-! ## the program's own hooks -/

/-- `matches`: the guard sees the pattern before it is compiled -/
def search (text pattern : Value) : Run E Bool := do
  match text.text?, pattern.text? with
  | some text, some pattern =>
    Stateful.ofExcept (Pattern.guardPattern pattern)
    match ← Run.compile pattern with
    | .ok regex => Run.isMatch regex text
    | .error error => throw (.evaluation (.invalidPattern error))
  | _, _ => pure false

def applyNoted (r : Registry) (name : String) (v w : Value) : Run E Bool := do
  if r.hasOperator name then Run.note (.operator name v w)
  pure (r.apply name v w)

/-- only calls that reach a registered function are noted, not those of built-ins -/
def callNoted (r : Registry) (name : String) (args : List Value) : Run E Value := do
  if (Registry.builtin? name args).isNone && (r.reached? name args.length).isSome then
    Run.note (.function name args)
  pure (r.call name args).normalize

end Filter

def Registry.hooks (E : RegexEngine) (r : Registry) : Hooks (Session E) where
  search := Filter.search
  operator := Filter.applyNoted r
  call := Filter.callNoted r

end PathQuery
