import PathQuery.Evaluation.Descent
import PathQuery.Filter.Evaluation
import PathQuery.Path.Places
import PathQuery.Path.Profile
import PathQuery.Path.Validation

/-!
# Evaluating paths

Each node of a path maps the list of cursors to the next one. What is not there is left out, without
an error.

* `EvaluateOptions`     the depth limit and the ceilings;
* `Output`              one value, nothing, or a list;
* `Step.follow`         one node, applied to one cursor;
* `Path.follow`         all nodes, from the document on;
* `Path.evaluate`       the same behind the ceilings and the security scan.
-/

namespace PathQuery

structure EvaluateOptions where
  /-- the greatest expansion depth; traversal silently stops there -/
  maxDepth : Nat := 100
  /-- the ceiling on `..` nodes -/
  maxDescents : Nat := 10
  /-- the ceiling on the height of filters -/
  maxFilterDepth : Nat := 64
  deriving DecidableEq

/-- one value, nothing, or a list; which of them it is depends on the path alone -/
inductive Output where
  | absent
  | single (value : Document)
  | many (values : List Document)

namespace Output

def isAbsent : Output → Bool
  | absent => true
  | _ => false

def single? : Output → Option Document
  | single d => some d
  | _ => none

def many? : Output → Option (List Document)
  | many ds => some ds
  | _ => none

def toList : Output → List Document
  | absent => []
  | single d => [d]
  | many ds => ds

/-- the cursors that are left at the end, as the output of a path -/
def ofList (isList : Bool) (values : List Document) : Output :=
  if isList then many values
  else
    match values with
    | d :: _ => single d
    | [] => absent

end Output

variable {σ : Type}

namespace Step

def kept (H : Hooks σ) (f : Filter) : List Document → Stateful σ (List Document)
  | [] => pure []
  | d :: rest => do
    let b ← f.holds H d
    let ds ← kept H f rest
    pure (if b then d :: ds else ds)

/-- what a step makes of a cursor -/
def follow (H : Hooks σ) (c : Cursor) : Step → Stateful σ (List Cursor)
  | root => pure [⟨c.scope.root, c.scope⟩]
  | property name => pure ((c.value.lookup name).toList.map (⟨·, c.scope⟩))
  | index i =>
    match c.value with
    | .list items =>
      pure (((placeOf? items.length i).bind (items[·]?)).toList.map (⟨·, c.scope⟩))
    | _ => pure []
  | wildcard =>
    match c.scope.child? with
    | some inner => pure (c.value.children.map (⟨·, inner⟩))
    | none => pure []
  | descendants name => pure (descend name c.scope c.value)
  | slice s =>
    match c.value with
    | .list items => pure ((s.places items.length).filterMap (items[·]?) |>.map (⟨·, c.scope⟩))
    | _ => pure []
  | filter f =>
    match c.value, c.scope.child? with
    | .list items, some inner => (·.map (⟨·, inner⟩)) <$> kept H f items
    | _, _ => pure []

def followAll (H : Hooks σ) (s : Step) : List Cursor → Stateful σ (List Cursor)
  | [] => pure []
  | c :: rest => do
    let here ← s.follow H c
    let there ← followAll H s rest
    pure (here ++ there)

end Step

def followSteps (H : Hooks σ) : List Step → List Cursor → Stateful σ (List Cursor)
  | [], cs => pure cs
  | s :: rest, cs => do
    let next ← s.followAll H cs
    followSteps H rest next

namespace Path

/-- the ceilings, and the security scan of all filters -/
def allow (p : Path) (options : EvaluateOptions) : Except PathError Unit := do
  p.checkDescents options.maxDescents
  p.checkFilterDepth options.maxFilterDepth
  p.filters.forM Filter.scan

def follow (H : Hooks σ) (d : Document) (p : Path) (maxDepth : Nat) :
    Stateful σ (List Cursor) :=
  followSteps H p.steps [⟨d, .ofDocument d maxDepth⟩]

/-- evaluates a path on a document; nothing is visited before the path is allowed -/
def evaluate (H : Hooks σ) (d : Document) (p : Path) (options : EvaluateOptions) :
    Stateful σ Output := do
  Stateful.ofExcept (p.allow options)
  let cursors ← p.follow H d options.maxDepth
  pure (.ofList (!p.profile.isDeterministic) (cursors.map Cursor.value))

end Path
end PathQuery
