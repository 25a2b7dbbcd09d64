import PathQuery.Filter.Basic

/-!
# Paths

A path is a sequence of nodes. Each node leads from every value reached so far to the values that
are reached next.

* `Slice`, `Step`       the nodes;
* `Segment`, `Path`     nodes with their source positions, and the sequences of them;
* `Path.normalized`     the nodes without a leading `$`, which changes nothing;
* `Step.isMultiplying`  the nodes that make a list of the output.
-/

namespace PathQuery

/-- a part of a list, as `start:stop:step`; what is left out depends on the sign of the step -/
structure Slice where
  start : Option Int
  stop : Option Int
  step : Option Int
  deriving DecidableEq

/-- the nodes of a path -/
inductive Step where
  /-- back to the document -/
  | root
  | property (name : String)
  | index (i : Int)
  | wildcard
  /-- everything below, or what stands under one name anywhere below -/
  | descendants (name : Option String)
  | slice (s : Slice)
  | filter (f : Filter)

structure Segment where
  step : Step
  position : Nat

structure Path where
  segments : List Segment

namespace Step

/-- the nodes that make a list of the output -/
def isMultiplying : Step → Bool
  | wildcard => true
  | descendants _ => true
  | slice _ => true
  | filter _ => true
  | _ => false

def isRoot : Step → Bool
  | root => true
  | _ => false

def isDescendants : Step → Bool
  | descendants _ => true
  | _ => false

def filter? : Step → Option Filter
  | filter f => some f
  | _ => none

/-- equality where numbers in filters are equal as numbers -/
def same : Step → Step → Bool
  | root, root => true
  | property a, property b => a == b
  | index i, index j => i == j
  | wildcard, wildcard => true
  | descendants a, descendants b => a == b
  | slice s, slice t => s == t
  | filter f, filter g => f.same g
  | _, _ => false

end Step

def sameSteps : List Step → List Step → Bool
  | [], [] => true
  | s :: ss, t :: ts => s.same t && sameSteps ss ts
  | _, _ => false

namespace Path

/-- a path without positions of its own -/
def ofSteps (steps : List Step) : Path := ⟨steps.map (⟨·, 0⟩)⟩

def steps (p : Path) : List Step := p.segments.map Segment.step

def length (p : Path) : Nat := p.segments.length

def isEmpty (p : Path) : Bool := p.segments.isEmpty

/-- the nodes without a leading `$` -/
def normalized (p : Path) : List Step :=
  match p.steps with
  | .root :: rest => rest
  | steps => steps

def filters (p : Path) : List Filter := p.steps.filterMap Step.filter?

end Path
end PathQuery
