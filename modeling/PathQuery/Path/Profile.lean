import PathQuery.Path.Basic

/-!
# Profiles of paths

Static analysis: what can be told of a path before any document is seen. That is which kinds of
nodes it has, whether its output is a list, and an additive complexity score.
-/

namespace PathQuery

/-- what can be told of a path by itself -/
structure Profile where
  hasWildcard : Bool
  hasDescendants : Bool
  hasFilter : Bool
  hasSlice : Bool
  /-- how many nodes are `..` -/
  descents : Nat
  complexity : UInt32
  deriving DecidableEq

/-- the result is one value or none, never a list -/
def Profile.isDeterministic (p : Profile) : Bool :=
  !(p.hasWildcard || p.hasDescendants || p.hasFilter || p.hasSlice)

def saturatingAdd (a b : UInt32) : UInt32 :=
  if a.toNat + b.toNat < UInt32.size then a + b else 0xffffffff

namespace Step

def cost : Step → UInt32
  | root => 0
  | property _ => 1
  | index _ => 1
  | wildcard => 2
  | slice _ => 2
  | descendants _ => 5
  | filter f => saturatingAdd 3 f.complexityScore

def isWildcard : Step → Bool
  | wildcard => true
  | _ => false

def isSlice : Step → Bool
  | slice _ => true
  | _ => false

end Step

def Path.profile (p : Path) : Profile where
  hasWildcard := p.steps.any Step.isWildcard
  hasDescendants := p.steps.any Step.isDescendants
  hasFilter := p.steps.any (·.filter?.isSome)
  hasSlice := p.steps.any Step.isSlice
  descents := p.steps.countP Step.isDescendants
  complexity := p.steps.foldl (fun sum s => saturatingAdd sum s.cost) 0

end PathQuery
