import PathQuery.Operator

/-!
# Filter expressions

A filter decides which elements of a list are kept; `@` in it is the element.

* `Literal`, `Filter`            the expressions;
* `Filter.children`              the parts of an expression, from left to right;
* `Filter.walk`                  all parts at any depth, every expression before its own parts;
* `Filter.depth`                 the height of an expression;
* `Filter.same`                  equality where numbers are equal as numbers;
* `Filter.complexityScore`       what an expression adds to the complexity of a path.

`walk` and `depth` keep the expressions still to be seen on a stack, so that an expression of any
height is seen through without nested calls.
-/

namespace PathQuery

inductive Literal where
  | text (value : String)
  | integer (value : Int)
  | float (value : Float)
  | bool (value : Bool)
  | null
  deriving DecidableEq

/-- filter expressions -/
inductive Filter where
  | literal (value : Literal)
  /-- a property path from `@` on -/
  | reference (names : List String)
  | binary (operator : Operator) (left right : Filter)
  | negation (operand : Filter)
  | call (name : String) (args : List Filter)

namespace Filter

/-! ## parts -/

/-- the operands or arguments of an expression, from left to right -/
def children : Filter → List Filter
  | literal _ => []
  | reference _ => []
  | binary _ left right => [left, right]
  | negation operand => [operand]
  | call _ args => args

mutual
def size : Filter → Nat
  | literal _ => 1
  | reference _ => 1
  | binary _ left right => 1 + (left.size + right.size)
  | negation operand => 1 + operand.size
  | call _ args => 1 + sizes args

def sizes : List Filter → Nat
  | [] => 0
  | f :: rest => f.size + sizes rest
end

@[simp] theorem sizes_nil : sizes [] = 0 := rfl

@[simp] theorem sizes_cons (f : Filter) (rest : List Filter) :
    sizes (f :: rest) = f.size + sizes rest := rfl

@[simp] theorem sizes_append (fs gs : List Filter) : sizes (fs ++ gs) = sizes fs + sizes gs := by
  induction fs with
  | nil => simp
  | cons f fs ih => simp [ih, Nat.add_assoc]

theorem size_eq (f : Filter) : f.size = 1 + sizes f.children := by
  cases f <;> simp [size, children]

/-- the expressions still to be seen, each followed by its own parts -/
def visit : List Filter → List Filter
  | [] => []
  | f :: pending => f :: visit (f.children ++ pending)
termination_by pending => sizes pending
decreasing_by simp only [sizes_append, sizes_cons, size_eq f]; omega

/-- all expressions in an expression, each before its own parts and these from left to right -/
def walk (f : Filter) : List Filter := visit [f]

/-- the greatest level among `found` and those of the expressions still to be seen -/
def deepest (found : Nat) : List (Filter × Nat) → Nat
  | [] => found
  | (f, level) :: pending =>
    deepest (max found level) (f.children.map (fun part => (part, level + 1)) ++ pending)
termination_by pending => sizes (pending.map Prod.fst)
decreasing_by
  simp only [List.map_append, List.map_map, List.map_cons, sizes_append, sizes_cons, size_eq f,
    Function.comp_def, List.map_id']
  omega

/-- the height of an expression tree; a literal or a reference alone is 1 -/
def depth (f : Filter) : Nat := deepest 0 [(f, 1)]

end Filter

/-! ## equality -/

def Literal.same : Literal → Literal → Bool
  | float x, float y => x == y
  | a, b => a == b

namespace Filter

mutual
def same : Filter → Filter → Bool
  | literal a, literal b => a.same b
  | reference names, reference names' => names == names'
  | binary op left right, binary op' left' right' =>
    op == op' && left.same left' && right.same right'
  | negation operand, negation operand' => operand.same operand'
  | call name args, call name' args' => name == name' && sameAll args args'
  | _, _ => false

def sameAll : List Filter → List Filter → Bool
  | [], [] => true
  | f :: fs, g :: gs => f.same g && sameAll fs gs
  | _, _ => false
end

/-! ## complexity -/

/-- a length as a score, saturated at the greatest one -/
def lengthScore (n : Nat) : UInt32 :=
  max (if n < UInt32.size then .ofNat n else 0xffffffff) 1

def operatorScore : Operator → UInt32
  | .known .and => 3
  | .known .or => 3
  | .known .pattern => 5
  | _ => 2

-- sums of scores go round at the end of 32 bits
mutual
def complexityScore : Filter → UInt32
  | literal _ => 1
  | reference names => lengthScore names.length
  | binary op left right => operatorScore op + left.complexityScore + right.complexityScore
  | negation operand => 1 + operand.complexityScore
  | call _ args => 5 + complexityScores args

def complexityScores : List Filter → UInt32
  | [] => 0
  | f :: rest => f.complexityScore + complexityScores rest
end

end Filter
end PathQuery
