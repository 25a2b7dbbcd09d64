import PathQuery.Filter.Builtin

/-!
# Registered operators and functions

A host can register custom operators, written as words between two operands, and functions, each
with an optional fixed arity. Of those with one name the latest counts.

* `Registry`          what is registered;
* `Registry.apply`    a custom operator on two values; an unknown one is false;
* `Registry.call`     a function on values; built-ins go before.
-/

namespace PathQuery

/-- a registered function; `arity` is its number of arguments, if that is fixed -/
structure HostFunction where
  arity : Option Nat
  run : List Value → Value

structure Registry where
  operators : List (String × (Value → Value → Bool))
  functions : List (String × HostFunction)

namespace Registry

def empty : Registry := ⟨[], []⟩

def registerOperator (r : Registry) (name : String) (run : Value → Value → Bool) : Registry :=
  { r with operators := (name, run) :: r.operators }

def registerFunction (r : Registry) (name : String) (f : HostFunction) : Registry :=
  { r with functions := (name, f) :: r.functions }

/-! ## operators -/

def operator? (r : Registry) (name : String) : Option (Value → Value → Bool) :=
  r.operators.lookup name

def hasOperator (r : Registry) (name : String) : Bool := (r.operator? name).isSome

def apply (r : Registry) (name : String) (v w : Value) : Bool :=
  match r.operator? name with
  | some run => run v w
  | none => false

/-! ## functions -/

def function? (r : Registry) (name : String) : Option HostFunction := r.functions.lookup name

def hasFunction (r : Registry) (name : String) : Bool := (r.function? name).isSome

/-- a built-in function, on the arguments that it takes -/
def builtin? (name : String) : List Value → Option Value
  | [v] => (Builtin.ofName? name).map (·.run v)
  | _ => none

/-- the registered function that a call with so many arguments reaches -/
def reached? (r : Registry) (name : String) (count : Nat) : Option HostFunction :=
  (r.function? name).filter fun f => f.arity.all (· == count)

/-- a built-in or a registered function; unknown names and wrong arities give false -/
def call (r : Registry) (name : String) (args : List Value) : Value :=
  match builtin? name args with
  | some v => v
  | none =>
    match r.reached? name args.length with
    | some f => f.run args
    | none => .bool false

end Registry
end PathQuery
