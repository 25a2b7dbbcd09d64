import PathQuery.Value.Basic

/-!
# Built-in functions

* `length(x)`   the characters of a text, the elements of a list, the entries of a map;
* `exists(x)`   whether there is a value;
* `type(x)`     the kind of a value, in words.

Each takes one argument.
-/

namespace PathQuery

inductive Builtin where
  | length
  | exists
  | type
  deriving DecidableEq

namespace Builtin

def ofName? (name : String) : Option Builtin :=
  if name = "length" then some length
  else if name = "exists" then some .exists
  else if name = "type" then some type
  else none

def arity (_ : Builtin) : Nat := 1

/-- how long a value is; numbers and the like have no length -/
def lengthOf : Value → Value
  | .text s => .integer s.length
  | .node (.map entries) => .integer entries.length
  | .node (.list items) => .integer items.length
  | _ => .null

def run (b : Builtin) (v : Value) : Value :=
  match b with
  | length => lengthOf v
  | .exists => .bool !v.isMissing
  | type => .text v.typeName

end Builtin
end PathQuery
