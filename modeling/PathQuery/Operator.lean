/-!
# Operators of filters

* `Known`      the operators of the language itself: comparisons, string tests, `matches` and the
               two logical operators;
* `Operator`   these, and the custom operators that a host registers by name.
-/

namespace PathQuery

inductive Comparison where
  | equal
  | notEqual
  | less
  | lessEq
  | greater
  | greaterEq
  deriving DecidableEq

inductive TextTest where
  | contains
  | startsWith
  | endsWith
  deriving DecidableEq

inductive Known where
  | comparison (c : Comparison)
  | textTest (t : TextTest)
  | pattern
  | and
  | or
  deriving DecidableEq

inductive Operator where
  | known (k : Known)
  | custom (name : String)
  deriving DecidableEq

def Comparison.symbol : Comparison → String
  | .equal => "=="
  | .notEqual => "!="
  | .less => "<"
  | .lessEq => "<="
  | .greater => ">"
  | .greaterEq => ">="

def TextTest.symbol : TextTest → String
  | .contains => "contains"
  | .startsWith => "startsWith"
  | .endsWith => "endsWith"

def Known.symbol : Known → String
  | .comparison c => c.symbol
  | .textTest t => t.symbol
  | .pattern => "matches"
  | .and => "&&"
  | .or => "||"

/-- the operators of the language that are written as words -/
def Known.isWord : Known → Bool
  | .textTest _ => true
  | .pattern => true
  | _ => false

namespace Operator

def symbol : Operator → String
  | .known k => k.symbol
  | .custom name => name

/-- the binding power: `||` loosest, then `&&`, then all others alike -/
def precedence : Operator → Nat
  | .known .or => 1
  | .known .and => 2
  | _ => 3

def isLogical : Operator → Bool
  | .known .and => true
  | .known .or => true
  | _ => false

end Operator
end PathQuery
