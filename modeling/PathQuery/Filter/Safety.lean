import PathQuery.Filter.Basic
import PathQuery.Pattern.Guard

/-!
# Security of filters

Property names that reach prototype or constructor slots in host runtimes are on a deny list.
Filters that name one of them, or that hold a literal pattern the guard refuses, are refused before
any element is visited.

* `checkName`        refuses a name on the deny list;
* `Filter.scan`      refuses an expression, at the first such name or pattern.
-/

namespace PathQuery

/-- the deny list -/
def deniedNames : List String := ["__proto__", "prototype", "constructor"]

def isDenied (name : String) : Bool := deniedNames.contains name

def checkName (name : String) : Except PathError Unit :=
  if isDenied name then .error (.security (.deniedName name)) else .ok ()

namespace Filter

/-- the string literal that `matches` is given, the operands apart -/
def ownPattern? : Filter → Option String
  | binary (.known .pattern) _ (literal (.text pattern)) => some pattern
  | _ => none

def ownSecurityFault? : Filter → Option SecurityFault
  | reference names => (names.find? isDenied).map .deniedName
  | f => f.ownPattern?.bind fun pattern =>
      (Pattern.guardFault? pattern.toList).map .pattern

/-- the first offender in an expression, as the walk meets them -/
def securityFault? (f : Filter) : Option SecurityFault := f.walk.findSome? ownSecurityFault?

def scan (f : Filter) : Except PathError Unit :=
  match f.securityFault? with
  | some fault => .error (.security fault)
  | none => .ok ()

end Filter
end PathQuery
