import PathQuery.Evaluation.Scope

/-!
# Recursive descent

All values below a value, or those that stand under one key: every value before those below it,
the elements of a list and the entries of a map in document order. Each level down is charged to the
scope, and nothing is reached below its limit.
-/

namespace PathQuery

def isSought (sought : Option String) (key : String) : Bool := sought.all (· == key)

mutual
/-- recursive descent: what stands below a value; the elements of lists stand under no key -/
def descend (sought : Option String) (scope : Scope) : Document → List Cursor
  | .list items =>
    match scope.child? with
    | some inner => descendItems sought inner items
    | none => []
  | .map entries =>
    match scope.child? with
    | some inner => descendEntries sought inner entries
    | none => []
  | _ => []

def descendItems (sought : Option String) (scope : Scope) : List Document → List Cursor
  | [] => []
  | d :: rest =>
    (if sought.isNone then [⟨d, scope⟩] else [])
      ++ descend sought scope d ++ descendItems sought scope rest

/-- the values of a map and all below them; `scope` is that of the values -/
def descendEntries (sought : Option String) (scope : Scope) :
    List (String × Document) → List Cursor
  | [] => []
  | (key, d) :: rest =>
    (if isSought sought key then [⟨d, scope⟩] else [])
      ++ descend sought scope d ++ descendEntries sought scope rest
end

end PathQuery
