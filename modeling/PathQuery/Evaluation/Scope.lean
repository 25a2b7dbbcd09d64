import PathQuery.Document.Basic

/-!
# Scopes

The context of a cursor: the document, and the expansion depth, how often evaluation has gone over
from one value to many. A scope has one a level deeper until the limit is reached.
-/

namespace PathQuery

structure Scope where
  root : Document
  depth : Nat
  maxDepth : Nat

namespace Scope

def ofDocument (d : Document) (maxDepth : Nat) : Scope := ⟨d, 0, maxDepth⟩

/-- the scope one level deeper, `none` at the depth limit -/
def child? (s : Scope) : Option Scope :=
  if s.depth < s.maxDepth then some { s with depth := s.depth + 1 } else none

end Scope

/-- a value that has been reached, with the scope it was reached in -/
structure Cursor where
  value : Document
  scope : Scope

end PathQuery
