/-!
# Cache keys

A cached result belongs to one document and one path. Documents are told apart by their ids, paths
by their canonical text.
-/

namespace PathQuery

structure DocumentId where
  number : Nat
  deriving DecidableEq, Hashable

def DocumentId.text (i : DocumentId) : String := s!"doc#{i.number}"

structure CacheKey where
  document : DocumentId
  path : String
  deriving DecidableEq, Hashable

def CacheKey.text (k : CacheKey) : String := s!"{k.document.text}:{k.path}"

end PathQuery
