import PathQuery.Cache.Holdings
import PathQuery.Cache.Results
import PathQuery.Evaluation.Basic

/-!
# Cached outputs

The outputs of paths on documents, under the ids of the documents and the canonical texts of the
paths.
-/

namespace PathQuery

structure OutputCache where
  ids : Identities
  results : ResultCache Output

namespace OutputCache

def new (capacity : Nat) : OutputCache := ⟨.empty, .new capacity⟩

def keyFor (c : OutputCache) (alive : Nat → Bool) (d : Instance) (path : String) :
    CacheKey × OutputCache :=
  let (id, ids) := c.ids.idOf alive d
  (⟨id, path⟩, { c with ids := ids })

def get (c : OutputCache) (key : CacheKey) : Option Output × OutputCache :=
  let (output?, results) := c.results.get key
  (output?, { c with results := results })

def set (c : OutputCache) (key : CacheKey) (output : Output) : OutputCache :=
  { c with results := c.results.set key output }

def clear (c : OutputCache) : OutputCache := { c with results := c.results.clear }

end OutputCache
end PathQuery
