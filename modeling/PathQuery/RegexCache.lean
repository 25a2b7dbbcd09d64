import PathQuery.RegexEngine

/-!
# The regex cache

Compiled regexes are cached as long as there is room; a text that does not compile leaves nothing.

* `RegexCache`           the regexes cached under their texts;
* `RegexCache.compile`   a cached regex, or the engine's.
-/

namespace PathQuery

structure RegexCache (E : RegexEngine) where
  entries : List (String × E.Regex)

namespace RegexCache
variable {E : RegexEngine}

def capacity : Nat := 32

def empty : RegexCache E := ⟨[]⟩

def size (c : RegexCache E) : Nat := c.entries.length

def find? (c : RegexCache E) (text : String) : Option E.Regex := c.entries.lookup text

/-- caches a regex; once the cache is full, new ones are not retained -/
def keep (c : RegexCache E) (text : String) (regex : E.Regex) : RegexCache E :=
  if c.size < capacity then ⟨(text, regex) :: c.entries⟩ else c

/-- the regex of a text; the engine is asked only if it is not kept -/
def compile (c : RegexCache E) (text : String) (x : E.Memory) :
    Except String E.Regex × RegexCache E × E.Memory :=
  match c.find? text with
  | some regex => (.ok regex, c, x)
  | none =>
    match E.compile text x with
    | (.error error, x) => (.error error, c, x)
    | (.ok regex, x) => (.ok regex, c.keep text regex, x)

end RegexCache
end PathQuery
