import PathQuery.Pattern.Match
import PathQuery.Pattern.Parser
import PathQuery.RegexEngine

/-!
# An engine

The patterns of this library as a regex engine, for a program that brings none of its own. It has
no tables of Unicode properties, so it refuses regexes that name one, and its errors do not say
where a regex goes wrong.
-/

namespace PathQuery

def Pattern.engine : RegexEngine where
  Regex := Pattern
  Memory := Unit
  start := ()
  compile text x :=
    (match compile? text with
      | some p => .ok p
      | none => .error "not a regular expression", x)
  isMatch p text x := (p.occurs text.toList, x)

instance : Pattern.engine.Deterministic := ⟨fun _ _ => rfl, fun _ _ _ => rfl⟩

end PathQuery
