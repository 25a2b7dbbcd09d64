/-!
# Regular expression engines

`matches` leaves regexes to an engine that this library does not contain. It compiles the text of
one, or says in words why it cannot, and tells whether a compiled one matches a text. Nothing is
assumed of its answers, which may even change with what it was asked before.

* `RegexEngine`                 an engine and its memory;
* `RegexEngine.Deterministic`   the memory makes no difference to the answers;
* `RegexEngine.compiled`        what a text compiles to then.
-/

namespace PathQuery

structure RegexEngine where
  Regex : Type
  /-- all that an answer can depend on besides the question -/
  Memory : Type
  start : Memory
  compile : String → Memory → Except String Regex × Memory
  isMatch : Regex → String → Memory → Bool × Memory

namespace RegexEngine

/-- compiling is a function of the text, and matching of the regex and the text -/
class Deterministic (E : RegexEngine) : Prop where
  compile_eq : ∀ text x, (E.compile text x).1 = (E.compile text E.start).1
  isMatch_eq : ∀ regex text x, (E.isMatch regex text x).1 = (E.isMatch regex text E.start).1

def compiled (E : RegexEngine) (text : String) : Except String E.Regex :=
  (E.compile text E.start).1

end RegexEngine
end PathQuery
