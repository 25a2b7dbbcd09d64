import PathQuery.Path.Basic
import PathQuery.Filter.Printer

/-!
# Canonical text of paths

Every path has one canonical text. It begins with `$`; names stand bare where they can, all else
is in brackets. Two spellings of one path have the same canonical text.
-/

namespace PathQuery

def Slice.chars (s : Slice) : List Char :=
  '[' :: (s.start.map Decimal.intChars).getD [] ++ ':' :: (s.stop.map Decimal.intChars).getD []
    ++ (s.step.map (':' :: Decimal.intChars ·)).getD [] ++ [']']

/-- a name after the two dots that search for it -/
def soughtChars (name : String) : List Char :=
  if isPlainName name then name.toList else quoted name

def Step.chars : Step → List Char
  | .root => []
  | .property name => memberChars name
  | .index i => '[' :: Decimal.intChars i ++ [']']
  | .wildcard => ['[', '*', ']']
  | .descendants none => ['.', '.', '*']
  | .descendants (some name) => '.' :: '.' :: soughtChars name
  | .slice s => s.chars
  | .filter f => '[' :: '?' :: '(' :: f.chars ++ [')', ']']

/-- the canonical text of a path, which the cache knows it by -/
def Path.chars (p : Path) : List Char := '$' :: p.steps.flatMap Step.chars

def Path.text (p : Path) : String := String.ofList p.chars

end PathQuery
