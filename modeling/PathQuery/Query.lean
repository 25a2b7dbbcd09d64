import PathQuery.Config
import PathQuery.Path.Printer

/-!
# Queries

A path that is compiled once and evaluated on many documents, and shorthands for one question.

* `QueryBuilder`   the options of a query whose path is not yet fixed;
* `Query`          a query with its path;
* `compile`, `canonicalize`, `query`   the shorthands, with the default options.
-/

namespace PathQuery

structure QueryBuilder where
  parse : ParseOptions := {}
  evaluate : EvaluateOptions := {}
  registry : Registry := .empty

structure Query where
  path : Path
  options : EvaluateOptions
  registry : Registry

namespace QueryBuilder

def ofConfig (c : Config) : QueryBuilder := ⟨c.parse, c.evaluate, .empty⟩

def maxDepth (b : QueryBuilder) (n : Nat) : QueryBuilder :=
  { b with evaluate := { b.evaluate with maxDepth := n } }

/-- each ceiling holds for parsing and for evaluating -/
def maxDescents (b : QueryBuilder) (n : Nat) : QueryBuilder :=
  { b with
    parse := { b.parse with maxDescents := n }
    evaluate := { b.evaluate with maxDescents := n } }

def maxFilterDepth (b : QueryBuilder) (n : Nat) : QueryBuilder :=
  { b with
    parse := { b.parse with maxFilterDepth := n }
    evaluate := { b.evaluate with maxFilterDepth := n } }

def registerOperator (b : QueryBuilder) (name : String) (run : Value → Value → Bool) :
    QueryBuilder :=
  { b with registry := b.registry.registerOperator name run }

def registerFunction (b : QueryBuilder) (name : String) (f : HostFunction) : QueryBuilder :=
  { b with registry := b.registry.registerFunction name f }

/-- the query of the path that a text spells -/
def path (b : QueryBuilder) (text : String) : Except PathError Query := do
  let p ← Path.compile b.parse text
  pure ⟨p, b.evaluate, b.registry⟩

end QueryBuilder

namespace Query
variable (E : RegexEngine) (q : Query) (d : Document)

def evaluate : Run E Output := q.path.evaluate (q.registry.hooks E) d q.options

def all : Run E (List Document) := Output.toList <$> q.evaluate E d

def first : Run E (Option Document) := List.head? <$> q.all E d

def any : Run E Bool := (!·.isEmpty) <$> q.all E d

end Query

def compile (text : String) : Except PathError Path := Path.compile {} text

def canonicalize (text : String) : Except PathError String := Path.text <$> compile text

def query (E : RegexEngine) (d : Document) (text : String) : Except PathError Output :=
  match compile text with
  | .error e => .error e
  | .ok p =>
    match p.evaluate (Registry.empty.hooks E) d {} .fresh with
    | .ok output _ => .ok output
    | .error e _ => .error e

end PathQuery
