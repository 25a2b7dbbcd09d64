import PathQuery.Evaluation.Basic
import PathQuery.Path.Parser

/-!
# Configurations

The settings of an engine: parse, evaluate and cache, with three presets.

* `Config.default`, `Config.strict`, `Config.permissive`;
* `Config.validate`       refuses settings under which nothing would work;
* `Config.ofDocument?`    settings read from a document.
-/

namespace PathQuery

structure Config where
  parse : ParseOptions := {}
  evaluate : EvaluateOptions := {}
  /-- the capacity of the result cache -/
  cacheCapacity : Nat := 256
  deriving DecidableEq

/-- a setting that is zero and must not be -/
inductive ConfigFault where
  | depth
  | cacheCapacity
  | descents
  | filterDepth
  deriving DecidableEq

namespace ConfigFault

def concernsCache : ConfigFault → Bool
  | cacheCapacity => true
  | _ => false

def setting : ConfigFault → String
  | depth => "evaluate.max_depth"
  | cacheCapacity => "cache_capacity"
  | descents => "max_recursive_descents"
  | filterDepth => "max_filter_depth"

def message (f : ConfigFault) : String :=
  (if f.concernsCache then "Invalid cache capacity: " else "Invalid configuration parameter: ")
    ++ s!"{f.setting} cannot be zero"

end ConfigFault

namespace Config

def default : Config := {}

/-- tight limits, for paths that are not trusted -/
def strict : Config where
  parse := { maxDescents := 2, maxFilterDepth := 16 }
  evaluate := { maxDepth := 32, maxDescents := 2, maxFilterDepth := 16 }
  cacheCapacity := 64

/-- generous limits, for trusted paths on deep documents -/
def permissive : Config where
  parse := { maxDescents := 64, maxFilterDepth := 128 }
  evaluate := { maxDepth := 1024, maxDescents := 64, maxFilterDepth := 128 }
  cacheCapacity := 4096

def validate (c : Config) : Except ConfigFault Unit :=
  if c.evaluate.maxDepth = 0 then .error .depth
  else if c.cacheCapacity = 0 then .error .cacheCapacity
  else if c.parse.maxDescents = 0 ∨ c.evaluate.maxDescents = 0 then .error .descents
  else if c.parse.maxFilterDepth = 0 ∨ c.evaluate.maxFilterDepth = 0 then .error .filterDepth
  else .ok ()

/-! ## reading -/

def maxNumber : Int := 0xffffffffffffffff

def number? : Document → Option Nat
  | .integer n => if 0 ≤ n ∧ n ≤ maxNumber then some n.toNat else none
  | _ => none

def switch? : Document → Option Bool
  | .bool b => some b
  | _ => none

/-- the entries of a record: a map, or a list of the values of the first of its fields -/
def entries? (fields : List String) : Document → Option (List (String × Document))
  | .map entries => some entries
  | .list items => if items.length ≤ fields.length then some (fields.zip items) else none
  | _ => none

def field? {α : Type} (entries : List (String × Document)) (name : String)
    (read? : Document → Option α) (otherwise : α) : Option α :=
  match Document.valueOf name entries with
  | some d => read? d
  | none => some otherwise

def parseOptions? (d : Document) : Option ParseOptions := do
  let entries ← entries?
    ["allow_partial", "validate", "max_recursive_descents", "max_filter_depth"] d
  let o : ParseOptions := {}
  some
    { allowPartial := ← field? entries "allow_partial" switch? o.allowPartial
      validate := ← field? entries "validate" switch? o.validate
      maxDescents := ← field? entries "max_recursive_descents" number? o.maxDescents
      maxFilterDepth := ← field? entries "max_filter_depth" number? o.maxFilterDepth }

def evaluateOptions? (d : Document) : Option EvaluateOptions := do
  let entries ← entries? ["max_depth", "max_recursive_descents", "max_filter_depth"] d
  let o : EvaluateOptions := {}
  some
    { maxDepth := ← field? entries "max_depth" number? o.maxDepth
      maxDescents := ← field? entries "max_recursive_descents" number? o.maxDescents
      maxFilterDepth := ← field? entries "max_filter_depth" number? o.maxFilterDepth }

/-- the settings that a document gives; those it leaves out are the default ones -/
def ofDocument? (d : Document) : Option Config := do
  let entries ← entries? ["parse", "evaluate", "cache_capacity"] d
  let c : Config := {}
  some
    { parse := ← field? entries "parse" parseOptions? c.parse
      evaluate := ← field? entries "evaluate" evaluateOptions? c.evaluate
      cacheCapacity := ← field? entries "cache_capacity" number? c.cacheCapacity }

end Config
end PathQuery
