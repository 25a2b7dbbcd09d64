import PathQuery.Document.Printer
import PathQuery.Filter.Basic

/-!
# Values in filters

What filter expressions evaluate to. A missing value is a value too: it is not truthy, equals
nothing, and has no text.

* `Value.ofDocument`, `Value.ofLiteral`   documents and literals, lifted to values;
* `Value.normalize`                       scalars lifted out of a `node`;
* `Value.isTruthy`                        truthiness;
* `Value.text?`, `Value.toFloat?`         a value as text and as a number.
-/

namespace PathQuery

inductive Value where
  | missing
  | null
  | bool (value : Bool)
  | integer (value : Int)
  | float (value : Float)
  | text (value : String)
  | node (document : Document)

namespace Value

/-- the greatest integer that is an integer in a filter too, one of 64 bits with its sign; beyond
it there are only floats -/
def maxInteger : Int := 0x7fffffffffffffff

/-- lifts a document value: a scalar as itself, a map or list as a whole -/
def ofDocument : Document → Value
  | .null => null
  | .bool value => bool value
  | .integer n => if n ≤ maxInteger then integer n else float (Float.ofInt n)
  | .float x => float x
  | .text s => text s
  | .list items => node (.list items)
  | .map entries => node (.map entries)

def ofLiteral : Literal → Value
  | .text s => text s
  | .integer n => integer n
  | .float x => float x
  | .bool value => bool value
  | .null => null

/-- lifts a scalar out of `node` -/
def normalize : Value → Value
  | node d => ofDocument d
  | v => v

/-- truthiness: numbers other than zero, texts with characters, and every map and list -/
def isTruthy : Value → Bool
  | missing => false
  | null => false
  | bool value => value
  | integer n => n != 0
  | float x => x != 0.0
  | text s => !s.isEmpty
  | node _ => true

def isMissing : Value → Bool
  | missing => true
  | _ => false

/-- a value as text; what is missing has none -/
def chars? : Value → Option (List Char)
  | missing => none
  | null => some "null".toList
  | bool value => some (if value then "true" else "false").toList
  | integer n => some (Decimal.intChars n)
  | float x => some (Decimal.Layout.plain.chars x)
  | text s => some s.toList
  | node d => some d.chars

def text? (v : Value) : Option String := v.chars?.map String.ofList

def typeName : Value → String
  | missing => "absent"
  | null => "null"
  | bool _ => "boolean"
  | integer _ => "number"
  | float _ => "number"
  | text _ => "string"
  | node d => d.typeName

def toFloat? : Value → Option Float
  | integer n => some (Float.ofInt n)
  | float x => some x
  | _ => none

end Value
end PathQuery
