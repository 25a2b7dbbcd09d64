import PathQuery.Operator
import PathQuery.Decimal.Layout
import PathQuery.Text.Classes

/-!
# Tokens

* `Token`        a kind and the position of its first character;
* `Token.Kind`   what a token is, with `symbol`, `describe` and the readings that a parser asks
                 for: a word (`word?`), an operator (`operator?`), a literal (`isLiteral`);
* `isPlainName`, `isKeyword`   which names are words of their own.
-/

namespace PathQuery

inductive Token.Kind where
  | root
  | dot
  | dots
  | openBracket
  | closeBracket
  | openParen
  | closeParen
  | comma
  | colon
  | question
  | current
  | star
  | not
  | text (value : String)
  | integer (value : Int)
  | float (value : Float)
  | bool (value : Bool)
  | null
  | operator (known : Known)
  | identifier (name : String)
  | eof
  deriving DecidableEq

structure Token where
  kind : Token.Kind
  position : Nat
  deriving DecidableEq

namespace Token.Kind

/-- the name of a kind: its spelling where all tokens of the kind are spelt alike -/
def symbol : Kind → String
  | .root => "$"
  | .dot => "."
  | .dots => ".."
  | .openBracket => "["
  | .closeBracket => "]"
  | .openParen => "("
  | .closeParen => ")"
  | .comma => ","
  | .colon => ":"
  | .question => "?"
  | .current => "@"
  | .star => "*"
  | .not => "!"
  | .text _ => "string"
  | .integer _ => "integer"
  | .float _ => "number"
  | .bool value => if value then "true" else "false"
  | .null => "null"
  | .operator known => known.symbol
  | .identifier _ => "identifier"
  | .eof => "EOF"

def describe : Kind → String
  | .text value => s!"string \"{value}\""
  | .integer value => s!"integer {value}"
  | .float value => s!"number {Decimal.Layout.plain.text value}"
  | .identifier name => s!"identifier '{name}'"
  | .eof => "end of input"
  | kind => s!"'{kind.symbol}'"

def word? : Kind → Option String
  | .identifier name => some name
  | .bool value => some (if value then "true" else "false")
  | .null => some "null"
  | .operator known => if known.isWord then some known.symbol else none
  | _ => none

/-- the operator that a token stands for between operands -/
def operator? : Kind → Option Operator
  | .operator known => some (.known known)
  | .identifier name => some (.custom name)
  | _ => none

def isLiteral : Kind → Bool
  | .text _ => true
  | .integer _ => true
  | .float _ => true
  | .bool _ => true
  | .null => true
  | _ => false

end Token.Kind

/-! ## names -/

def isNameStart (c : Char) : Bool := Text.isAlphabetic c || c == '_' || c == '$'

def isNamePart (c : Char) : Bool := Text.isAlphanumeric c || c == '_' || c == '$'

/-- the keywords and word operators -/
def keyword? (word : String) : Option Token.Kind :=
  if word = "true" then some (.bool true)
  else if word = "false" then some (.bool false)
  else if word = "null" then some .null
  else if word = "contains" then some (.operator (.textTest .contains))
  else if word = "startsWith" then some (.operator (.textTest .startsWith))
  else if word = "endsWith" then some (.operator (.textTest .endsWith))
  else if word = "matches" then some (.operator .pattern)
  else none

def isKeyword (word : String) : Bool := (keyword? word).isSome

/-- the names that can be written without quotes; a lone `$` is the root -/
def isPlainName (name : String) : Bool :=
  match name.toList with
  | [] => false
  | c :: rest => isNameStart c && rest.all isNamePart && !(c == '$' && rest.isEmpty)

end PathQuery
