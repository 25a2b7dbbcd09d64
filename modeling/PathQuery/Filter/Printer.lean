import PathQuery.Filter.Basic
import PathQuery.Token.Basic
import PathQuery.Decimal.Reading
import PathQuery.Text.Quoted

/-!
# Canonical text of filter expressions

Every expression has one canonical text: one blank on either side of an operator, and parentheses
only where the precedence of the operators asks for them.

* `quoted`           a text as a literal;
* `literalChars`     a literal;
* `referenceChars`   a reference to names in the element;
* `chars`, `text`    an expression.
-/

namespace PathQuery

/-- a text between double quotes, with control characters by their code -/
def quoted (s : String) : List Char := Text.quoteChars Text.isControl s.toList

/-- a name after a dot if it can stand there bare, else in brackets and quotes -/
def memberChars (name : String) : List Char :=
  if isPlainName name then '.' :: name.toList else '[' :: quoted name ++ [']']

namespace Filter

def boolChars (value : Bool) : List Char := (if value then "true" else "false").toList

/-- decimals keep their point, so that they read back as decimals -/
def literalChars : Literal → List Char
  | .text value => quoted value
  | .integer value => Decimal.intChars value
  | .float value => Decimal.Layout.literal.chars value
  | .bool value => boolChars value
  | .null => "null".toList

def referenceChars (names : List String) : List Char := '@' :: names.flatMap memberChars

def precedence? : Filter → Option Nat
  | binary op _ _ => some op.precedence
  | _ => none

/-- whether a left operand of an operator of that precedence needs parentheses -/
def leftGrouped (f : Filter) (precedence : Nat) : Bool := f.precedence?.any (· < precedence)

def rightGrouped (f : Filter) (precedence : Nat) : Bool := f.precedence?.any (· ≤ precedence)

def negationGrouped (f : Filter) : Bool := f.precedence?.isSome

def groupIf (grouped : Bool) (cs : List Char) : List Char :=
  if grouped then '(' :: cs ++ [')'] else cs

mutual
/-- the canonical text of an expression -/
def chars : Filter → List Char
  | literal value => literalChars value
  | reference names => referenceChars names
  | binary op left right =>
    groupIf (left.leftGrouped op.precedence) left.chars
      ++ ' ' :: op.symbol.toList ++ ' ' :: groupIf (right.rightGrouped op.precedence) right.chars
  | negation operand => '!' :: groupIf operand.negationGrouped operand.chars
  | call name args => name.toList ++ '(' :: argumentChars args ++ [')']

def argumentChars : List Filter → List Char
  | [] => []
  | [f] => f.chars
  | f :: rest => f.chars ++ ',' :: ' ' :: argumentChars rest
end

def text (f : Filter) : String := String.ofList f.chars

end Filter
end PathQuery
