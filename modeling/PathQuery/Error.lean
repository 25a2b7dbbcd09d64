/-!
# Errors

What can go wrong with a query, by stage. A fault says why; an error adds where.

* `LexFault`          malformed characters;
* `ParseFault`        malformed token sequences;
* `ValidationFault`   semantically invalid paths, and those beyond a ceiling;
* `SecurityFault`     denied names and rejected regexes in filters;
* `EvaluationFault`   what only comes out while a filter is evaluated;
* `PathError`         a fault with its position, and its wording (`message`, `display`).

Each fault has a case `other` for one that a host words itself.
-/

namespace PathQuery

inductive LexFault where
  | noToken
  | threeDots
  | loneSymbol (symbol : Char)
  | bareMinus
  | emptyExponent
  | floatRange
  | integerRange
  | unterminated
  | unknownEscape
  | shortEscape
  | badHexDigit
  | loneLowSurrogate
  | unpairedHighSurrogate
  | invalidLowSurrogate
  | other (text : String)
  deriving DecidableEq

inductive ParseFault where
  | unexpectedEnd
  | emptyPath
  | nothingParsed
  | expected (symbol : String)
  | expectedInFilter (symbol : String)
  | currentOutsideFilter
  | segmentStart
  | memberName
  | descendantName
  | emptyBrackets
  | bracketBody
  | filterDepth (limit : Nat)
  | operandStart
  | bareName
  | rootInFilter
  | filterMemberName
  | filterQuotedName
  | other (text : String)
  deriving DecidableEq

/-- the integers that a step can hold -/
inductive IntegerPlace where
  | index
  | sliceStart
  | sliceEnd
  | sliceStep
  deriving DecidableEq

inductive ValidationFault where
  | emptyName
  | unsafeInteger (place : IntegerPlace) (value : Int)
  | zeroStep
  | operatorName (name : String)
  | emptyFunctionName
  | arity (name : String) (expected given : Nat)
  | descents (limit : Nat)
  | filterDepth (depth limit : Nat)
  | other (text : String)
  deriving DecidableEq

/-- why the guard refuses a pattern before it is compiled -/
inductive PatternFault where
  | tooLong
  | tooDeep
  | nestedRepetition
  deriving DecidableEq

inductive SecurityFault where
  | deniedName (name : String)
  | pattern (fault : PatternFault)
  | other (text : String)
  deriving DecidableEq

inductive EvaluationFault where
  /-- `error` is what the engine says -/
  | invalidPattern (error : String)
  | strayConnective
  | other (text : String)
  deriving DecidableEq

/-- a fault with its place; positions count characters -/
inductive PathError where
  | lex (fault : LexFault) (character : Char) (position : Nat)
  | parse (fault : ParseFault) (token : String) (position : Nat)
  | validation (fault : ValidationFault) (position : Option Nat)
  | security (fault : SecurityFault)
  | evaluation (fault : EvaluationFault)
  deriving DecidableEq

/-! ## limits that the wordings name -/

def maxPatternLength : Nat := 256

def maxGroupNesting : Nat := 8

/-! ## wording -/

def LexFault.message : LexFault → String
  | .noToken => "no token starts with this character"
  | .threeDots => "'...' is not an operator, use '..' for recursive descent"
  | .loneSymbol c => s!"single '{c}' is not an operator, use '{c}{c}'"
  | .bareMinus => "'-' must be followed by a digit"
  | .emptyExponent => "exponent requires digits"
  | .floatRange => "decimal literal out of range"
  | .integerRange => "integer literal overflows"
  | .unterminated => "unterminated string literal"
  | .unknownEscape => "invalid escape sequence"
  | .shortEscape => "incomplete unicode escape"
  | .badHexDigit => "invalid hex digit in unicode escape"
  | .loneLowSurrogate => "low surrogate without preceding high surrogate"
  | .unpairedHighSurrogate => "high surrogate not followed by a low surrogate escape"
  | .invalidLowSurrogate => "high surrogate not followed by a valid low surrogate"
  | .other text => text

def ParseFault.message : ParseFault → String
  | .unexpectedEnd => "unexpected end of input"
  | .emptyPath => "empty path expression"
  | .nothingParsed => "no path parsed"
  | .expected symbol => s!"expected '{symbol}'"
  | .expectedInFilter symbol => s!"expected '{symbol}' in filter expression"
  | .currentOutsideFilter => "'@' is only valid inside filter expressions"
  | .segmentStart => "expected '.', '..' or '[' to start a path segment"
  | .memberName => "expected property name or '*' after '.'"
  | .descendantName => "expected property name, '*' or '[' after '..'"
  | .emptyBrackets => "empty brackets are not allowed"
  | .bracketBody => "expected '*', '?', string, integer or slice inside brackets"
  | .filterDepth limit => s!"filter expression nested deeper than {limit}"
  | .operandStart => "expected '@', literal, '(' or function call"
  | .bareName => "bare names are not values, use '@.name' or call 'name(...)'"
  | .rootInFilter => "'$' cannot be referenced inside a filter, use '@'"
  | .filterMemberName => "expected property name after '.'"
  | .filterQuotedName => "expected quoted property name inside '@[...]'"
  | .other text => text

def IntegerPlace.label : IntegerPlace → String
  | .index => "index"
  | .sliceStart => "slice start"
  | .sliceEnd => "slice end"
  | .sliceStep => "slice step"

def ValidationFault.message : ValidationFault → String
  | .emptyName => "property name cannot be empty"
  | .unsafeInteger place value => s!"{place.label} {value} is outside the safe integer range"
  | .zeroStep => "slice step cannot be zero"
  | .operatorName name => s!"custom operator name '{name}' is not a plain identifier"
  | .emptyFunctionName => "function name cannot be empty"
  | .arity name expected given => s!"function '{name}' expects {expected} argument(s), got {given}"
  | .descents limit => s!"more than {limit} recursive descent operators in one path"
  | .filterDepth depth limit => s!"filter expression nested {depth} deep, more than {limit}"
  | .other text => text

def PatternFault.message : PatternFault → String
  | .tooLong => s!"pattern longer than {maxPatternLength} characters"
  | .tooDeep => s!"groups nested deeper than {maxGroupNesting}"
  | .nestedRepetition => "repeated group contains an unbounded quantifier"

def SecurityFault.message : SecurityFault → String
  | .deniedName name => s!"access to property '{name}' is not allowed in filters"
  | .pattern fault => s!"regular expression rejected: {fault.message}"
  | .other text => text

def EvaluationFault.message : EvaluationFault → String
  | .invalidPattern error => s!"invalid regular expression: {error}"
  | .strayConnective => "logical operator reached value comparison"
  | .other text => text

namespace PathError

def message : PathError → String
  | .lex fault _ _ => fault.message
  | .parse fault _ _ => fault.message
  | .validation fault _ => fault.message
  | .security fault => fault.message
  | .evaluation fault => fault.message

def position? : PathError → Option Nat
  | .lex _ _ position => some position
  | .parse _ _ position => some position
  | .validation _ position => position
  | .security _ => none
  | .evaluation _ => none

def display : PathError → String
  | .lex fault c position => s!"unexpected character '{c}' at position {position}: {fault.message}"
  | .parse fault token position => s!"unexpected {token} at position {position}: {fault.message}"
  | .validation fault none => s!"invalid path: {fault.message}"
  | .validation fault (some position) => s!"invalid path at position {position}: {fault.message}"
  | .security fault => s!"security violation: {fault.message}"
  | .evaluation fault => s!"evaluation failed: {fault.message}"

def isSecurity : PathError → Bool
  | .security _ => true
  | _ => false

end PathError
end PathQuery
