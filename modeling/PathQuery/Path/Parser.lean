import PathQuery.Path.Validation
import PathQuery.Filter.Parser
import PathQuery.Token.Lexer

/-!
# Parsing paths

* `Step.readHead?`     the `$` or the first name, which needs no dot;
* `Step.readSegment`   one further segment: `.name`, `..name`, `[…]`;
* `Path.readTokens`    all segments of a token queue, as far as they can be read;
* `Path.parse`         the total form, with an outcome for every text;
* `Path.compile`       the strict form, a path or an error.
-/

namespace PathQuery

/-- what is left open when a path is read -/
structure ParseOptions where
  /-- keep the partial path before an error -/
  allowPartial : Bool := false
  /-- validate what has been read -/
  validate : Bool := true
  /-- the ceiling on `..` nodes -/
  maxDescents : Nat := 10
  /-- the ceiling on the nesting and the height of filters -/
  maxFilterDepth : Nat := 64
  deriving DecidableEq

namespace Step
open Token Token.Reader

def readInteger? : Reader (Option Int) := fun tokens =>
  match tokens with
  | token :: rest =>
    match token.kind with
    | .integer n => .ok (some n) rest
    | _ => .ok none tokens
  | [] => .ok none []

def readSlice (finish : Nat) (start : Option Int) : Reader Step := do
  let stop ← readInteger?
  let step ← if ← skipIf .colon then readInteger? else pure none
  expect finish .expected .closeBracket
  pure (.slice ⟨start, stop, step⟩)

def closed (finish : Nat) (step : Step) : Reader Step := do
  expect finish .expected .closeBracket
  pure step

/-- a step in brackets; `opening` is the position of the opening one -/
def readBracket (b : Filter.Bounds) (opening : Nat) : Reader Step := do
  let token ← next b.finish
  match token.kind with
  | .star => closed b.finish .wildcard
  | .question =>
    let f ← Filter.read b.limit b.finish
    closed b.finish (.filter f)
  | .text name => closed b.finish (.property name)
  | .integer i =>
    if ← skipIf .colon then readSlice b.finish (some i) else closed b.finish (.index i)
  | .colon => readSlice b.finish none
  | .closeBracket => throw (.parse .emptyBrackets "']'" opening)
  | _ => refuse .bracketBody token

def readMember (finish : Nat) : Reader Step := do
  let token ← next finish
  match token.kind.word? with
  | some name => pure (.property name)
  | none => if token.kind = .star then pure .wildcard else refuse .memberName token

/-- what follows `..`: a name, or nothing at all before a bracket or the end -/
def readSought : Reader Step := do
  match ← front? with
  | none => pure (.descendants none)
  | some token =>
    match token.kind.word? with
    | some name => skip; pure (.descendants (some name))
    | none =>
      match token.kind with
      | .text name => skip; pure (.descendants (some name))
      | .star => skip; pure (.descendants none)
      | .openBracket => pure (.descendants none)
      | .eof => pure (.descendants none)
      | _ => refuse .descendantName token

/-- the start of a path: `$`, or a name without a dot -/
def readHead? : Reader (Option Segment) := do
  match ← front? with
  | none => pure none
  | some token =>
    if token.kind = .root then skip; pure (some ⟨.root, token.position⟩)
    else
      match token.kind.word? with
      | some name => skip; pure (some ⟨.property name, token.position⟩)
      | none => pure none

def readSegment (b : Filter.Bounds) : Reader Segment := do
  let token ← next b.finish
  let step ← match token.kind with
    | .dot => readMember b.finish
    | .dots => readSought
    | .openBracket => readBracket b token.position
    | .current => refuse .currentOutsideFilter token
    | _ => refuse .segmentStart token
  pure ⟨step, token.position⟩

end Step

def atEnd : List Token → Bool
  | [] => true
  | token :: _ => token.kind == .eof

namespace Path

/-- the segments of the tokens, as far as they can be read, and what stands against the next one;
at most `tries` of them -/
def readRest (b : Filter.Bounds) :
    (tries : Nat) → List Token → List Segment × Option PathError
  | 0, _ => ([], none)
  | tries + 1, tokens =>
    if atEnd tokens then ([], none)
    else
      match Step.readSegment b tokens with
      | .ok segment rest =>
        let (segments, error?) := readRest b tries rest
        (segment :: segments, error?)
      | .error e _ => ([], some e)

/-- the segments of the tokens of a text, as far as they can be read; each segment takes a token,
so there are no more segments than tokens -/
def readTokens (b : Filter.Bounds) (tokens : List Token) : List Segment × Option PathError :=
  if atEnd tokens then ([], some (.parse .emptyPath "end of input" 0))
  else
    match Step.readHead? tokens with
    | .ok head? rest =>
      let (segments, error?) := readRest b tokens.length rest
      (head?.toList ++ segments, error?)
    | .error e _ => ([], some e)

def readText (maxFilterDepth : Nat) (text : String) : Path × Option PathError :=
  match Token.lex text with
  | .error e => (⟨[]⟩, some e)
  | .ok tokens =>
    let (segments, error?) := readTokens ⟨maxFilterDepth, text.length⟩ tokens
    (⟨segments⟩, error?)

/-- the path, whole or partial, and the error if there is one -/
structure Outcome where
  /-- after an error only if a partial path was asked for -/
  path? : Option Path
  error? : Option PathError

namespace Outcome

def success (o : Outcome) : Bool := o.error?.isNone

def toExcept (o : Outcome) : Except PathError Path :=
  match o.error?, o.path? with
  | some e, _ => .error e
  | none, some p => .ok p
  | none, none => .error (.parse .nothingParsed "end of input" 0)

end Outcome

def parse (options : ParseOptions) (text : String) : Outcome :=
  let (path, readError?) := readText options.maxFilterDepth text
  let error? := match readError? with
    | some e => some e
    | none =>
      if options.validate then
        match path.validate options.maxDescents with
        | .error e => some e
        | .ok _ => none
      else none
  match error? with
  | none => ⟨some path, none⟩
  | some e => ⟨if options.allowPartial then some path else none, some e⟩

def compile (options : ParseOptions) (text : String) : Except PathError Path :=
  (parse { options with allowPartial := false } text).toExcept

end Path
end PathQuery
