import PathQuery.Filter.Basic
import PathQuery.Token.Reader

/-!
# Parsing filter expressions

Precedence climbing: operators bind by their precedence and associate to the left, and `!` binds
tighter than all of them. Both the nesting of the calls and the height of the tree are held to a
limit.

* `Bounds`        the limit, and where the text ends;
* `Measured`      an expression with its height;
* `operand`       a primary expression, or one under `!`;
* `chain`         operators and their right operands;
* `expression`    an expression whose operators bind at least as tightly as asked;
* `read`          a whole filter.

The parts of an expression stand one level further in. The readers below take the reader for that
level as an argument, `none` when the limit has been reached.
-/

namespace PathQuery.Filter
open Token Token.Reader

structure Bounds where
  /-- the ceiling on nesting and height -/
  limit : Nat
  /-- the position of the end of the text -/
  finish : Nat

structure Measured where
  filter : Filter
  height : Nat

/-- the reader of expressions one level further in, by the least precedence of their operators -/
abbrev Inner := Option (Nat → Reader Measured)

def tooDeep {α : Type} (b : Bounds) (position : Nat) : Reader α := do
  let found ← front?
  throw (.parse (.filterDepth b.limit) (describeFront found) position)

def enter (b : Bounds) (position : Nat) : Inner → Reader (Nat → Reader Measured)
  | some inner => pure inner
  | none => tooDeep b position

/-- passes an expression on if it does not have too many levels -/
def checked (b : Bounds) (position : Nat) (m : Measured) : Reader Measured :=
  if b.limit < m.height then tooDeep b position else pure m

/-! ## what can stand beside an operator -/

/-- one name in a row of names after `@`, `.name` or `["name"]` -/
def member? (b : Bounds) : Reader (Option String) := do
  match ← kind? with
  | some .dot =>
    skip
    let token ← next b.finish
    match token.kind.word? with
    | some name => pure (some name)
    | none => refuse .filterMemberName token
  | some .openBracket =>
    skip
    let token ← next b.finish
    match token.kind with
    | .text name =>
      expect b.finish .expectedInFilter .closeBracket
      pure (some name)
    | _ => refuse .filterQuotedName token
  | _ => pure none

def argumentsUpTo (argument : Reader Measured) : (tries : Nat) → Reader (List Measured)
  | 0 => (fun m => [m]) <$> argument
  | tries + 1 => do
    let m ← argument
    if ← skipIf .comma then (m :: ·) <$> argumentsUpTo argument tries
    else pure [m]

def arguments (b : Bounds) (argument : Reader Measured) : Reader (List Measured) := do
  if ← skipIf .closeParen then pure []
  else
    let ms ← fun tokens => argumentsUpTo argument tokens.length tokens
    expect b.finish .expectedInFilter .closeParen
    pure ms

def callOf (b : Bounds) (inner : Inner) (name : String) (position : Nat) : Reader Measured := do
  let inner ← enter b position inner
  let args ← arguments b (inner 1)
  checked b position
    ⟨.call name (args.map Measured.filter), args.foldl (fun h m => max h m.height) 0 + 1⟩

def group (b : Bounds) (inner : Inner) (position : Nat) : Reader Measured := do
  let inner ← enter b position inner
  let m ← inner 1
  expect b.finish .expectedInFilter .closeParen
  pure m

def ofLiteral (value : Literal) : Reader Measured := pure ⟨.literal value, 1⟩

/-- a primary expression, all that does not begin with `!` -/
def primary (b : Bounds) (inner : Inner) (token : Token) : Reader Measured := do
  match token.kind with
  | .current => (fun names => ⟨.reference names, 1⟩) <$> repeated (member? b)
  | .openParen => group b inner token.position
  | .identifier name =>
    if ← skipIf .openParen then callOf b inner name token.position
    else refuse .bareName token
  | .text value => ofLiteral (.text value)
  | .integer value => ofLiteral (.integer value)
  | .float value => ofLiteral (.float value)
  | .bool value => ofLiteral (.bool value)
  | .null => ofLiteral .null
  | .root => refuse .rootInFilter token
  | _ => refuse .operandStart token

/-- tighter than all operators between two operands -/
def tightest : Nat := 4

def operand (b : Bounds) (inner : Inner) : Reader Measured := do
  let token ← next b.finish
  if token.kind = .not then
    let inner ← enter b token.position inner
    let m ← inner tightest
    checked b token.position ⟨.negation m.filter, m.height + 1⟩
  else primary b inner token

/-! ## operators -/

/-- the operator at the front if it binds at least as tightly as `least`, taken with its
position -/
def operator? (least : Nat) : Reader (Option (Operator × Nat)) := fun tokens =>
  match tokens with
  | token :: rest =>
    match token.kind.operator? with
    | some op =>
      if least ≤ op.precedence then .ok (some (op, token.position)) rest else .ok none tokens
    | none => .ok none tokens
  | [] => .ok none []

/-- precedence climbing: joins operators and their right operands to `left`, at most `tries` of
them. A right operand takes the operators that bind tighter, so equal ones associate to the left. -/
def chainUpTo (b : Bounds) (inner : Inner) (least : Nat) :
    (tries : Nat) → (left : Measured) → Reader Measured
  | 0, left => pure left
  | tries + 1, left => do
    match ← operator? least with
    | none => pure left
    | some (op, position) =>
      let inner' ← enter b position inner
      let right ← inner' (op.precedence + 1)
      let joined ← checked b position
        ⟨.binary op left.filter right.filter, max left.height right.height + 1⟩
      chainUpTo b inner least tries joined

def chain (b : Bounds) (inner : Inner) (least : Nat) (left : Measured) : Reader Measured :=
  fun tokens => chainUpTo b inner least tokens.length left tokens

def level (b : Bounds) (inner : Inner) (least : Nat) : Reader Measured := do
  let left ← operand b inner
  chain b inner least left

/-- an expression inside which there is room for so many levels -/
def expression (b : Bounds) : (room : Nat) → (least : Nat) → Reader Measured
  | 0, least => level b none least
  | room + 1, least => level b (some (expression b room)) least

def read (limit finish : Nat) : Reader Filter :=
  Measured.filter <$> expression ⟨limit, finish⟩ limit 1

end PathQuery.Filter
