import PathQuery.Token.Basic
import PathQuery.Error

/-!
# Readers of tokens

A reader takes tokens from the front of a list and gives what they spell, or says what is wrong
with them. Either way it tells which tokens are left.

* `front?`, `kind?`   the next token, left where it is;
* `next`              the next token, which has to be there;
* `expect`            a token of a given kind;
* `skipIf`            a token of a given kind, if there is one;
* `repeated`          the results of one reader for as long as it finds something.
-/

namespace PathQuery.Token

/-- takes tokens from the front of a list -/
abbrev Reader := EStateM PathError (List Token)

/-- how an error names the token at the front -/
def describeFront : Option Token → String
  | some token => token.kind.describe
  | none => "end of input"

namespace Reader

def front? : Reader (Option Token) := fun tokens => .ok tokens.head? tokens

def kind? : Reader (Option Kind) := fun tokens => .ok (tokens.head?.map Token.kind) tokens

def skip : Reader Unit := fun tokens => .ok () tokens.tail

/-- the next token; `finish` is the position of the end of the text -/
def next (finish : Nat) : Reader Token
  | [] => .error (.parse .unexpectedEnd "end of input" finish) []
  | token :: rest => .ok token rest

def refuse {α : Type} (fault : ParseFault) (token : Token) : Reader α :=
  throw (.parse fault token.kind.describe token.position)

/-- takes a token of a kind that is spelt alike everywhere -/
def expect (finish : Nat) (fault : String → ParseFault) (kind : Kind) : Reader Unit := do
  let token ← next finish
  if token.kind = kind then pure () else refuse (fault kind.symbol) token

def skipIf (kind : Kind) : Reader Bool := fun tokens =>
  match tokens with
  | token :: rest => if token.kind = kind then .ok true rest else .ok false tokens
  | [] => .ok false []

/-- what `step` gives again and again, at most `tries` times -/
def repeatedUpTo {α : Type} (step : Reader (Option α)) : (tries : Nat) → Reader (List α)
  | 0 => pure []
  | tries + 1 => do
    match ← step with
    | none => pure []
    | some a => (a :: ·) <$> repeatedUpTo step tries

/-- what `step` gives until it finds nothing more. As long as each find takes a token, there
cannot be more finds than tokens. -/
def repeated {α : Type} (step : Reader (Option α)) : Reader (List α) := fun tokens =>
  repeatedUpTo step tokens.length tokens

end Reader
end PathQuery.Token
