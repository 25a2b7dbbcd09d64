import PathQuery.Token.Reader

/-!
# Steps of readers

What the readers of tokens do on tokens that are known.

* `bind_ok`, `bind_error`, `map_ok`, `map_error`   how readers go on;
* `next_cons`, `expect_ok`, `skipIf_ok`, `skipIf_of_ne`      what one token is taken for.
-/

namespace PathQuery.Token.Reader

variable {α β : Type} {r : Reader α} {tokens rest : List Token}

theorem bind_ok {a : α} (h : r tokens = .ok a rest) (k : α → Reader β) :
    (r >>= k) tokens = k a rest := by
  show EStateM.bind r k tokens = _
  rw [EStateM.bind, h]

theorem bind_error {e : PathError} (h : r tokens = .error e rest) (k : α → Reader β) :
    (r >>= k) tokens = .error e rest := by
  show EStateM.bind r k tokens = _
  rw [EStateM.bind, h]

theorem map_ok {a : α} (h : r tokens = .ok a rest) (g : α → β) :
    (g <$> r) tokens = .ok (g a) rest := by
  show EStateM.map g r tokens = _
  rw [EStateM.map, h]

theorem map_error {e : PathError} (h : r tokens = .error e rest) (g : α → β) :
    (g <$> r) tokens = .error e rest := by
  show EStateM.map g r tokens = _
  rw [EStateM.map, h]

theorem pure_eq (a : α) (tokens : List Token) : (pure a : Reader α) tokens = .ok a tokens := rfl

theorem front_eq (tokens : List Token) : front? tokens = .ok tokens.head? tokens := rfl

theorem kind_eq (tokens : List Token) :
    kind? tokens = .ok (tokens.head?.map Token.kind) tokens := rfl

theorem skip_cons (token : Token) (rest : List Token) : skip (token :: rest) = .ok () rest := rfl

theorem next_cons (finish : Nat) (token : Token) (rest : List Token) :
    next finish (token :: rest) = .ok token rest := rfl

theorem expect_ok (finish : Nat) (fault : String → ParseFault) {kind : Kind} {token : Token}
    (h : token.kind = kind) (rest : List Token) :
    expect finish fault kind (token :: rest) = .ok () rest := by
  unfold expect
  rw [bind_ok (next_cons finish token rest), if_pos h]
  rfl

theorem skipIf_ok {kind : Kind} {token : Token} (h : token.kind = kind) (rest : List Token) :
    skipIf kind (token :: rest) = .ok true rest := if_pos h

theorem skipIf_of_ne {kind : Kind} {token : Token} (h : token.kind ≠ kind) (rest : List Token) :
    skipIf kind (token :: rest) = .ok false (token :: rest) := if_neg h

end PathQuery.Token.Reader
