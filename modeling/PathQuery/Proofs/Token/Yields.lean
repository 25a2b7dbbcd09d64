import PathQuery.Proofs.Token.Reader
import Mathlib.Data.List.Basic

/-!
# What readers yield

`Yields before r Q` says of a reader what it can give on tokens of the kinds `before`: whenever it
gives an answer, `Q` holds of that and of the kinds of the tokens that are left. There is one rule
for each way to put readers together, so that a reader is seen through from its first token on.
-/

namespace PathQuery.Token

/-- on tokens of these kinds, whatever the reader gives and leaves is as `Q` says -/
def Reader.Yields {α : Type} (before : List Kind) (r : Reader α) (Q : α → List Kind → Prop) :
    Prop :=
  ∀ ⦃tokens : List Token⦄ ⦃a : α⦄ ⦃rest : List Token⦄, tokens.map Token.kind = before →
    r tokens = .ok a rest → Q a (rest.map Token.kind)

namespace Reader.Yields

variable {α β : Type} {before : List Kind} {P Q : α → List Kind → Prop} {r : Reader α}

theorem mono (h : Yields before r P) (hPQ : ∀ a rest, P a rest → Q a rest) : Yields before r Q :=
  fun _ a _ hbefore hread => hPQ a _ (h hbefore hread)

theorem pure {a : α} (h : Q a before) : Yields before (Pure.pure a : Reader α) Q := by
  intro tokens a' rest hbefore hread
  cases hread
  rwa [hbefore]

theorem bind {k : α → Reader β} {R : β → List Kind → Prop}
    (h : Yields before r fun a rest => Yields rest (k a) R) : Yields before (r >>= k) R := by
  intro tokens b rest hbefore hread
  cases hr : r tokens with
  | error e more =>
    rw [bind_error hr] at hread
    cases hread
  | ok a more =>
    rw [bind_ok hr] at hread
    exact h hbefore hr rfl hread

theorem map {g : α → β} {R : β → List Kind → Prop}
    (h : Yields before r fun a rest => R (g a) rest) : Yields before (g <$> r) R := by
  intro tokens b rest hbefore hread
  cases hr : r tokens with
  | error e more =>
    rw [map_error hr] at hread
    cases hread
  | ok a more =>
    rw [map_ok hr] at hread
    cases hread
    exact h hbefore hr

theorem throw (e : PathError) : Yields before (MonadExcept.throw e : Reader α) Q := by
  intro tokens a rest _ hread
  cases hread

theorem refuse (fault : ParseFault) (token : Token) : Yields before (refuse fault token) Q :=
  throw _

theorem tries {r : ℕ → Reader α} (h : Yields before (r before.length) Q) :
    Yields before (fun tokens => r tokens.length tokens) Q := by
  intro tokens a rest hbefore hread
  refine h hbefore ?_
  rwa [← hbefore, List.length_map]

theorem kind {R : Option Kind → List Kind → Prop} (h : R before.head? before) :
    Yields before kind? R := by
  intro tokens k? rest hbefore hread
  cases hread
  rwa [← List.head?_map, hbefore]

theorem front {R : Option Token → List Kind → Prop}
    (h : ∀ t?, t?.map Token.kind = before.head? → R t? before) : Yields before front? R := by
  intro tokens t? rest hbefore hread
  cases hread
  rw [hbefore]
  exact h _ (by rw [← List.head?_map, hbefore])

theorem skip {R : Unit → List Kind → Prop} (h : R () before.tail) : Yields before skip R := by
  intro tokens a rest hbefore hread
  cases hread
  rwa [List.map_tail, hbefore]

theorem next {finish : ℕ} {R : Token → List Kind → Prop}
    (h : ∀ t rest, before = t.kind :: rest → R t rest) : Yields before (next finish) R := by
  intro tokens t rest hbefore hread
  cases tokens with
  | nil => cases hread
  | cons t' tokens =>
    cases hread
    exact h t _ hbefore.symm

theorem expect {finish : ℕ} {fault : String → ParseFault} {k : Kind} {R : Unit → List Kind → Prop}
    (h : ∀ rest, before = k :: rest → R () rest) : Yields before (expect finish fault k) R := by
  refine (next fun t rest hbefore => ?_).bind
  split
  · rename_i hk
    exact pure (h rest (hk ▸ hbefore))
  · exact refuse _ _

theorem skipIf {k : Kind} {R : Bool → List Kind → Prop}
    (htrue : ∀ rest, before = k :: rest → R true rest)
    (hfalse : R false before) : Yields before (skipIf k) R := by
  intro tokens taken rest hbefore hread
  unfold Reader.skipIf at hread
  cases tokens with
  | nil =>
    cases hread
    rwa [hbefore]
  | cons t tokens =>
    dsimp only at hread
    split at hread
    · rename_i hk
      cases hread
      exact htrue _ (by rw [← hbefore, List.map_cons, hk])
    · cases hread
      rwa [hbefore]

end Reader.Yields
end PathQuery.Token
