import PathQuery.Proofs.Token.Reader

/-!
# What readers take

`Takes r Q` says of a reader that it only ever takes tokens from the front, and that whenever it
gives an answer, `Q` holds of that and of the number of tokens it took. Nothing is asked of the
tokens. There is one rule for each way to put readers together.
-/

namespace PathQuery.Token

/-- the reader takes tokens from the front, and what it gives and how many it takes is as `Q` says
-/
def Reader.Takes {α : Type} (r : Reader α) (Q : α → Nat → Prop) : Prop :=
  ∀ ⦃tokens : List Token⦄ ⦃a : α⦄ ⦃rest : List Token⦄, r tokens = .ok a rest →
    ∃ taken, tokens = taken ++ rest ∧ Q a taken.length

namespace Reader.Takes

variable {α β : Type} {P Q : α → Nat → Prop} {r : Reader α}

theorem mono (h : Takes r P) (hPQ : ∀ a n, P a n → Q a n) : Takes r Q := by
  intro tokens a rest hread
  obtain ⟨taken, htokens, hP⟩ := h hread
  exact ⟨taken, htokens, hPQ a _ hP⟩

theorem pure {a : α} (h : Q a 0) : Takes (Pure.pure a : Reader α) Q := by
  intro tokens a' rest hread
  cases hread
  exact ⟨[], rfl, h⟩

theorem bind {k : α → Reader β} {R : β → Nat → Prop}
    (h : Takes r fun a n => Takes (k a) fun b m => R b (n + m)) : Takes (r >>= k) R := by
  intro tokens b rest hread
  cases hr : r tokens with
  | error e more =>
    rw [bind_error hr] at hread
    cases hread
  | ok a more =>
    rw [bind_ok hr] at hread
    obtain ⟨taken, rfl, hk⟩ := h hr
    obtain ⟨taken', rfl, hR⟩ := hk hread
    exact ⟨taken ++ taken', (List.append_assoc _ _ _).symm, by rwa [List.length_append]⟩

theorem map {g : α → β} {R : β → Nat → Prop} (h : Takes r fun a n => R (g a) n) :
    Takes (g <$> r) R := by
  intro tokens b rest hread
  cases hr : r tokens with
  | error e more =>
    rw [map_error hr] at hread
    cases hread
  | ok a more =>
    rw [map_ok hr] at hread
    cases hread
    exact h hr

theorem throw (e : PathError) : Takes (MonadExcept.throw e : Reader α) Q := by
  intro tokens a rest hread
  cases hread

theorem refuse (fault : ParseFault) (token : Token) : Takes (refuse fault token) Q := throw _

theorem tries {r : Nat → Reader α} (h : ∀ n, Takes (r n) Q) :
    Takes (fun tokens => r tokens.length tokens) Q :=
  fun tokens _ _ hread => h tokens.length hread

theorem front {R : Option Token → Nat → Prop} (h : ∀ t?, R t? 0) : Takes front? R := by
  intro tokens t? rest hread
  cases hread
  exact ⟨[], rfl, h _⟩

theorem kind {R : Option Kind → Nat → Prop} (h : ∀ k?, R k? 0) : Takes kind? R := by
  intro tokens k? rest hread
  cases hread
  exact ⟨[], rfl, h _⟩

theorem skip {R : Unit → Nat → Prop} (h : ∀ n, R () n) : Takes skip R := by
  intro tokens a rest hread
  cases hread
  cases tokens with
  | nil => exact ⟨[], rfl, h _⟩
  | cons t tokens => exact ⟨[t], rfl, h _⟩

theorem next {finish : Nat} {R : Token → Nat → Prop} (h : ∀ t, R t 1) : Takes (next finish) R := by
  intro tokens t rest hread
  cases tokens with
  | nil => cases hread
  | cons t' tokens =>
    cases hread
    exact ⟨[t], rfl, h t⟩

theorem expect {finish : Nat} {fault : String → ParseFault} {k : Kind} {R : Unit → Nat → Prop}
    (h : R () 1) : Takes (expect finish fault k) R := by
  refine (next fun t => ?_).bind
  split
  · exact pure h
  · exact refuse _ _

theorem skipIf {k : Kind} {R : Bool → Nat → Prop} (htrue : R true 1) (hfalse : R false 0) :
    Takes (skipIf k) R := by
  intro tokens taken rest hread
  unfold Reader.skipIf at hread
  cases tokens with
  | nil =>
    cases hread
    exact ⟨[], rfl, hfalse⟩
  | cons t tokens =>
    dsimp only at hread
    split at hread
    · cases hread
      exact ⟨[t], rfl, htrue⟩
    · cases hread
      exact ⟨[], rfl, hfalse⟩

theorem repeated {step : Reader (Option α)} {R : List α → Nat → Prop}
    (hstep : Takes step fun _ _ => True) (h : ∀ as n, R as n) : Takes (repeated step) R := by
  refine tries (r := repeatedUpTo step) fun n => mono (P := fun _ _ => True) ?_ fun as n _ => h as n
  induction n with
  | zero => exact pure trivial
  | succ n ih =>
    refine (hstep.mono fun a? n _ => ?_).bind
    cases a? with
    | none => exact pure trivial
    | some a => exact map (ih.mono fun _ _ _ => trivial)

end Reader.Takes
end PathQuery.Token
