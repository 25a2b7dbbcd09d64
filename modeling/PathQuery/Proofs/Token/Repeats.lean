import PathQuery.Proofs.Token.Takes
import Mathlib.Data.List.Basic

/-!
# What readers depend on

A reader looks at the tokens that it takes and at the one behind them, and at no other. So what it
gave in front of some tokens it also gives in front of others that begin in the same way. Where the
text ends does not matter either, but for the places of refusals; and readers of tokens refuse with
faults of parsing only.

* `Repeats n n' B r r'`   `r'` gives what `r` gave, in front of tokens that are as `B` says; there
                          are at most `n` tokens for the one and `n'` for the other;
* `RepeatsAll r r'`       the same for all numbers of tokens and all that begin alike;
* `Closes B r r'`         the same for all numbers of tokens, where `r` takes one at least;
* `Repeats.upTo`          readers that go on as often as they may try.
-/

namespace PathQuery

def PathError.IsParse (e : PathError) : Prop :=
  ∃ fault found position, e = .parse fault found position

namespace Token

def Alike (rest rest' : List Token) : Prop := rest'.head? = rest.head?

theorem Alike.append {rest rest' : List Token} (h : Alike rest rest') (taken : List Token) :
    Alike (taken ++ rest) (taken ++ rest') := by
  show (taken ++ rest').head? = _
  rw [List.head?_append, List.head?_append, show rest'.head? = rest.head? from h]

theorem Alike.nil_iff {rest rest' : List Token} (h : Alike rest rest') :
    rest' = [] ↔ rest = [] := by
  rw [← List.head?_eq_none_iff, ← List.head?_eq_none_iff, show rest'.head? = rest.head? from h]

/-- what `r` gives on no more than `n` tokens, `r'` gives on no more than `n'`, if the tokens that
are taken are the same and those left are as `B` says; what `r` refuses is a fault of parsing -/
structure Reader.Repeats {α : Type} (n n' : ℕ) (B : List Token → List Token → Prop)
    (r r' : Reader α) : Prop where
  takes : Takes r fun _ _ => True
  gives : ∀ ⦃taken rest rest' a⦄, (taken ++ rest).length ≤ n → (taken ++ rest').length ≤ n' →
    B rest rest' → r (taken ++ rest) = .ok a rest → r' (taken ++ rest') = .ok a rest'
  refuses : ∀ ⦃tokens e rest⦄, r tokens = .error e rest → e.IsParse

/-- what `r` gives, `r'` gives in front of tokens that begin in the same way -/
def Reader.RepeatsAll {α : Type} (r r' : Reader α) : Prop := ∀ n n', Repeats n n' Alike r r'

/-- what `r` gives, `r'` gives in front of tokens as `B` says, and it takes a token -/
structure Reader.Closes {α : Type} (B : List Token → List Token → Prop) (r r' : Reader α) :
    Prop where
  repeats : ∀ n n', Repeats n n' B r r'
  takes : Takes r fun _ m => 0 < m

namespace Reader.Repeats

variable {α β : Type} {n n' m m' : ℕ} {B C : List Token → List Token → Prop} {r r' : Reader α}

theorem mono (h : Repeats n n' B r r') (hm : m ≤ n) (hm' : m' ≤ n')
    (hCB : ∀ rest rest', C rest rest' → B rest rest') : Repeats m m' C r r' where
  takes := h.takes
  gives _ _ _ _ hn hn' hC := h.gives (Nat.le_trans hn hm) (Nat.le_trans hn' hm') (hCB _ _ hC)
  refuses := h.refuses

theorem pure (a : α) : Repeats n n' B (Pure.pure a : Reader α) (Pure.pure a) where
  takes := Takes.pure trivial
  gives := by
    intro taken rest rest' b _ _ _ hread
    obtain ⟨rfl, htaken⟩ := EStateM.Result.ok.inj hread
    rw [List.append_left_eq_self.mp htaken, List.nil_append]
    rfl
  refuses := by
    intro tokens e rest hread
    cases hread

theorem bind_of {k k' : α → Reader β} {Q : β → ℕ → Prop} (h : Repeats n n' B r r')
    (hk : Takes r fun a m => Repeats (n - m) (n' - m) C (k a) (k' a) ∧ Takes (k a) Q)
    (hCB : ∀ b taken rest rest', Q b taken.length → C rest rest' →
      B (taken ++ rest) (taken ++ rest')) :
    Repeats n n' C (r >>= k) (r' >>= k') where
  takes := Takes.bind fun _ _ _ hr => by
    obtain ⟨taken, htokens, hka, -⟩ := hk hr
    exact ⟨taken, htokens, hka.takes.mono fun _ _ _ => trivial⟩
  gives taken rest rest' b hn hn' hfront hread := by
    cases hr : r (taken ++ rest) with
    | error e more =>
      rw [bind_error hr] at hread
      cases hread
    | ok a more =>
      rw [bind_ok hr] at hread
      obtain ⟨first, htokens, hka, hQ⟩ := hk hr
      obtain ⟨second, rfl, hsecond⟩ := hQ hread
      rw [← List.append_assoc] at htokens
      obtain rfl := List.append_cancel_right htokens
      rw [List.append_assoc] at hn hn' hr ⊢
      rw [bind_ok (h.gives hn hn' (hCB b second rest rest' hsecond hfront) hr)]
      rw [List.length_append] at hn hn'
      exact hka.gives (by omega) (by omega) hfront hread
  refuses tokens e rest hread := by
    cases hr : r tokens with
    | error e' more =>
      rw [bind_error hr] at hread
      cases hread
      exact h.refuses hr
    | ok a more =>
      rw [bind_ok hr] at hread
      obtain ⟨_, _, hka, -⟩ := hk hr
      exact hka.refuses hread

theorem bind {k k' : α → Reader β} (h : Repeats n n' Alike r r')
    (hk : Takes r fun a m => Repeats (n - m) (n' - m) Alike (k a) (k' a)) :
    Repeats n n' Alike (r >>= k) (r' >>= k') :=
  h.bind_of (Q := fun _ _ => True) (hk.mono fun _ _ hka => ⟨hka, hka.takes⟩)
    fun _ taken _ _ _ hfront => hfront.append taken

/-- the second reader need not be told how many tokens the first took -/
theorem bind_all {k k' : α → Reader β} (h : RepeatsAll r r')
    (hk : ∀ a, Repeats n n' Alike (k a) (k' a)) : Repeats n n' Alike (r >>= k) (r' >>= k') :=
  (h n n').bind <| (h n n').takes.mono fun a m _ =>
    (hk a).mono (Nat.sub_le n m) (Nat.sub_le n' m) fun _ _ => id

theorem map {g : α → β} (h : Repeats n n' B r r') : Repeats n n' B (g <$> r) (g <$> r') where
  takes := Takes.map (h.takes.mono fun _ _ _ => trivial)
  gives := by
    intro taken rest rest' b hn hn' hfront hread
    cases hr : r (taken ++ rest) with
    | error e more =>
      rw [map_error hr] at hread
      cases hread
    | ok a more =>
      rw [map_ok hr] at hread
      obtain ⟨rfl, rfl⟩ := EStateM.Result.ok.inj hread
      exact map_ok (h.gives hn hn' hfront hr) g
  refuses := by
    intro tokens e rest hread
    cases hr : r tokens with
    | error e' more =>
      rw [map_error hr] at hread
      cases hread
      exact h.refuses hr
    | ok a more =>
      rw [map_ok hr] at hread
      cases hread

/-- where the one side or the other has no tokens, both have none -/
theorem of_nil (htakes : Takes r fun _ _ => True)
    (hrefuses : ∀ ⦃tokens e rest⦄, r tokens = .error e rest → e.IsParse)
    (hnil : ∀ a, r [] = .ok a [] → r' [] = .ok a []) (hnone : n = 0 ∨ n' = 0) :
    Repeats n n' Alike r r' where
  takes := htakes
  gives := by
    intro taken rest rest' a hn hn' hfront hread
    have hempty : taken ++ rest = [] ∨ taken ++ rest' = [] := by
      rcases hnone with rfl | rfl
      · exact .inl (List.length_eq_zero_iff.mp (Nat.le_zero.mp hn))
      · exact .inr (List.length_eq_zero_iff.mp (Nat.le_zero.mp hn'))
    rw [(hfront.append taken).nil_iff, or_self] at hempty
    obtain ⟨rfl, rfl⟩ := List.append_eq_nil_iff.mp hempty
    obtain rfl := hfront.nil_iff.mpr rfl
    exact hnil a hread
  refuses := hrefuses

/-- readers that go on as often as they may try, which is no less often than there are tokens; `i`
is what they have got so far -/
theorem upTo {ι : Type} {r q : ι → ℕ → Reader α} (hzero : ∀ i, Repeats 0 0 Alike (r i 0) (q i 0))
    (hnil : ∀ i n n' a, r i n [] = .ok a [] → q i n' [] = .ok a [])
    (hsucc : ∀ i n n', (∀ j, Repeats n n' Alike (r j n) (q j n')) →
      Repeats (n + 1) (n' + 1) Alike (r i (n + 1)) (q i (n' + 1))) (i : ι) (n n' : ℕ) :
    Repeats n n' Alike (r i n) (q i n') := by
  induction n generalizing i n' with
  | zero => exact of_nil (hzero i).takes (hzero i).refuses (hnil i 0 n') (.inl rfl)
  | succ n ih =>
    cases n' with
    | zero =>
      have h := hsucc i n 0 fun j => ih j 0
      exact of_nil h.takes h.refuses (hnil i (n + 1) 0) (.inr rfl)
    | succ n' => exact hsucc i n n' fun j => ih j n'

end Reader.Repeats

namespace Reader.RepeatsAll

variable {α β : Type} {r r' : Reader α}

theorem bind {k k' : α → Reader β} (h : RepeatsAll r r') (hk : ∀ a, RepeatsAll (k a) (k' a)) :
    RepeatsAll (r >>= k) (r' >>= k') :=
  fun n n' => Repeats.bind_all h fun a => hk a n n'

theorem map {g : α → β} (h : RepeatsAll r r') : RepeatsAll (g <$> r) (g <$> r') :=
  fun n n' => (h n n').map

theorem tries {r r' : ℕ → Reader α} (h : ∀ n n', Repeats n n' Alike (r n) (r' n')) :
    RepeatsAll (fun tokens => r tokens.length tokens) fun tokens => r' tokens.length tokens :=
  fun _ _ => {
    takes := Takes.tries fun n => (h n n).takes
    gives := fun taken rest rest' _ _ _ hfront hread =>
      (h (taken ++ rest).length (taken ++ rest').length).gives (Nat.le_refl _) (Nat.le_refl _)
        hfront hread
    refuses := fun tokens _ _ hread => (h tokens.length 0).refuses hread }

/-- a reader that looks at the front and takes it or leaves it -/
theorem of_front {g : Option Token → α} {p : Option Token → Bool}
    (h : ∀ tokens,
      r tokens = .ok (g tokens.head?) (if p tokens.head? then tokens.tail else tokens)) :
    RepeatsAll r r := fun _ _ => {
  takes := by
    intro tokens a rest hread
    rw [h] at hread
    obtain ⟨-, rfl⟩ := EStateM.Result.ok.inj hread
    split
    · cases tokens with
      | nil => exact ⟨[], rfl, trivial⟩
      | cons t tokens => exact ⟨[t], rfl, trivial⟩
    · exact ⟨[], rfl, trivial⟩
  gives := by
    intro taken rest rest' a _ _ hfront hread
    have hhead : (taken ++ rest').head? = (taken ++ rest).head? := hfront.append taken
    rw [h] at hread ⊢
    obtain ⟨rfl, hrest⟩ := EStateM.Result.ok.inj hread
    rw [hhead]
    congr 1
    split at hrest
    · rename_i htake
      rw [if_pos htake]
      cases taken with
      | nil =>
        cases rest with
        | nil => rw [hfront.nil_iff.mpr rfl]; rfl
        | cons t rest => exact absurd (congrArg List.length hrest) (by simp)
      | cons t taken =>
        obtain rfl := List.append_left_eq_self.mp hrest
        rfl
    · rename_i htake
      rw [if_neg htake, List.append_left_eq_self.mp hrest, List.nil_append]
  refuses := by
    intro tokens e rest hread
    rw [h] at hread
    cases hread }

theorem pure (a : α) : RepeatsAll (Pure.pure a : Reader α) (Pure.pure a) :=
  fun _ _ => Repeats.pure a

theorem front : RepeatsAll front? front? :=
  of_front (g := id) (p := fun _ => false) fun _ => rfl

theorem kind : RepeatsAll kind? kind? :=
  of_front (g := Option.map Token.kind) (p := fun _ => false) fun _ => rfl

theorem skip : RepeatsAll skip skip :=
  of_front (g := fun _ => ()) (p := fun _ => true) fun _ => rfl

theorem skipIf (k : Kind) : RepeatsAll (skipIf k) (skipIf k) := by
  refine of_front (g := fun t? => t?.any (·.kind == k)) (p := fun t? => t?.any (·.kind == k))
    fun tokens => ?_
  cases tokens with
  | nil => rfl
  | cons t tokens =>
    by_cases hk : t.kind = k
    · rw [skipIf_ok hk]
      simp [hk]
    · rw [skipIf_of_ne hk]
      simp [hk]

end Reader.RepeatsAll

namespace Reader.Repeats

variable {α β : Type} {n n' : ℕ} {B : List Token → List Token → Prop}

theorem of_error {r r' : Reader α}
    (h : ∀ tokens, ∃ e rest, r tokens = .error e rest ∧ e.IsParse) : Repeats n n' B r r' where
  takes := by
    intro tokens a rest hread
    obtain ⟨e, more, herror, -⟩ := h tokens
    rw [herror] at hread
    cases hread
  gives := by
    intro taken rest rest' a _ _ _ hread
    obtain ⟨e, more, herror, -⟩ := h (taken ++ rest)
    rw [herror] at hread
    cases hread
  refuses := by
    intro tokens e rest hread
    obtain ⟨e, more, herror, he⟩ := h tokens
    rw [herror] at hread
    cases hread
    exact he

theorem throw {fault : ParseFault} {found : String} {position : ℕ} {r' : Reader α} :
    Repeats n n' B (MonadExcept.throw (.parse fault found position)) r' :=
  of_error fun tokens => ⟨_, tokens, rfl, _, _, _, rfl⟩

theorem refuse (fault : ParseFault) (token : Token) {r' : Reader α} :
    Repeats n n' B (refuse fault token) r' := throw

theorem next (finish finish' : ℕ) : Repeats n n' B (next finish) (next finish') where
  takes := Takes.next fun _ => trivial
  gives := by
    intro taken rest rest' t _ _ _ hread
    obtain ⟨taken', htokens, hlength⟩ :=
      (Takes.next (R := fun _ m => m = 1) fun _ => rfl) hread
    obtain rfl := List.append_cancel_right htokens
    obtain ⟨t', rfl⟩ := List.length_eq_one_iff.mp hlength
    cases hread
    rfl
  refuses := by
    intro tokens e rest hread
    cases tokens with
    | nil => cases hread; exact ⟨_, _, _, rfl⟩
    | cons t tokens => cases hread

theorem expect (finish finish' : ℕ) (fault : String → ParseFault) (k : Kind) :
    Repeats n n' B (expect finish fault k) (expect finish' fault k) := by
  refine (next (B := fun _ _ => True) finish finish').bind_of (Q := fun _ _ => True)
    (Takes.next fun t => ?_) fun _ _ _ _ _ _ => trivial
  split
  · exact ⟨pure (), Takes.pure trivial⟩
  · exact ⟨refuse _ _, Takes.refuse _ _⟩

end Reader.Repeats

/-- what a reader gives again and again, as long as whatever it finds takes a token -/
theorem Reader.RepeatsAll.repeated {α : Type} {step step' : Reader (Option α)}
    (h : RepeatsAll step step') (hnil : step [] = .ok none [])
    (hsome : Takes step fun a? n => a?.isSome → 0 < n) :
    RepeatsAll (repeated step) (repeated step') := by
  have hnil' : step' [] = .ok none [] := by
    have hlength : ([] : List Token).length ≤ 0 := Nat.le_refl 0
    exact (h 0 0).gives hlength hlength rfl (show step ([] ++ []) = .ok none [] from hnil)
  have tried {step : Reader (Option α)} (hnil : step [] = .ok none []) (n : ℕ) :
      repeatedUpTo step n [] = .ok [] [] := by
    cases n with
    | zero => rfl
    | succ n => exact bind_ok hnil _
  refine tries fun n n' => Repeats.upTo (r := fun _ => repeatedUpTo step)
    (q := fun _ => repeatedUpTo step') (fun _ => .pure []) ?_ ?_ () n n'
  · intro _ n n' as has
    rw [tried hnil] at has
    rw [tried hnil', has]
  · intro _ n n' ih
    refine (h (n + 1) (n' + 1)).bind (hsome.mono fun a? m hm => ?_)
    cases a? with
    | none => exact .pure []
    | some a =>
      have hpos := hm rfl
      exact (Repeats.map (ih ())).mono (by omega) (by omega) fun _ _ => id

namespace Reader.Closes

variable {α β : Type} {B : List Token → List Token → Prop} {r r' : Reader α} {k k' : α → Reader β}

theorem next (finish finish' : ℕ) : Closes B (next finish) (next finish') where
  repeats _ _ := Repeats.next finish finish'
  takes := Takes.next fun _ => Nat.zero_lt_one

theorem expect (finish finish' : ℕ) (fault : String → ParseFault) (k : Kind) :
    Closes B (expect finish fault k) (expect finish' fault k) where
  repeats _ _ := Repeats.expect finish finish' fault k
  takes := Takes.expect Nat.zero_lt_one

theorem throw {fault : ParseFault} {found : String} {position : ℕ} {r' : Reader α} :
    Closes B (MonadExcept.throw (.parse fault found position)) r' where
  repeats _ _ := Repeats.throw
  takes := Takes.throw _

theorem refuse (fault : ParseFault) (token : Token) {r' : Reader α} :
    Closes B (refuse fault token) r' := throw

theorem bind (h : Closes (fun _ _ => True) r r') (hk : ∀ a n n', Repeats n n' B (k a) (k' a)) :
    Closes B (r >>= k) (r' >>= k') where
  repeats n n' := (h.repeats n n').bind_of (Q := fun _ _ => True)
    (h.takes.mono fun a _ _ => ⟨hk a _ _, (hk a 0 0).takes⟩) fun _ _ _ _ _ _ => trivial
  takes := Takes.bind <| h.takes.mono fun a _ hm =>
    (hk a 0 0).takes.mono fun _ _ _ => Nat.lt_add_right _ hm

/-- a reader in front of one that takes a token sees nothing of what is behind both -/
theorem of_bind (h : RepeatsAll r r') (hk : ∀ a, Closes B (k a) (k' a)) :
    Closes B (r >>= k) (r' >>= k') where
  repeats n n' := by
    refine (h n n').bind_of ((h n n').takes.mono fun a m _ =>
      ⟨(hk a).repeats (n - m) (n' - m), (hk a).takes⟩) ?_
    intro b taken rest rest' htaken _
    cases taken with
    | nil => cases htaken
    | cons t taken => rfl
  takes := Takes.bind <| (h 0 0).takes.mono fun a m _ =>
    (hk a).takes.mono fun _ _ h => Nat.lt_add_left m h

end Reader.Closes
end Token
end PathQuery
