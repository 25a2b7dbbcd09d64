import PathQuery.Proofs.Filter.Reading

/-!
# Counting levels while reading

The readers of expressions are handed the reader for the next level in. Instead they could keep a
counter of the level at which they stand: it goes up where an expression begins that stands one
level further in, is compared with the limit there, and goes down where that expression ends.

* `Station`, `Counter`     readers that keep such a counter;
* `within`                 one level further in, and back;
* `countedExpression`      an expression read so;
* `Mirrors`                such a reader gives the same, and its counter is back where it was;
* `mirrors_expression`     all readers of expressions are mirrored.
-/

namespace PathQuery.Filter
open Token Token.Reader

/-- the tokens that are left, and the level at which the reader stands -/
structure Station where
  tokens : List Token
  depth : ℕ

/-- a reader that keeps the level at which it stands -/
abbrev Counter := EStateM PathError Station

def onLevel {α : Type} (r : Reader α) : Counter α := fun s =>
  match r s.tokens with
  | .ok a rest => .ok a ⟨rest, s.depth⟩
  | .error e rest => .error e ⟨rest, s.depth⟩

/-- goes one level further in, if the limit allows it -/
def goIn (b : Bounds) (position : ℕ) : Counter Unit := do
  modify fun s => ⟨s.tokens, s.depth + 1⟩
  let s ← get
  if b.limit < s.depth then onLevel (tooDeep b position)

def goOut : Counter Unit := modify fun s => ⟨s.tokens, s.depth - 1⟩

/-- what stands one level further in; an error ends it on that level -/
def within {α : Type} (b : Bounds) (position : ℕ) (c : Counter α) : Counter α := do
  goIn b position
  let a ← c
  goOut
  pure a

/-! ## the readers -/

section
variable (b : Bounds) (inside : ℕ → Counter Measured)

def countedArgumentsUpTo : (tries : ℕ) → Counter (List Measured)
  | 0 => (fun m => [m]) <$> inside 1
  | tries + 1 => do
    let m ← inside 1
    if ← onLevel (skipIf .comma) then (m :: ·) <$> countedArgumentsUpTo tries
    else pure [m]

def countedArguments : Counter (List Measured) := do
  if ← onLevel (skipIf .closeParen) then pure []
  else
    let ms ← fun s => countedArgumentsUpTo inside s.tokens.length s
    onLevel (expect b.finish .expectedInFilter .closeParen)
    pure ms

def countedCall (name : String) (position : ℕ) : Counter Measured := do
  let args ← within b position (countedArguments b inside)
  onLevel <| checked b position
    ⟨.call name (args.map Measured.filter), args.foldl (fun h m => max h m.height) 0 + 1⟩

def countedGroup (position : ℕ) : Counter Measured := do
  let m ← within b position (inside 1)
  onLevel (expect b.finish .expectedInFilter .closeParen)
  pure m

/-- what begins with a token that is not `!`; all but groups and calls stays on its level -/
def countedPrimary (token : Token) : Counter Measured :=
  match token.kind with
  | .openParen => countedGroup b inside token.position
  | .identifier name => do
    if ← onLevel (skipIf .openParen) then countedCall b inside name token.position
    else onLevel (refuse .bareName token)
  | _ => onLevel (primary b none token)

def countedOperand : Counter Measured := do
  let token ← onLevel (next b.finish)
  if token.kind = .not then
    let m ← within b token.position (inside tightest)
    onLevel (checked b token.position ⟨.negation m.filter, m.height + 1⟩)
  else countedPrimary b inside token

def countedChainUpTo (least : ℕ) : (tries : ℕ) → (left : Measured) → Counter Measured
  | 0, left => pure left
  | tries + 1, left => do
    match ← onLevel (operator? least) with
    | none => pure left
    | some (op, position) =>
      let right ← within b position (inside (op.precedence + 1))
      let joined ← onLevel <| checked b position
        ⟨.binary op left.filter right.filter, max left.height right.height + 1⟩
      countedChainUpTo least tries joined

def countedLevel (least : ℕ) : Counter Measured := do
  let left ← countedOperand b inside
  fun s => countedChainUpTo b inside least s.tokens.length left s

end

/-- an expression whose operators bind at least as tightly as `least`; to read inside it is tried at
most `tries` levels further in -/
def countedExpression (b : Bounds) : (tries : ℕ) → (least : ℕ) → Counter Measured
  | 0, least => countedLevel b (fun _ => onLevel (tooDeep b b.finish)) least
  | tries + 1, least => countedLevel b (countedExpression b tries) least

/-! ## the same answers -/

/-- the same end, with the counter back at `depth` after an answer -/
inductive SameEnd {α : Type} (depth : ℕ) :
    EStateM.Result PathError (List Token) α → EStateM.Result PathError Station α → Prop
  | ok (a : α) (rest : List Token) : SameEnd depth (.ok a rest) (.ok a ⟨rest, depth⟩)
  | error (e : PathError) (rest : List Token) (n : ℕ) :
      SameEnd depth (.error e rest) (.error e ⟨rest, n⟩)

/-- on the level `depth` the reader that counts gives what the other gives, and after an answer it
stands on that level again -/
def Mirrors {α : Type} (depth : ℕ) (c : Counter α) (r : Reader α) : Prop :=
  ∀ tokens, SameEnd depth (r tokens) (c ⟨tokens, depth⟩)

section
variable {α β : Type} {depth : ℕ} {c : Counter α} {r : Reader α}

theorem Mirrors.onLevel (r : Reader α) : Mirrors depth (onLevel r) r := by
  intro tokens
  unfold Filter.onLevel
  dsimp only
  cases r tokens with
  | ok a rest => exact .ok a rest
  | error e rest => exact .error e rest depth

theorem Mirrors.pure (a : α) : Mirrors depth (Pure.pure a : Counter α) (Pure.pure a : Reader α) :=
  fun tokens => .ok a tokens

theorem Mirrors.bind {k : α → Counter β} {k' : α → Reader β} (h : Mirrors depth c r)
    (hk : ∀ a, Mirrors depth (k a) (k' a)) : Mirrors depth (c >>= k) (r >>= k') := by
  intro tokens
  have hsame := h tokens
  show SameEnd depth (EStateM.bind r k' tokens) (EStateM.bind c k ⟨tokens, depth⟩)
  unfold EStateM.bind
  generalize r tokens = x, c ⟨tokens, depth⟩ = y at hsame
  cases hsame with
  | ok a rest => exact hk a rest
  | error e rest n => exact .error e rest n

theorem Mirrors.map (h : Mirrors depth c r) (g : α → β) : Mirrors depth (g <$> c) (g <$> r) := by
  rw [map_eq_pure_bind, map_eq_pure_bind]
  exact h.bind fun a => Mirrors.pure (g a)

theorem Mirrors.tries {c : ℕ → Counter α} {r : ℕ → Reader α} (h : ∀ n, Mirrors depth (c n) (r n)) :
    Mirrors depth (fun s => c s.tokens.length s) fun tokens => r tokens.length tokens :=
  fun tokens => h tokens.length tokens

end

/-- at the level `depth` the reader `inside` stands for the one for the next level in, if there is
one -/
def StandsFor (b : Bounds) (depth : ℕ) (inside : ℕ → Counter Measured) : Inner → Prop
  | none => b.limit ≤ depth
  | some reader => depth < b.limit ∧ ∀ least, Mirrors (depth + 1) (inside least) (reader least)

section
variable {b : Bounds} {depth : ℕ} {inside : ℕ → Counter Measured} {inner : Inner}

theorem goIn_full (h : b.limit ≤ depth) (position : ℕ) (tokens : List Token) :
    goIn b position ⟨tokens, depth⟩ = onLevel (tooDeep b position) ⟨tokens, depth + 1⟩ := by
  show (if b.limit < depth + 1 then onLevel (tooDeep b position) else pure ()) _ = _
  rw [if_pos (Nat.lt_succ_of_le h)]

theorem goIn_room (h : depth < b.limit) (position : ℕ) (tokens : List Token) :
    goIn b position ⟨tokens, depth⟩ = .ok () ⟨tokens, depth + 1⟩ := by
  show (if b.limit < depth + 1 then onLevel (tooDeep b position) else pure ()) _ = _
  rw [if_neg (by omega)]
  rfl

/-- the counter goes up and down again where the readers use the one for the next level in -/
theorem mirrors_within {α : Type} (h : StandsFor b depth inside inner) (position : ℕ)
    {c : Counter α} {k : (ℕ → Reader Measured) → Reader α}
    (hk : ∀ reader, (∀ least, Mirrors (depth + 1) (inside least) (reader least)) →
      Mirrors (depth + 1) c (k reader)) :
    Mirrors depth (within b position c) (enter b position inner >>= k) := by
  intro tokens
  show SameEnd depth _ (EStateM.bind (goIn b position) _ ⟨tokens, depth⟩)
  unfold EStateM.bind
  cases inner with
  | none =>
    rw [goIn_full h]
    exact .error _ _ _
  | some reader =>
    rw [goIn_room h.1]
    have hsame := hk reader h.2 tokens
    show SameEnd depth (k reader tokens) (EStateM.bind c _ ⟨tokens, depth + 1⟩)
    unfold EStateM.bind
    generalize k reader tokens = x, c ⟨tokens, depth + 1⟩ = y at hsame
    cases hsame with
    | ok a rest => exact .ok a rest
    | error e rest n => exact .error e rest n

theorem mirrors_within_bind {α β : Type} (h : StandsFor b depth inside inner) (position : ℕ)
    {c : Counter α} {k : (ℕ → Reader Measured) → Reader α} {l : α → Counter β} {l' : α → Reader β}
    (hk : ∀ reader, (∀ least, Mirrors (depth + 1) (inside least) (reader least)) →
      Mirrors (depth + 1) c (k reader)) (hl : ∀ a, Mirrors depth (l a) (l' a)) :
    Mirrors depth (within b position c >>= l)
      (enter b position inner >>= fun reader => k reader >>= l') := by
  rw [← bind_assoc]
  exact (mirrors_within h position hk).bind hl

theorem mirrors_argumentsUpTo {argument : Reader Measured}
    (h : Mirrors depth (inside 1) argument) (tries : ℕ) :
    Mirrors depth (countedArgumentsUpTo inside tries) (argumentsUpTo argument tries) := by
  induction tries with
  | zero => exact h.map _
  | succ tries ih =>
    refine h.bind fun m => (Mirrors.onLevel _).bind fun more => ?_
    split
    · exact ih.map _
    · exact Mirrors.pure _

theorem mirrors_arguments {argument : Reader Measured} (h : Mirrors depth (inside 1) argument) :
    Mirrors depth (countedArguments b inside) (arguments b argument) := by
  refine (Mirrors.onLevel _).bind fun closed => ?_
  split
  · exact Mirrors.pure _
  · refine (Mirrors.tries fun n => mirrors_argumentsUpTo h n).bind fun ms => ?_
    exact (Mirrors.onLevel _).bind fun _ => Mirrors.pure _

theorem mirrors_call (h : StandsFor b depth inside inner) (name : String) (position : ℕ) :
    Mirrors depth (countedCall b inside name position) (callOf b inner name position) :=
  mirrors_within_bind h position (fun _ hreader => mirrors_arguments (hreader 1)) fun _ =>
    Mirrors.onLevel _

theorem mirrors_group (h : StandsFor b depth inside inner) (position : ℕ) :
    Mirrors depth (countedGroup b inside position) (group b inner position) :=
  mirrors_within_bind h position (fun _ hreader => hreader 1) fun m =>
    (Mirrors.onLevel _).bind fun _ => Mirrors.pure m

/-- what begins neither a group nor a call is read without looking further in -/
theorem primary_eq {token : Token} (hgroup : token.kind ≠ .openParen)
    (hcall : ∀ name, token.kind ≠ .identifier name) (inner : Inner) :
    primary b inner token = primary b none token := by
  unfold primary
  split <;> first | rfl | exact absurd ‹_› hgroup | exact absurd ‹_› (hcall _)

theorem mirrors_primary (h : StandsFor b depth inside inner) (token : Token) :
    Mirrors depth (countedPrimary b inside token) (primary b inner token) := by
  unfold countedPrimary
  split
  · rename_i hk
    unfold primary
    rw [hk]
    exact mirrors_group h token.position
  · rename_i name hk
    unfold primary
    rw [hk]
    refine (Mirrors.onLevel _).bind fun called => ?_
    split
    · exact mirrors_call h name token.position
    · exact Mirrors.onLevel _
  · rename_i hgroup hcall
    rw [primary_eq hgroup hcall inner]
    exact Mirrors.onLevel _

theorem mirrors_operand (h : StandsFor b depth inside inner) :
    Mirrors depth (countedOperand b inside) (operand b inner) := by
  refine (Mirrors.onLevel _).bind fun token => ?_
  split
  · exact mirrors_within_bind h token.position (fun _ hreader => hreader tightest) fun m =>
      Mirrors.onLevel _
  · exact mirrors_primary h token

theorem mirrors_chainUpTo (h : StandsFor b depth inside inner) (least tries : ℕ)
    (left : Measured) : Mirrors depth (countedChainUpTo b inside least tries left)
      (chainUpTo b inner least tries left) := by
  induction tries generalizing left with
  | zero => exact Mirrors.pure left
  | succ tries ih =>
    refine (Mirrors.onLevel _).bind fun found => ?_
    cases found with
    | none => exact Mirrors.pure left
    | some found =>
      obtain ⟨op, position⟩ := found
      refine mirrors_within_bind h position (fun _ hreader => hreader (op.precedence + 1))
        fun right => ?_
      exact (Mirrors.onLevel _).bind fun joined => ih joined

theorem mirrors_level (h : StandsFor b depth inside inner) (least : ℕ) :
    Mirrors depth (countedLevel b inside least) (level b inner least) :=
  (mirrors_operand h).bind fun left => Mirrors.tries fun tries =>
    mirrors_chainUpTo h least tries left

end

/-- what mirrors the expressions of the next level in stands for their reader -/
theorem standsFor_innerOf (b : Bounds) {depth : ℕ} {inside : ℕ → Counter Measured}
    (h : depth < b.limit → ∀ least,
      Mirrors (depth + 1) (inside least) (expression b (b.limit - (depth + 1)) least)) :
    StandsFor b depth inside (innerOf b (b.limit - depth)) := by
  rcases Nat.lt_or_ge depth b.limit with hroom | hfull
  · have hsub : b.limit - depth = b.limit - (depth + 1) + 1 := by omega
    rw [hsub]
    exact ⟨hroom, h hroom⟩
  · rw [Nat.sub_eq_zero_of_le hfull]
    exact hfull

/-- **A counter gives the same answers as the reader for the next level in, and it is back where it
was after each.** It is enough to try as often as the limit allows. -/
theorem mirrors_expression (b : Bounds) {tries depth : ℕ} (h : b.limit ≤ depth + tries)
    (least : ℕ) : Mirrors depth (countedExpression b tries least)
      (expression b (b.limit - depth) least) := by
  induction tries generalizing depth least with
  | zero =>
    have hfull : b.limit ≤ depth := h
    have hnone : StandsFor b depth (fun _ => onLevel (tooDeep b b.finish)) none := hfull
    rw [Nat.sub_eq_zero_of_le hfull]
    exact mirrors_level hnone least
  | succ tries ih =>
    rw [expression_eq]
    exact mirrors_level (standsFor_innerOf b fun _ => ih (by omega)) least

end PathQuery.Filter
