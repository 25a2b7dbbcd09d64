import PathQuery.Proofs.Filter.Reading
import PathQuery.Proofs.Token.Yields

/-!
# The grammar of filter expressions

    or          ::= or '||' and | and
    and         ::= and '&&' comparison | comparison
    comparison  ::= comparison OPERATOR unary | unary
    unary       ::= '!' unary | primary
    primary     ::= '(' or ')' | '@' ('.' WORD | '[' STRING ']')* | LITERAL
                  | NAME '(' [or (',' or)*] ')'

The grammar is left recursive, and the readers climb from precedence to precedence instead.

* `Derives`                the grammar;
* `Derives.parses`         tokens that the grammar derives are read so, if there is room for them;
* `yields_expression`      whatever is read, the grammar derives.
-/

namespace PathQuery.Filter
open Token Token.Reader

/-- the levels of the grammar, from the loosest on -/
inductive Tier where
  | or
  | and
  | comparison
  | unary
  | primary

/-- the least precedence of the operators that stand outside all parentheses -/
def Tier.precedence : Tier → ℕ
  | or => 1
  | and => 2
  | comparison => 3
  | unary => tightest
  | primary => tightest

/-- the level of the expressions that an operator makes -/
def Tier.ofOperator : Operator → Tier
  | .known .or => or
  | .known .and => and
  | _ => comparison

theorem Tier.precedence_ofOperator (op : Operator) :
    (Tier.ofOperator op).precedence = op.precedence := by
  cases op with
  | custom name => rfl
  | known k => cases k <;> rfl

/-- the tokens derive the expression at that level -/
inductive Derives : Tier → List Kind → Filter → Prop
  | or {ks ls : List Kind} {f g : Filter} (left : Derives .or ks f) (right : Derives .and ls g) :
      Derives .or (ks ++ .operator .or :: ls) (.binary (.known .or) f g)
  | ofAnd {ks : List Kind} {f : Filter} (h : Derives .and ks f) : Derives .or ks f
  | and {ks ls : List Kind} {f g : Filter} (left : Derives .and ks f)
      (right : Derives .comparison ls g) :
      Derives .and (ks ++ .operator .and :: ls) (.binary (.known .and) f g)
  | ofComparison {ks : List Kind} {f : Filter} (h : Derives .comparison ks f) : Derives .and ks f
  | comparison {op : Operator} {ks ls : List Kind} {f g : Filter} (hop : op.isLogical = false)
      (left : Derives .comparison ks f) (right : Derives .unary ls g) :
      Derives .comparison (ks ++ op.kind :: ls) (.binary op f g)
  | ofUnary {ks : List Kind} {f : Filter} (h : Derives .unary ks f) : Derives .comparison ks f
  | not {ks : List Kind} {f : Filter} (h : Derives .unary ks f) :
      Derives .unary (.not :: ks) (.negation f)
  | ofPrimary {ks : List Kind} {f : Filter} (h : Derives .primary ks f) : Derives .unary ks f
  | group {ks : List Kind} {f : Filter} (h : Derives .or ks f) :
      Derives .primary (.openParen :: ks ++ [.closeParen]) f
  | reference {ks : List Kind} {names : List String} (h : Members ks names) :
      Derives .primary (.current :: ks) (.reference names)
  | literal (value : Literal) : Derives .primary [value.kind] (.literal value)
  | call {name : String} {parts : List (List Kind × Filter)}
      (h : ∀ p ∈ parts, Derives .or p.1 p.2) :
      Derives .primary (.identifier name :: .openParen :: separated parts ++ [.closeParen])
        (.call name (parts.map Prod.snd))

/-! ## from level to level -/

section
variable {t : Tier} {ks : List Kind} {f : Filter}

theorem Derives.to_unary (h : Derives t ks f) (ht : tightest ≤ t.precedence) :
    Derives .unary ks f := by
  cases t with
  | unary => exact h
  | primary => exact .ofPrimary h
  | _ => exact absurd ht (by decide)

theorem Derives.to_comparison (h : Derives t ks f) (ht : 3 ≤ t.precedence) :
    Derives .comparison ks f := by
  cases t with
  | comparison => exact h
  | unary => exact .ofUnary (h.to_unary (Nat.le_refl _))
  | primary => exact .ofUnary (h.to_unary (Nat.le_refl _))
  | _ => exact absurd ht (by decide)

theorem Derives.to_and (h : Derives t ks f) (ht : 2 ≤ t.precedence) : Derives .and ks f := by
  cases t with
  | or => exact absurd ht (by decide)
  | and => exact h
  | _ => exact .ofComparison (h.to_comparison (by decide))

theorem Derives.to_or (h : Derives t ks f) : Derives .or ks f := by
  cases t with
  | or => exact h
  | _ => exact .ofAnd (h.to_and (by decide))

/-- the tokens derive the expression at a level where operators bind at least as tightly as
`least` -/
def DerivesFrom (least : ℕ) (ks : List Kind) (f : Filter) : Prop :=
  ∃ t : Tier, least ≤ t.precedence ∧ Derives t ks f

theorem DerivesFrom.binary {op : Operator} {ls : List Kind} {g : Filter}
    (left : DerivesFrom op.precedence ks f) (right : DerivesFrom (op.precedence + 1) ls g) :
    Derives (.ofOperator op) (ks ++ op.kind :: ls) (.binary op f g) := by
  obtain ⟨t, ht, hf⟩ := left
  obtain ⟨t', ht', hg⟩ := right
  cases op with
  | custom name => exact .comparison rfl (hf.to_comparison ht) (hg.to_unary ht')
  | known k =>
    cases k with
    | or => exact .or hf.to_or (hg.to_and ht')
    | and => exact .and (hf.to_and ht) (hg.to_comparison ht')
    | _ => exact .comparison rfl (hf.to_comparison ht) (hg.to_unary ht')

end

/-! ## tokens that derive an expression -/

theorem Derives.front {t : Tier} {ks : List Kind} {f : Filter} (h : Derives t ks f) :
    ∃ k ls, ks = k :: ls ∧ k ≠ .closeParen := by
  have append {ks ls : List Kind} (h : ∃ k ks', ks = k :: ks' ∧ k ≠ Kind.closeParen) :
      ∃ k ks', ks ++ ls = k :: ks' ∧ k ≠ Kind.closeParen := by
    obtain ⟨k, ks', rfl, hk⟩ := h
    exact ⟨k, ks' ++ ls, rfl, hk⟩
  induction h with
  | or _ _ ih _ => exact append ih
  | and _ _ ih _ => exact append ih
  | comparison _ _ _ ih _ => exact append ih
  | ofAnd _ ih => exact ih
  | ofComparison _ ih => exact ih
  | ofUnary _ ih => exact ih
  | ofPrimary _ ih => exact ih
  | literal value => exact ⟨_, [], rfl, by cases value <;> simp [Literal.kind]⟩
  | _ => exact ⟨_, _, rfl, by simp⟩

theorem length_le_separated_of_mem {p : List Kind × Filter} {parts : List (List Kind × Filter)}
    (h : p ∈ parts) : p.1.length ≤ (separated parts).length := by
  induction parts with
  | nil => cases h
  | cons q parts ih =>
    cases parts with
    | nil =>
      rw [List.mem_singleton.mp h, separated_singleton]
    | cons q' parts =>
      rw [separated_cons_cons, List.length_append, List.length_cons]
      rcases List.mem_cons.mp h with rfl | h
      · omega
      · have := ih h
        omega

theorem heights_le_separated {parts : List (List Kind × Filter)}
    (h : ∀ p ∈ parts, p.2.height ≤ p.1.length) :
    heights (parts.map Prod.snd) ≤ (separated parts).length := by
  induction parts with
  | nil => exact Nat.zero_le _
  | cons p parts ih =>
    have hp := h p List.mem_cons_self
    have hmore := ih fun q hq => h q (List.mem_cons_of_mem p hq)
    cases parts with
    | nil =>
      rw [separated_singleton]
      exact max_le hp (Nat.zero_le _)
    | cons q parts =>
      rw [separated_cons_cons, List.length_append, List.length_cons]
      exact max_le (by omega) (hmore.trans (by omega))

theorem Derives.height_le {t : Tier} {ks : List Kind} {f : Filter} (h : Derives t ks f) :
    f.height ≤ ks.length := by
  have binary {op : Operator} {k : Kind} {ks ls : List Kind} {f g : Filter}
      (hf : f.height ≤ ks.length) (hg : g.height ≤ ls.length) :
      (Filter.binary op f g).height ≤ (ks ++ k :: ls).length := by
    rw [List.length_append, List.length_cons]
    exact Nat.succ_le_succ (max_le (hf.trans (Nat.le_add_right _ _))
      (hg.trans (Nat.le_add_left _ _)))
  induction h with
  | or _ _ ih ih' => exact binary ih ih'
  | and _ _ ih ih' => exact binary ih ih'
  | comparison _ _ _ ih ih' => exact binary ih ih'
  | ofAnd _ ih => exact ih
  | ofComparison _ ih => exact ih
  | ofUnary _ ih => exact ih
  | ofPrimary _ ih => exact ih
  | not _ ih => exact Nat.succ_le_succ ih
  | group _ ih =>
    rw [List.length_append, List.length_cons]
    omega
  | reference _ => exact Nat.succ_le_succ (Nat.zero_le _)
  | literal value => exact Nat.le_refl 1
  | @call name parts _ ih =>
    have hargs : heights (parts.map Prod.snd) ≤ (separated parts).length :=
      heights_le_separated ih
    rw [List.length_append, List.length_cons, List.length_cons]
    show heights (parts.map Prod.snd) + 1 ≤ _
    omega

/-! ## what the grammar derives is read -/

/-- the tokens are read as `f` where there is as much room as they are many, and no operator
behind them binds tighter than `p` -/
def Parses (p : ℕ) (ks : List Kind) (f : Filter) : Prop :=
  ∀ ⦃b : Bounds⦄ ⦃room least : ℕ⦄ ⦃tokens rest : List Token⦄, ks.length ≤ room →
    ks.length ≤ b.limit → least ≤ p → tokens.map Token.kind = ks → Follows p rest →
    Reads b f room least tokens rest

theorem Parses.mono {p q : ℕ} {ks : List Kind} {f : Filter} (h : Parses q ks f) (hpq : p ≤ q) :
    Parses p ks f :=
  fun _ _ _ _ _ hroom hlimit hleast htokens hrest =>
    h hroom hlimit (hleast.trans hpq) htokens (hrest.mono hpq)

theorem Parses.whole {p : ℕ} {ks : List Kind} {f : Filter} (h : Parses p ks f) (hp : 1 ≤ p)
    {b : Bounds} {room : ℕ} (hroom : ks.length ≤ room) (hlimit : ks.length ≤ b.limit) :
    Whole b room ks f :=
  fun _ _ htokens hrest =>
    (h hroom hlimit hp htokens (hrest p)).level_ok (hrest 0) Nat.zero_lt_one

theorem Parses.binary {op : Operator} {q : ℕ} {ks ls : List Kind} {f g : Filter}
    (left : Parses op.precedence ks f) (right : Parses q ls g) (hq : op.precedence < q)
    (hheight : (Filter.binary op f g).height ≤ (ks ++ op.kind :: ls).length) :
    Parses op.precedence (ks ++ op.kind :: ls) (.binary op f g) := by
  intro b room least tokens rest hroom hlimit hleast htokens hrest
  rw [List.map_eq_append_iff] at htokens
  obtain ⟨ts, us, rfl, hts, htokens⟩ := htokens
  rw [List.map_eq_cons_iff] at htokens
  obtain ⟨u, us, rfl, hu, hus⟩ := htokens
  have hheight' := hheight.trans hlimit
  rw [List.length_append, List.length_cons] at hroom hlimit
  obtain ⟨room, rfl⟩ : ∃ r, room = r + 1 := ⟨room - 1, by omega⟩
  refine Reads.binary hu (left ?_ ?_ hleast hts (Follows.operator_token hu (us ++ rest)))
    (right ?_ ?_ hq hus (hrest.mono hq.le)) hleast hrest hheight' <;> omega

/-- **Tokens that the grammar derives are read so.** -/
theorem Derives.parses {t : Tier} {ks : List Kind} {f : Filter} (h : Derives t ks f) :
    Parses t.precedence ks f := by
  induction h with
  | or hl hr ih ih' =>
    exact @Parses.binary (.known .or) _ _ _ _ _ ih ih' (by decide) (Derives.or hl hr).height_le
  | and hl hr ih ih' =>
    exact @Parses.binary (.known .and) _ _ _ _ _ ih ih' (by decide) (Derives.and hl hr).height_le
  | @comparison op ks ls f g hop hl hr ih ih' =>
    have hp : op.precedence = Tier.comparison.precedence := by
      cases op with
      | custom name => rfl
      | known k => cases k <;> first | rfl | cases hop
    rw [← hp] at ih ⊢
    refine Parses.binary ih ih' ?_ (Derives.comparison hop hl hr).height_le
    rw [hp]
    decide
  | ofAnd _ ih => exact ih.mono (by decide)
  | ofComparison _ ih => exact ih.mono (by decide)
  | ofUnary _ ih => exact ih.mono (by decide)
  | ofPrimary _ ih => exact ih
  | not h ih =>
    intro b room least tokens rest hroom hlimit hleast htokens hrest
    have hheight := (Derives.not h).height_le.trans hlimit
    rw [List.length_cons] at hroom hlimit
    obtain ⟨room, rfl⟩ : ∃ r, room = r + 1 := ⟨room - 1, by omega⟩
    rw [List.map_eq_cons_iff] at htokens
    obtain ⟨t, ts, rfl, ht, hts⟩ := htokens
    exact Reads.negation ht (ih (by omega) (by omega) (Nat.le_refl _) hts hrest) hrest hheight
  | group h ih =>
    intro b room least tokens rest hroom hlimit hleast htokens hrest
    rw [List.length_append, List.length_cons] at hroom hlimit
    obtain ⟨room, rfl⟩ : ∃ r, room = r + 1 := ⟨room - 1, by omega⟩
    exact Reads.group (ih.whole (Nat.le_refl 1) (by omega) (by omega)) htokens
  | reference h =>
    intro b room least tokens rest hroom hlimit hleast htokens hrest
    exact Reads.reference h htokens hrest
  | literal value =>
    intro b room least tokens rest hroom hlimit hleast htokens hrest
    exact Reads.literal htokens
  | @call name parts h ih =>
    intro b room least tokens rest hroom hlimit hleast htokens hrest
    have hheight := (@Derives.call name parts h).height_le.trans hlimit
    rw [List.length_append, List.length_cons, List.length_cons] at hroom hlimit
    obtain ⟨room, rfl⟩ : ∃ r, room = r + 1 := ⟨room - 1, by omega⟩
    refine Reads.call (fun p hp => ⟨(h p hp).front, ?_⟩) htokens hheight
    have hlen := length_le_separated_of_mem hp
    exact (ih p hp).whole (Nat.le_refl 1) (by omega) (by omega)

/-! ## what is read, the grammar derives -/

/-- some of the tokens in front derive the expression, the others are left -/
def Spans (t : Tier) (before : List Kind) (f : Filter) (rest : List Kind) : Prop :=
  ∃ ks, before = ks ++ rest ∧ Derives t ks f

/-- no operator in front binds as tightly as `least` -/
def Looser (least : ℕ) (rest : List Kind) : Prop :=
  ∀ k ∈ rest.head?, ∀ op, k.operator? = some op → op.precedence < least

/-- what the reader of expressions gives whose operators bind at least as tightly as `least` -/
def SpansFrom (least : ℕ) (before : List Kind) (m : Measured) (rest : List Kind) : Prop :=
  Looser least rest ∧ ∃ ks, before = ks ++ rest ∧ DerivesFrom least ks m.filter

/-- the reader one level further in keeps to the grammar -/
def Sound (inner : Inner) : Prop :=
  ∀ reader ∈ inner, ∀ least ≤ tightest, ∀ before,
    Yields before (reader least) (SpansFrom least before)

section
variable {b : Bounds} {inner : Inner} {before : List Kind}

theorem yields_tooDeep {α : Type} {position : ℕ} {Q : α → List Kind → Prop} :
    Yields before (tooDeep b position) Q :=
  Yields.bind (Yields.front fun _ _ => Yields.throw _)

theorem yields_enter (h : Sound inner) (position : ℕ) :
    Yields before (enter b position inner) fun reader rest => rest = before ∧
      ∀ least ≤ tightest, ∀ before, Yields before (reader least) (SpansFrom least before) := by
  cases inner with
  | none => exact yields_tooDeep
  | some reader => exact Yields.pure ⟨rfl, h reader rfl⟩

theorem yields_checked {position : ℕ} {m : Measured} {Q : Measured → List Kind → Prop}
    (h : Q m before) : Yields before (checked b position m) Q := by
  unfold checked
  split
  · exact yields_tooDeep
  · exact Yields.pure h

/-! ### operands -/

theorem yields_member :
    Yields before (member? b) fun name? rest =>
      match name? with
      | some name => ∃ ks, before = ks ++ rest ∧ Member ks name
      | none => rest = before := by
  unfold member?
  refine Yields.bind (Yields.kind ?_)
  split
  · rename_i hdot
    refine Yields.bind (Yields.skip (Yields.bind (Yields.next fun t rest ht => ?_)))
    obtain ⟨ks, rfl⟩ : ∃ ks, before = .dot :: ks := ⟨_, List.eq_cons_of_mem_head? hdot⟩
    split
    · rename_i name hword
      exact Yields.pure ⟨[.dot, t.kind], congrArg (Kind.dot :: ·) ht, .word hword⟩
    · exact Yields.refuse _ _
  · rename_i hbracket
    refine Yields.bind (Yields.skip (Yields.bind (Yields.next fun t rest ht => ?_)))
    obtain ⟨ks, rfl⟩ : ∃ ks, before = .openBracket :: ks := ⟨_, List.eq_cons_of_mem_head? hbracket⟩
    split
    · rename_i name htext
      refine Yields.bind (Yields.expect fun rest' hrest => Yields.pure ?_)
      rw [htext, hrest] at ht
      exact ⟨[.openBracket, .text name, .closeBracket], congrArg (Kind.openBracket :: ·) ht,
        .quoted name⟩
    · exact Yields.refuse _ _
  · exact Yields.pure rfl

theorem yields_members (tries : ℕ) :
    Yields before (repeatedUpTo (member? b) tries) fun names rest =>
      ∃ ks, before = ks ++ rest ∧ Members ks names := by
  induction tries generalizing before with
  | zero => exact Yields.pure ⟨[], rfl, .nil⟩
  | succ tries ih =>
    refine Yields.bind (yields_member.mono fun name? mid hname => ?_)
    cases name? with
    | none => exact Yields.pure ⟨[], hname.symm, .nil⟩
    | some name =>
      obtain ⟨ks, rfl, hname⟩ := hname
      refine Yields.map (ih.mono fun names rest hnames => ?_)
      obtain ⟨ls, rfl, hnames⟩ := hnames
      exact ⟨ks ++ ls, (List.append_assoc ks ls rest).symm, .cons hname hnames⟩

structure SpansAll (before : List Kind) (parts : List (List Kind × Filter)) (ms : List Measured)
    (rest : List Kind) : Prop where
  tokens : before = separated parts ++ rest
  filters : ms.map Measured.filter = parts.map Prod.snd
  derive : ∀ p ∈ parts, Derives .or p.1 p.2

theorem yields_argumentsUpTo {argument : Reader Measured}
    (h : ∀ before, Yields before argument (SpansFrom 1 before)) (tries : ℕ) :
    Yields before (argumentsUpTo argument tries) fun ms rest =>
      ∃ p parts, SpansAll before (p :: parts) ms rest := by
  have single {before rest : List Kind} {m : Measured} (hm : SpansFrom 1 before m rest) :
      ∃ p parts, SpansAll before (p :: parts) [m] rest := by
    obtain ⟨-, ks, rfl, t, -, hm⟩ := hm
    refine ⟨(ks, m.filter), [], by rw [separated_singleton], rfl, fun p hp => ?_⟩
    rw [List.mem_singleton.mp hp]
    exact hm.to_or
  induction tries generalizing before with
  | zero => exact Yields.map ((h before).mono fun m rest hm => single hm)
  | succ tries ih =>
    refine Yields.bind ((h before).mono fun m mid hm => Yields.bind (Yields.skipIf ?_ ?_))
    · rintro mid rfl
      obtain ⟨-, ks, rfl, t, -, hm⟩ := hm
      refine Yields.map (ih.mono fun ms rest hms => ?_)
      obtain ⟨p, parts, hms⟩ := hms
      refine ⟨(ks, m.filter), p :: parts, ?_, congrArg (m.filter :: ·) hms.filters, ?_⟩
      · rw [separated_cons_cons, List.append_assoc, List.cons_append, ← hms.tokens]
      · intro q hq
        rcases List.mem_cons.mp hq with rfl | hq
        · exact hm.to_or
        · exact hms.derive q hq
    · exact Yields.pure (single hm)

theorem yields_arguments {argument : Reader Measured}
    (h : ∀ before, Yields before argument (SpansFrom 1 before)) :
    Yields before (arguments b argument) fun ms rest =>
      ∃ parts, SpansAll before parts ms (.closeParen :: rest) := by
  unfold arguments
  refine Yields.bind (Yields.skipIf ?_ ?_)
  · rintro rest rfl
    exact Yields.pure ⟨[], rfl, rfl, fun p hp => by cases hp⟩
  · refine Yields.bind (Yields.mono (Yields.tries (yields_argumentsUpTo h _)) fun ms mid hms => ?_)
    obtain ⟨p, parts, hms⟩ := hms
    refine Yields.bind (Yields.expect fun rest hrest => Yields.pure ⟨p :: parts, ?_⟩)
    rwa [hrest] at hms

theorem yields_callOf (h : Sound inner) (name : String) (position : ℕ) :
    Yields before (callOf b inner name position) fun m rest =>
      Spans .primary (.identifier name :: .openParen :: before) m.filter rest := by
  refine Yields.bind ((yields_enter h position).mono ?_)
  rintro reader _ ⟨rfl, hreader⟩
  refine Yields.bind ((yields_arguments (hreader 1 (by decide))).mono fun ms rest hms => ?_)
  obtain ⟨parts, rfl, hfilters, hparts⟩ := hms
  refine yields_checked ?_
  rw [hfilters]
  exact ⟨_, by simp, .call hparts⟩

theorem yields_group (h : Sound inner) (position : ℕ) :
    Yields before (group b inner position) fun m rest =>
      Spans .primary (.openParen :: before) m.filter rest := by
  refine Yields.bind ((yields_enter h position).mono ?_)
  rintro reader _ ⟨rfl, hreader⟩
  refine Yields.bind ((hreader 1 (by decide) _).mono fun m mid hm => ?_)
  obtain ⟨-, ks, rfl, t, -, hm⟩ := hm
  refine Yields.bind (Yields.expect fun rest hrest => Yields.pure ?_)
  exact ⟨_, by rw [hrest]; simp, .group hm.to_or⟩

/-- what begins with a token that is not `!`, from behind that token on -/
theorem yields_primary (h : Sound inner) (token : Token) :
    Yields before (primary b inner token) fun m rest =>
      Spans .primary (token.kind :: before) m.filter rest := by
  have literal (value : Literal) : Yields before (ofLiteral value) fun m rest =>
      Spans .primary (value.kind :: before) m.filter rest :=
    Yields.pure ⟨_, rfl, .literal value⟩
  unfold primary
  cases hk : token.kind with
  | current =>
    refine Yields.map (Yields.mono (Yields.tries (yields_members _)) fun names rest hnames => ?_)
    obtain ⟨ks, rfl, hnames⟩ := hnames
    exact ⟨_, rfl, .reference hnames⟩
  | openParen => exact yields_group h token.position
  | identifier name =>
    refine Yields.bind (Yields.skipIf ?_ ?_)
    · rintro rest rfl
      exact yields_callOf h name token.position
    · exact Yields.refuse _ _
  | text value => exact literal (.text value)
  | integer value => exact literal (.integer value)
  | float value => exact literal (.float value)
  | bool value => exact literal (.bool value)
  | null => exact literal .null
  | _ => exact Yields.refuse _ _

theorem yields_operand (h : Sound inner) :
    Yields before (operand b inner) fun m rest => Spans .unary before m.filter rest := by
  refine Yields.bind (Yields.next fun token mid hmid => ?_)
  rw [hmid]
  split
  · rename_i hnot
    refine Yields.bind ((yields_enter h token.position).mono ?_)
    rintro reader _ ⟨rfl, hreader⟩
    refine Yields.bind ((hreader tightest (Nat.le_refl _) _).mono fun m rest hm => ?_)
    obtain ⟨-, ks, rfl, t, ht, hm⟩ := hm
    refine yields_checked ⟨_, ?_, .not (hm.to_unary ht)⟩
    rw [hnot, List.cons_append]
  · refine (yields_primary h token).mono fun m rest hm => ?_
    obtain ⟨ks, hks, hm⟩ := hm
    exact ⟨ks, hks, .ofPrimary hm⟩

/-! ### operators -/

theorem yields_operator (least : ℕ) :
    Yields before (operator? least) fun found rest =>
      match found with
      | some (op, _) => before = op.kind :: rest ∧ least ≤ op.precedence
      | none => rest = before ∧ Looser least before := by
  intro tokens found rest hbefore hread
  subst hbefore
  unfold operator? at hread
  cases tokens with
  | nil =>
    cases hread
    exact ⟨rfl, fun k hk => by cases hk⟩
  | cons t tokens =>
    have loose (hlow : ∀ op, t.kind.operator? = some op → op.precedence < least) :
        Looser least (t.kind :: tokens.map Token.kind) := by
      intro k hk
      cases hk
      exact hlow
    dsimp only at hread
    cases hop : t.kind.operator? with
    | none =>
      rw [hop] at hread
      cases hread
      exact ⟨rfl, loose fun op hop' => by rw [hop] at hop'; cases hop'⟩
    | some op =>
      rw [hop] at hread
      dsimp only at hread
      split at hread
      · rename_i hle
        cases hread
        refine ⟨?_, hle⟩
        rw [List.map_cons]
        cases hk : t.kind <;> rw [hk] at hop <;> cases hop <;> rfl
      · rename_i hlt
        cases hread
        refine ⟨rfl, loose fun op' hop' => ?_⟩
        rw [hop] at hop'
        cases hop'
        exact Nat.not_le.mp hlt

/-- The tokens `ks` have been read as `left`. An operator in front binds no tighter than those of
`left`, so that it takes all of it as its left operand. -/
theorem yields_chainUpTo (h : Sound inner) {least tries : ℕ} {left : Measured} {t : Tier}
    {ks : List Kind} (hleft : Derives t ks left.filter)
    (ht : least ≤ t.precedence) (hfront : Looser (t.precedence + 1) before)
    (htries : before.length ≤ tries) :
    Yields before (chainUpTo b inner least tries left) (SpansFrom least (ks ++ before)) := by
  induction tries generalizing before left t ks with
  | zero =>
    have hnil : before = [] := List.length_eq_zero_iff.mp (Nat.le_zero.mp htries)
    subst hnil
    exact Yields.pure ⟨fun k hk => (by cases hk), ks, rfl, t, ht, hleft⟩
  | succ tries ih =>
    refine Yields.bind ((yields_operator least).mono fun found mid hfound => ?_)
    cases found with
    | none =>
      obtain ⟨rfl, hloose⟩ := hfound
      exact Yields.pure ⟨hloose, ks, rfl, t, ht, hleft⟩
    | some found =>
      obtain ⟨op, position⟩ := found
      obtain ⟨rfl, hop⟩ := hfound
      have hopt : op.precedence ≤ t.precedence :=
        Nat.le_of_lt_succ (hfront op.kind rfl op (operator_kind op))
      refine Yields.bind ((yields_enter h position).mono ?_)
      rintro reader _ ⟨rfl, hreader⟩
      have hlt := precedence_lt op
      refine Yields.bind ((hreader (op.precedence + 1) hlt _).mono fun right rest hright => ?_)
      obtain ⟨hloose, ls, rfl, hright⟩ := hright
      refine Yields.bind (yields_checked ?_)
      have hjoined := DerivesFrom.binary ⟨t, hopt, hleft⟩ hright
      have hp := Tier.precedence_ofOperator op
      rw [List.length_cons, List.length_append] at htries
      refine Yields.mono (ih (t := .ofOperator op) hjoined ?_ ?_ ?_) fun m rest' hm => ?_
      · rw [hp]
        exact hop
      · rw [hp]
        exact hloose
      · omega
      · simpa using hm

theorem yields_level (h : Sound inner) {least : ℕ} (hleast : least ≤ tightest) :
    Yields before (level b inner least) (SpansFrom least before) := by
  refine Yields.bind ((yields_operand h).mono fun left mid hleft => ?_)
  obtain ⟨ks, rfl, hleft⟩ := hleft
  have hfront : Looser (Tier.unary.precedence + 1) mid :=
    fun k _ op _ => (precedence_lt op).trans (Nat.lt_succ_self _)
  exact Yields.tries (r := fun n => chainUpTo b inner least n left)
    (yields_chainUpTo h hleft hleast hfront (Nat.le_refl _))

/-- **Whatever is read as an expression, the grammar derives.** -/
theorem yields_expression (room : ℕ) {least : ℕ} (hleast : least ≤ tightest) :
    Yields before (expression b room least) (SpansFrom least before) := by
  induction room generalizing before least with
  | zero => exact yields_level (fun reader hreader => by cases hreader) hleast
  | succ room ih =>
    refine yields_level (fun reader hreader least hleast before => ?_) hleast
    cases hreader
    exact ih hleast

theorem yields_read (limit finish : ℕ) :
    Yields before (read limit finish) fun f rest => Spans .or before f rest := by
  refine Yields.map ((yields_expression limit (by decide)).mono fun m rest hm => ?_)
  obtain ⟨-, ks, hks, t, -, hm⟩ := hm
  exact ⟨ks, hks, hm.to_or⟩

end

end PathQuery.Filter
