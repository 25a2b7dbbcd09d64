import PathQuery.Filter.Parser
import PathQuery.Proofs.Token.Reader
import PathQuery.Proofs.Filter.Spelling

/-!
# Reading the tokens of filter expressions

The tokens of the canonical text of an expression are read as that expression, whatever stands
behind them, if no operator there binds tighter than those of the expression.

* `tightness`      how tightly an expression holds together;
* `nesting`        how many levels further in its canonical text goes;
* `height`         how many levels it has;
* `Reads`          tokens are read as an expression, and operators may follow;
* `readable`       the tokens of an expression are.
-/

namespace PathQuery.Filter
open Token Token.Reader

/-! ## levels -/

/-- how tightly an expression holds together -/
def tightness (f : Filter) : ℕ := f.precedence?.getD tightest

/-- parentheses lead one level further in -/
def groupNesting (grouped : Bool) (n : ℕ) : ℕ := if grouped then n + 1 else n

mutual
/-- how many levels further in the canonical text of an expression goes: one for parentheses, for
right operands, for what is negated and for arguments -/
def nesting : Filter → ℕ
  | literal _ => 0
  | reference _ => 0
  | binary op left right =>
    max (groupNesting (left.leftGrouped op.precedence) left.nesting)
      (groupNesting (right.rightGrouped op.precedence) right.nesting + 1)
  | negation operand => groupNesting operand.negationGrouped operand.nesting + 1
  | call _ args => nestings args + 1

def nestings : List Filter → ℕ
  | [] => 0
  | f :: rest => max f.nesting (nestings rest)
end

mutual
def height : Filter → ℕ
  | literal _ => 1
  | reference _ => 1
  | binary _ left right => max left.height right.height + 1
  | negation operand => operand.height + 1
  | call _ args => heights args + 1

def heights : List Filter → ℕ
  | [] => 0
  | f :: rest => max f.height (heights rest)
end

def measured (f : Filter) : Measured := ⟨f, f.height⟩

theorem foldl_height (args : List Filter) (n : ℕ) :
    (args.map measured).foldl (fun h m => max h m.height) n = max n (heights args) := by
  induction args generalizing n with
  | nil => exact (Nat.max_zero n).symm
  | cons f args ih =>
    rw [List.map_cons, List.foldl_cons, ih]
    exact Nat.max_assoc n f.height (heights args)

/-- the reader of what stands one level further in when there is room for so many levels -/
def innerOf (b : Bounds) : (room : ℕ) → Inner
  | 0 => none
  | room + 1 => some (expression b room)

theorem expression_eq (b : Bounds) (room least : ℕ) :
    expression b room least = level b (innerOf b room) least := by
  cases room <;> rfl

theorem enter_innerOf (b : Bounds) (room position : ℕ) (tokens : List Token) :
    enter b position (innerOf b (room + 1)) tokens = .ok (expression b room) tokens := rfl

/-! ## what follows an expression -/

/-- nothing in front goes on with an expression whose operators bind at least as tightly as `p` -/
structure Follows (p : ℕ) (rest : List Token) : Prop where
  operator : ∀ t ∈ rest.head?, ∀ op, t.kind.operator? = some op → op.precedence ≤ p
  dot : ∀ t ∈ rest.head?, t.kind ≠ .dot
  bracket : ∀ t ∈ rest.head?, t.kind ≠ .openBracket

theorem Follows.mono {p q : ℕ} {rest : List Token} (h : Follows p rest) (hpq : p ≤ q) :
    Follows q rest :=
  ⟨fun t ht op hop => (h.operator t ht op hop).trans hpq, h.dot, h.bracket⟩

theorem Follows.closer {t : Token}
    (h : t.kind = .closeParen ∨ t.kind = .comma ∨ t.kind = .closeBracket) (p : ℕ)
    (rest : List Token) : Follows p (t :: rest) := by
  refine ⟨?_, ?_, ?_⟩ <;> intro t' ht' <;> cases ht'
  · intro op hop
    rcases h with h | h | h <;> rw [h] at hop <;> cases hop
  · rcases h with h | h | h <;> rw [h] <;> decide
  · rcases h with h | h | h <;> rw [h] <;> decide

theorem operator_kind (op : Operator) : op.kind.operator? = some op := by
  cases op <;> rfl

theorem Follows.operator_token {t : Token} {op : Operator} (h : t.kind = op.kind)
    (rest : List Token) : Follows op.precedence (t :: rest) := by
  refine ⟨?_, ?_, ?_⟩ <;> intro t' ht' <;> cases ht'
  · intro op' hop
    rw [h, operator_kind] at hop
    cases hop
    exact le_rfl
  · rw [h]
    cases op <;> simp [Operator.kind]
  · rw [h]
    cases op <;> simp [Operator.kind]

theorem operator_none {least p : ℕ} {rest : List Token} (h : Follows p rest) (hp : p < least) :
    operator? least rest = .ok none rest := by
  cases rest with
  | nil => rfl
  | cons t rest =>
    unfold operator?
    dsimp only
    cases hop : t.kind.operator? with
    | none => rfl
    | some op =>
      have hle := h.operator t rfl op hop
      exact if_neg (Nat.not_le.mpr (hle.trans_lt hp))

theorem operator_some {least : ℕ} {t : Token} {op : Operator} (h : t.kind = op.kind)
    (hle : least ≤ op.precedence) (rest : List Token) :
    operator? least (t :: rest) = .ok (some (op, t.position)) rest := by
  unfold operator?
  dsimp only
  rw [h, operator_kind]
  exact if_pos hle

theorem chainUpTo_stop (b : Bounds) (inner : Inner) {least p : ℕ} {rest : List Token}
    (h : Follows p rest) (hp : p < least) (tries : ℕ) (left : Measured) :
    chainUpTo b inner least tries left rest = .ok left rest := by
  cases tries with
  | zero => rfl
  | succ tries =>
    unfold chainUpTo
    rw [bind_ok (operator_none h hp)]
    rfl

theorem checked_ok (b : Bounds) (position : ℕ) {m : Measured} (h : m.height ≤ b.limit)
    (rest : List Token) : checked b position m rest = .ok m rest := by
  unfold checked
  rw [if_neg (Nat.not_lt.mpr h)]
  rfl

/-! ## names -/

/-- the tokens of one name after `@`: `.name`, where keywords are names too, or `["name"]` -/
inductive Member : List Kind → String → Prop
  | word {k : Kind} {name : String} (h : k.word? = some name) : Member [.dot, k] name
  | quoted (name : String) : Member [.openBracket, .text name, .closeBracket] name

/-- the tokens of a row of names after `@` -/
inductive Members : List Kind → List String → Prop
  | nil : Members [] []
  | cons {ks ls : List Kind} {name : String} {names : List String} (h : Member ks name)
      (more : Members ls names) : Members (ks ++ ls) (name :: names)

theorem members_of_names (names : List String) : Members (names.flatMap memberKinds) names := by
  induction names with
  | nil => exact .nil
  | cons name names ih =>
    rw [List.flatMap_cons]
    refine .cons ?_ ih
    unfold memberKinds
    split
    · exact .word (word_wordKind name)
    · exact .quoted name

theorem Members.length_le {ks : List Kind} {names : List String} (h : Members ks names) :
    names.length ≤ ks.length := by
  induction h with
  | nil => exact Nat.le_refl 0
  | cons h _ ih =>
    rw [List.length_append, List.length_cons]
    cases h <;> simp only [List.length_cons, List.length_nil] <;> omega

theorem member_of_member (b : Bounds) {ks : List Kind} {name : String} (hname : Member ks name)
    {tokens : List Token} (h : tokens.map Token.kind = ks) (rest : List Token) :
    member? b (tokens ++ rest) = .ok (some name) rest := by
  cases hname with
  | word hword =>
    rw [List.map_eq_cons_iff] at h
    obtain ⟨t₁, ts, rfl, h₁, h⟩ := h
    rw [List.map_eq_cons_iff] at h
    obtain ⟨t₂, ts, rfl, h₂, h⟩ := h
    rw [List.map_eq_nil_iff] at h
    subst h
    show member? b (t₁ :: t₂ :: rest) = _
    unfold member?
    rw [bind_ok (kind_eq _), List.head?_cons, Option.map_some, h₁]
    dsimp only
    rw [bind_ok (skip_cons _ _), bind_ok (next_cons _ _ _), h₂, hword]
    rfl
  | quoted name =>
    rw [List.map_eq_cons_iff] at h
    obtain ⟨t₁, ts, rfl, h₁, h⟩ := h
    rw [List.map_eq_cons_iff] at h
    obtain ⟨t₂, ts, rfl, h₂, h⟩ := h
    rw [List.map_eq_cons_iff] at h
    obtain ⟨t₃, ts, rfl, h₃, h⟩ := h
    rw [List.map_eq_nil_iff] at h
    subst h
    show member? b (t₁ :: t₂ :: t₃ :: rest) = _
    unfold member?
    rw [bind_ok (kind_eq _), List.head?_cons, Option.map_some, h₁]
    dsimp only
    rw [bind_ok (skip_cons _ _), bind_ok (next_cons _ _ _), h₂]
    dsimp only
    rw [bind_ok (expect_ok _ _ h₃ _)]
    rfl

theorem member_none (b : Bounds) {p : ℕ} {rest : List Token} (h : Follows p rest) :
    member? b rest = .ok none rest := by
  unfold member?
  rw [bind_ok (kind_eq _)]
  cases rest with
  | nil => rfl
  | cons t rest =>
    rw [List.head?_cons, Option.map_some]
    cases hk : t.kind with
    | dot => exact absurd hk (h.dot t rfl)
    | openBracket => exact absurd hk (h.bracket t rfl)
    | _ => rfl

theorem repeated_members (b : Bounds) {p : ℕ} {rest : List Token} (hrest : Follows p rest)
    {ks : List Kind} {names : List String} (hnames : Members ks names) {tokens : List Token}
    (h : tokens.map Token.kind = ks) {tries : ℕ} (htries : names.length ≤ tries) :
    repeatedUpTo (member? b) tries (tokens ++ rest) = .ok names rest := by
  induction hnames generalizing tokens tries with
  | nil =>
    rw [List.map_eq_nil_iff] at h
    subst h
    cases tries with
    | zero => rfl
    | succ tries =>
      unfold repeatedUpTo
      rw [List.nil_append, bind_ok (member_none b hrest)]
      rfl
  | cons hname _ ih =>
    rw [List.length_cons] at htries
    obtain ⟨tries, rfl⟩ : ∃ n, tries = n + 1 := ⟨tries - 1, by omega⟩
    rw [List.map_eq_append_iff] at h
    obtain ⟨ts, us, rfl, hts, hus⟩ := h
    unfold repeatedUpTo
    rw [List.append_assoc, bind_ok (member_of_member b hname hts (us ++ rest))]
    exact map_ok (ih hus (Nat.le_of_succ_le_succ htries)) _

/-! ## expressions -/

/-- the tokens are read as `f`, and operators may follow -/
def Reads (b : Bounds) (f : Filter) (room least : ℕ) (tokens rest : List Token) : Prop :=
  ∃ tries, rest.length ≤ tries ∧
    level b (innerOf b room) least (tokens ++ rest)
      = chainUpTo b (innerOf b room) least tries f.measured rest

theorem Reads.level_ok {b : Bounds} {f : Filter} {room least p : ℕ} {tokens rest : List Token}
    (h : Reads b f room least tokens rest) (hrest : Follows p rest) (hp : p < least) :
    expression b room least (tokens ++ rest) = .ok f.measured rest := by
  obtain ⟨tries, _, h⟩ := h
  rw [expression_eq, h, chainUpTo_stop b _ hrest hp]

/-- what an operand is read as, the chain of operators goes on with -/
theorem Reads.of_operand {b : Bounds} {f : Filter} {room : ℕ} {tokens rest : List Token}
    (h : operand b (innerOf b room) (tokens ++ rest) = .ok f.measured rest) (least : ℕ) :
    Reads b f room least tokens rest := by
  refine ⟨rest.length, le_rfl, ?_⟩
  unfold level
  rw [bind_ok h]
  rfl

theorem operand_eq_primary (b : Bounds) (inner : Inner) {t : Token} (h : t.kind ≠ .not)
    (rest : List Token) : operand b inner (t :: rest) = primary b inner t rest := by
  unfold operand
  rw [bind_ok (next_cons _ _ _), if_neg h]

theorem literal_kind_ne (value : Literal) : value.kind ≠ .not := by
  cases value <;> simp [Literal.kind]

theorem primary_literal (b : Bounds) (inner : Inner) {value : Literal} {t : Token}
    (h : t.kind = value.kind) (rest : List Token) :
    primary b inner t rest = .ok (literal value).measured rest := by
  unfold primary
  rw [h]
  cases value <;> rfl

theorem primary_reference (b : Bounds) (inner : Inner) {t : Token} (h : t.kind = .current)
    {ks : List Kind} {names : List String} (hnames : Members ks names) {tokens : List Token}
    (hts : tokens.map Token.kind = ks) {p : ℕ} {rest : List Token} (hrest : Follows p rest) :
    primary b inner t (tokens ++ rest) = .ok (reference names).measured rest := by
  have hlen := hnames.length_le
  rw [← hts, List.length_map] at hlen
  unfold primary
  rw [h]
  refine map_ok (repeated_members b hrest hnames hts ?_) _
  rw [List.length_append]
  omega

theorem precedence_pos (op : Operator) : 1 ≤ op.precedence := by
  unfold Operator.precedence
  split <;> decide

theorem precedence_lt (op : Operator) : op.precedence < tightest := by
  unfold Operator.precedence
  split <;> decide

theorem Follows.loose {p : ℕ} {rest : List Token} (h : Follows p rest) : Follows 3 rest :=
  ⟨fun _ _ op _ => Nat.le_of_lt_succ (precedence_lt op), h.dot, h.bracket⟩

/-! ## one way of building after the other -/

/-- tokens of these kinds are read as `f` in front of whatever ends an expression -/
def Whole (b : Bounds) (room : ℕ) (ks : List Kind) (f : Filter) : Prop :=
  ∀ ⦃tokens rest : List Token⦄, tokens.map Token.kind = ks → (∀ p, Follows p rest) →
    expression b room 1 (tokens ++ rest) = .ok f.measured rest

section
variable {b : Bounds} {room least : ℕ} {tokens rest : List Token}

theorem Reads.literal {value : Literal} (h : tokens.map Token.kind = [value.kind]) :
    Reads b (.literal value) room least tokens rest := by
  rw [List.map_eq_singleton_iff] at h
  obtain ⟨t, rfl, ht⟩ := h
  refine Reads.of_operand ?_ least
  rw [List.singleton_append, operand_eq_primary b _ (by rw [ht]; exact literal_kind_ne value)]
  exact primary_literal b _ ht rest

theorem Reads.reference {ks : List Kind} {names : List String} (hnames : Members ks names)
    (h : tokens.map Token.kind = .current :: ks) {p : ℕ} (hrest : Follows p rest) :
    Reads b (.reference names) room least tokens rest := by
  rw [List.map_eq_cons_iff] at h
  obtain ⟨t, ts, rfl, ht, hts⟩ := h
  refine Reads.of_operand ?_ least
  rw [List.cons_append, operand_eq_primary b _ (by rw [ht]; decide)]
  exact primary_reference b _ ht hnames hts hrest

theorem Reads.group {ks : List Kind} {f : Filter} (hf : Whole b room ks f)
    (h : tokens.map Token.kind = .openParen :: ks ++ [.closeParen]) :
    Reads b f (room + 1) least tokens rest := by
  rw [List.cons_append, List.map_eq_cons_iff] at h
  obtain ⟨t, ts, rfl, ht, h⟩ := h
  rw [List.map_eq_append_iff] at h
  obtain ⟨ts, us, rfl, hts, h⟩ := h
  rw [List.map_eq_singleton_iff] at h
  obtain ⟨u, rfl, hu⟩ := h
  have hinner := hf hts fun p => Follows.closer (.inl hu) p rest
  refine Reads.of_operand ?_ least
  have happend : (t :: (ts ++ [u])) ++ rest = t :: (ts ++ u :: rest) := by simp
  rw [happend, operand_eq_primary b _ (by rw [ht]; decide)]
  unfold primary
  rw [ht]
  show Filter.group b (innerOf b (room + 1)) t.position (ts ++ u :: rest) = _
  unfold Filter.group
  rw [bind_ok (enter_innerOf b room _ _), bind_ok hinner,
    bind_ok (expect_ok _ _ hu _)]
  rfl

theorem Reads.negation {f : Filter} {t : Token} (ht : t.kind = .not)
    (hf : Reads b f room tightest tokens rest) {p : ℕ} (hrest : Follows p rest)
    (hheight : (Filter.negation f).height ≤ b.limit) :
    Reads b (.negation f) (room + 1) least (t :: tokens) rest := by
  have hinner := hf.level_ok hrest.loose (by decide)
  refine Reads.of_operand ?_ least
  show operand b (innerOf b (room + 1)) (t :: (tokens ++ rest)) = _
  unfold operand
  rw [bind_ok (next_cons _ _ _), if_pos ht, bind_ok (enter_innerOf b room _ _), bind_ok hinner]
  exact checked_ok b t.position hheight rest

/-- the right operand takes what binds tighter than the operator, the chain goes on behind it -/
theorem Reads.binary {op : Operator} {left right : Filter} {us : List Token} {u : Token}
    (hu : u.kind = op.kind) (hl : Reads b left (room + 1) least tokens (u :: (us ++ rest)))
    (hr : Reads b right room (op.precedence + 1) us rest) (hleast : least ≤ op.precedence)
    (hrest : Follows op.precedence rest)
    (hheight : (Filter.binary op left right).height ≤ b.limit) :
    Reads b (.binary op left right) (room + 1) least (tokens ++ u :: us) rest := by
  obtain ⟨tries, htries, hread⟩ := hl
  have hoperand := hr.level_ok hrest (Nat.lt_succ_self _)
  rw [List.length_cons, List.length_append] at htries
  obtain ⟨tries, rfl⟩ : ∃ n, tries = n + 1 := ⟨tries - 1, by omega⟩
  refine ⟨tries, by omega, ?_⟩
  rw [List.append_assoc, List.cons_append, hread]
  conv_lhs => unfold chainUpTo
  rw [bind_ok (operator_some hu hleast _)]
  dsimp only
  rw [bind_ok (enter_innerOf b room _ _), bind_ok hoperand,
    bind_ok (checked_ok b u.position hheight rest)]
  rfl

/-! ### arguments -/

/-- tokens that are read as an argument, and that do not close the call -/
structure Argument (b : Bounds) (room : ℕ) (part : List Kind × Filter) : Prop where
  front : ∃ k ks, part.1 = k :: ks ∧ k ≠ .closeParen
  whole : Whole b room part.1 part.2

abbrev separated (parts : List (List Kind × Filter)) : List Kind :=
  [Kind.comma].intercalate (parts.map Prod.fst)

theorem separated_cons_cons (p q : List Kind × Filter) (parts : List (List Kind × Filter)) :
    separated (p :: q :: parts) = p.1 ++ .comma :: separated (q :: parts) := by
  simp [separated, List.intercalate]

theorem separated_singleton (p : List Kind × Filter) : separated [p] = p.1 := by
  simp [separated, List.intercalate]

theorem length_le_separated (p : List Kind × Filter) (parts : List (List Kind × Filter)) :
    parts.length ≤ (separated (p :: parts)).length := by
  induction parts generalizing p with
  | nil => exact Nat.zero_le _
  | cons q parts ih =>
    have hmore := ih q
    rw [separated_cons_cons, List.length_append, List.length_cons, List.length_cons]
    omega

theorem argumentsUpTo_ok {u : Token} (hu : u.kind = .closeParen) {p : List Kind × Filter}
    {parts : List (List Kind × Filter)} (hparts : ∀ q ∈ p :: parts, Argument b room q)
    (h : tokens.map Token.kind = separated (p :: parts)) (tries : ℕ)
    (htries : parts.length ≤ tries) (rest : List Token) :
    argumentsUpTo (expression b room 1) tries (tokens ++ u :: rest)
      = .ok (((p :: parts).map Prod.snd).map measured) (u :: rest) := by
  have hp := hparts p List.mem_cons_self
  induction parts generalizing p tokens tries with
  | nil =>
    rw [separated_singleton] at h
    have hlast := hp.whole h fun p => Follows.closer (.inl hu) p rest
    cases tries with
    | zero => exact map_ok hlast _
    | succ tries =>
      unfold argumentsUpTo
      rw [bind_ok hlast, bind_ok (skipIf_of_ne (by rw [hu]; decide) rest)]
      rfl
  | cons q parts ih =>
    rw [List.length_cons] at htries
    obtain ⟨tries, rfl⟩ : ∃ n, tries = n + 1 := ⟨tries - 1, by omega⟩
    rw [separated_cons_cons, List.map_eq_append_iff] at h
    obtain ⟨ts, us, rfl, hts, h⟩ := h
    rw [List.map_eq_cons_iff] at h
    obtain ⟨c, us, rfl, hc, hus⟩ := h
    have hfirst := hp.whole hts fun p => Follows.closer (.inr (.inl hc)) p (us ++ u :: rest)
    have hmore := ih (fun q' hq' => hparts q' (List.mem_cons_of_mem p hq')) hus tries
      (Nat.le_of_succ_le_succ htries) (hparts q (List.mem_cons_of_mem p List.mem_cons_self))
    unfold argumentsUpTo
    rw [List.append_assoc, List.cons_append, bind_ok hfirst, bind_ok (skipIf_ok hc _), if_pos rfl]
    exact map_ok hmore _

theorem arguments_ok {u : Token} (hu : u.kind = .closeParen) {parts : List (List Kind × Filter)}
    (hparts : ∀ p ∈ parts, Argument b room p) (h : tokens.map Token.kind = separated parts)
    (rest : List Token) :
    arguments b (expression b room 1) (tokens ++ u :: rest)
      = .ok ((parts.map Prod.snd).map measured) rest := by
  unfold arguments
  cases parts with
  | nil =>
    have hnil : tokens = [] := List.map_eq_nil_iff.mp h
    subst hnil
    rw [List.nil_append, bind_ok (skipIf_ok hu rest), if_pos rfl]
    rfl
  | cons p parts =>
    have hlen := length_le_separated p parts
    rw [← h, List.length_map] at hlen
    have hread := argumentsUpTo_ok hu hparts h (tokens ++ u :: rest).length
      (by rw [List.length_append]; omega) rest
    -- the first argument does not begin with the parenthesis that closes the call
    obtain ⟨t, ts, hcons, ht⟩ : ∃ t ts, tokens ++ u :: rest = t :: ts ∧ t.kind ≠ .closeParen := by
      obtain ⟨k, ks, hk, hne⟩ := (hparts p List.mem_cons_self).front
      obtain ⟨ks', hks'⟩ : ∃ ks', separated (p :: parts) = k :: ks' := by
        cases parts with
        | nil => exact ⟨ks, by rw [separated_singleton, hk]⟩
        | cons q parts => exact ⟨_, by rw [separated_cons_cons, hk, List.cons_append]⟩
      rw [hks', List.map_eq_cons_iff] at h
      obtain ⟨t, ts, rfl, rfl, -⟩ := h
      exact ⟨t, ts ++ u :: rest, rfl, hne⟩
    rw [hcons] at hread ⊢
    rw [bind_ok (skipIf_of_ne ht ts), if_neg Bool.false_ne_true,
      bind_ok (r := fun tokens => argumentsUpTo (expression b room 1) tokens.length tokens) hread,
      bind_ok (expect_ok _ _ hu rest)]
    rfl

theorem Reads.call {name : String} {parts : List (List Kind × Filter)}
    (hparts : ∀ p ∈ parts, Argument b room p)
    (h : tokens.map Token.kind
      = .identifier name :: .openParen :: separated parts ++ [.closeParen])
    (hheight : (Filter.call name (parts.map Prod.snd)).height ≤ b.limit) :
    Reads b (.call name (parts.map Prod.snd)) (room + 1) least tokens rest := by
  rw [List.cons_append, List.cons_append, List.map_eq_cons_iff] at h
  obtain ⟨t, ts, rfl, ht, h⟩ := h
  rw [List.map_eq_cons_iff] at h
  obtain ⟨o, ts, rfl, ho, h⟩ := h
  rw [List.map_eq_append_iff] at h
  obtain ⟨ts, us, rfl, hts, h⟩ := h
  rw [List.map_eq_singleton_iff] at h
  obtain ⟨u, rfl, hu⟩ := h
  have hread := arguments_ok hu hparts hts rest
  have hfold := foldl_height (parts.map Prod.snd) 0
  rw [Nat.zero_max] at hfold
  refine Reads.of_operand ?_ least
  have happend : (t :: o :: (ts ++ [u])) ++ rest = t :: o :: (ts ++ u :: rest) := by simp
  rw [happend, operand_eq_primary b _ (by rw [ht]; simp)]
  unfold primary
  rw [ht]
  dsimp only
  rw [bind_ok (skipIf_ok ho _), if_pos rfl]
  unfold callOf
  have hfilters : ((parts.map Prod.snd).map measured).map Measured.filter = parts.map Prod.snd := by
    rw [List.map_map]
    exact List.map_id _
  rw [bind_ok (enter_innerOf b room _ _), bind_ok hread, hfold, hfilters]
  exact checked_ok b t.position hheight rest

end

/-! ## canonical texts -/

/-- the tokens of `f` are read as `f` wherever there is room for them -/
def Readable (b : Bounds) (f : Filter) : Prop :=
  ∀ ⦃room least : ℕ⦄ ⦃tokens rest : List Token⦄, f.nesting ≤ room → least ≤ f.tightness →
    tokens.map Token.kind = f.kinds → Follows f.tightness rest →
    Reads b f room least tokens rest

theorem tightness_pos (f : Filter) : 1 ≤ f.tightness := by
  cases f with
  | binary op left right => exact precedence_pos op
  | _ => exact Nat.le_add_left 1 3

theorem Readable.expression_ok {b : Bounds} {f : Filter} (hf : Readable b f) {room : ℕ}
    (hroom : f.nesting ≤ room) : Whole b room f.kinds f :=
  fun _ _ h hrest => (hf hroom f.tightness_pos h (hrest _)).level_ok (hrest 0) Nat.zero_lt_one

theorem Readable.group {b : Bounds} {f : Filter} (hf : Readable b f) {room : ℕ}
    (hroom : f.nesting + 1 ≤ room) (least : ℕ) {tokens : List Token}
    (h : tokens.map Token.kind = .openParen :: f.kinds ++ [.closeParen]) (rest : List Token) :
    Reads b f room least tokens rest := by
  obtain ⟨room, rfl⟩ : ∃ r, room = r + 1 := ⟨room - 1, by omega⟩
  exact Reads.group (hf.expression_ok (Nat.le_of_succ_le_succ hroom)) h

theorem Readable.grouped {b : Bounds} {f : Filter} (hf : Readable b f) {grouped : Bool}
    {room least : ℕ} (hroom : groupNesting grouped f.nesting ≤ room) {tokens : List Token}
    (h : tokens.map Token.kind = groupKinds grouped f.kinds) (rest : List Token)
    (hbare : grouped = false → least ≤ f.tightness ∧ Follows f.tightness rest) :
    Reads b f room least tokens rest := by
  cases grouped with
  | false => exact hf hroom (hbare rfl).1 h (hbare rfl).2
  | true => exact hf.group hroom least h rest

theorem bare_left {f : Filter} {op : Operator} (h : f.leftGrouped op.precedence = false) :
    op.precedence ≤ f.tightness := by
  have hop := precedence_lt op
  cases f with
  | binary op' left right =>
    have : ¬op'.precedence < op.precedence := by simpa [leftGrouped, precedence?] using h
    exact Nat.not_lt.mp this
  | _ => exact hop.le

theorem bare_right {f : Filter} {op : Operator} (h : f.rightGrouped op.precedence = false) :
    op.precedence + 1 ≤ f.tightness := by
  have hop := precedence_lt op
  cases f with
  | binary op' left right =>
    have : ¬op'.precedence ≤ op.precedence := by simpa [rightGrouped, precedence?] using h
    exact Nat.not_le.mp this
  | _ => exact hop

theorem bare_negation {f : Filter} (h : f.negationGrouped = false) : f.tightness = tightest := by
  cases f with
  | binary op left right => cases h
  | _ => rfl

theorem Readable.binary {b : Bounds} {op : Operator} {left right : Filter}
    (hl : Readable b left) (hr : Readable b right)
    (hheight : (Filter.binary op left right).height ≤ b.limit) :
    Readable b (.binary op left right) := by
  intro room least tokens rest hroom hleast h hrest
  have hnest : max (groupNesting (left.leftGrouped op.precedence) left.nesting)
      (groupNesting (right.rightGrouped op.precedence) right.nesting + 1) ≤ room := hroom
  obtain ⟨hleft, hright⟩ := max_le_iff.mp hnest
  have hleast' : least ≤ op.precedence := hleast
  have hrest' : Follows op.precedence rest := hrest
  unfold kinds at h
  rw [List.map_eq_append_iff] at h
  obtain ⟨ts, us, rfl, hts, h⟩ := h
  rw [List.map_eq_cons_iff] at h
  obtain ⟨u, us, rfl, hu, hus⟩ := h
  obtain ⟨room, rfl⟩ : ∃ r, room = r + 1 := ⟨room - 1, by omega⟩
  have hoperator := Follows.operator_token hu (us ++ rest)
  refine Reads.binary hu (hl.grouped hleft hts _ fun hbare => ?_)
    (hr.grouped (Nat.le_of_succ_le_succ hright) hus rest fun hbare => ?_) hleast' hrest' hheight
  · exact ⟨hleast'.trans (bare_left hbare), hoperator.mono (bare_left hbare)⟩
  · exact ⟨bare_right hbare, hrest'.mono (Nat.le_of_succ_le (bare_right hbare))⟩

theorem Readable.negation {b : Bounds} {operand : Filter} (hf : Readable b operand)
    (hheight : (Filter.negation operand).height ≤ b.limit) : Readable b (.negation operand) := by
  intro room least tokens rest hroom hleast h hrest
  have hnest : groupNesting operand.negationGrouped operand.nesting + 1 ≤ room := hroom
  unfold kinds at h
  rw [List.map_eq_cons_iff] at h
  obtain ⟨t, ts, rfl, ht, hts⟩ := h
  obtain ⟨room, rfl⟩ : ∃ r, room = r + 1 := ⟨room - 1, by omega⟩
  refine Reads.negation ht (hf.grouped (Nat.le_of_succ_le_succ hnest) hts rest fun hbare => ?_)
    hrest hheight
  exact ⟨(bare_negation hbare).ge, hrest.loose.mono (by rw [bare_negation hbare]; decide)⟩

theorem kinds_cons (f : Filter) : ∃ k ks, f.kinds = k :: ks ∧ k ≠ .closeParen := by
  cases f with
  | literal value => exact ⟨value.kind, [], rfl, by cases value <;> simp [Literal.kind]⟩
  | reference names => exact ⟨.current, _, rfl, by decide⟩
  | binary op left right =>
    obtain ⟨k, ks, h, hk⟩ := kinds_cons left
    unfold kinds groupKinds
    split
    · exact ⟨.openParen, _, rfl, by decide⟩
    · rw [h]
      exact ⟨k, _, rfl, hk⟩
  | negation operand => exact ⟨.not, _, rfl, by decide⟩
  | call name args => exact ⟨.identifier name, _, rfl, by simp⟩

theorem argumentKinds_cons (f : Filter) (args : List Filter) :
    ∃ k ks, argumentKinds (f :: args) = k :: ks ∧ k ≠ .closeParen := by
  obtain ⟨k, ks, h, hk⟩ := kinds_cons f
  cases args with
  | nil => exact ⟨k, ks, h, hk⟩
  | cons g args =>
    unfold argumentKinds
    rw [h]
    exact ⟨k, _, rfl, hk⟩

theorem length_le_argumentKinds (args : List Filter) :
    args.length ≤ (argumentKinds args).length := by
  induction args with
  | nil => exact le_rfl
  | cons f args ih =>
    obtain ⟨k, ks, h, _⟩ := kinds_cons f
    cases args with
    | nil =>
      show 1 ≤ f.kinds.length
      rw [h]
      exact Nat.succ_pos _
    | cons g args =>
      show _ ≤ (f.kinds ++ .comma :: argumentKinds (g :: args)).length
      rw [List.length_append, List.length_cons (a := Kind.comma), List.length_cons]
      omega

theorem argumentKinds_eq (args : List Filter) :
    argumentKinds args = separated (args.map fun f => (f.kinds, f)) := by
  induction args with
  | nil => rfl
  | cons f args ih =>
    cases args with
    | nil => exact (separated_singleton (f.kinds, f)).symm
    | cons g args =>
      rw [List.map_cons, List.map_cons, separated_cons_cons]
      exact congrArg (f.kinds ++ Kind.comma :: ·) ih

theorem nesting_le_nestings {f : Filter} {args : List Filter} (h : f ∈ args) :
    f.nesting ≤ nestings args := by
  induction args with
  | nil => cases h
  | cons g args ih =>
    rcases List.mem_cons.mp h with rfl | h
    · exact le_max_left _ _
    · exact (ih h).trans (le_max_right _ _)

theorem Readable.call {b : Bounds} {name : String} {args : List Filter}
    (hargs : ∀ g ∈ args, Readable b g) (hheight : (Filter.call name args).height ≤ b.limit) :
    Readable b (.call name args) := by
  intro room least tokens rest hroom hleast h hrest
  have hnest : nestings args + 1 ≤ room := hroom
  unfold kinds at h
  rw [argumentKinds_eq] at h
  obtain ⟨room, rfl⟩ : ∃ r, room = r + 1 := ⟨room - 1, by omega⟩
  have hsnd : (args.map fun f => (f.kinds, f)).map Prod.snd = args := by
    rw [List.map_map]
    exact List.map_id args
  have hparts : ∀ p ∈ args.map fun f => (f.kinds, f), Argument b room p := by
    intro p hp
    obtain ⟨f, hf, rfl⟩ := List.mem_map.mp hp
    refine ⟨kinds_cons f, (hargs f hf).expression_ok ?_⟩
    exact (nesting_le_nestings hf).trans (Nat.le_of_succ_le_succ hnest)
  rw [← hsnd] at hheight ⊢
  exact Reads.call hparts h hheight

/-! ## all expressions -/

mutual
/-- **The tokens of the canonical text of an expression are read as that expression**, where its
height is within the limit. -/
theorem readable (b : Bounds) (f : Filter) (h : f.height ≤ b.limit) : Readable b f := by
  cases f with
  | literal value =>
    intro room least tokens rest _ _ htokens _
    exact Reads.literal htokens
  | reference names =>
    intro room least tokens rest _ _ htokens hrest
    exact Reads.reference (members_of_names names) htokens hrest
  | binary op left right =>
    have hmax : max left.height right.height + 1 ≤ b.limit := h
    obtain ⟨hl, hr⟩ := max_le_iff.mp (Nat.le_of_succ_le hmax)
    exact (readable b left hl).binary (readable b right hr) h
  | negation operand =>
    have hoperand : operand.height + 1 ≤ b.limit := h
    exact (readable b operand (Nat.le_of_succ_le hoperand)).negation h
  | call name args =>
    have hargs : heights args + 1 ≤ b.limit := h
    exact Readable.call (readables b args (Nat.le_of_succ_le hargs)) h

theorem readables (b : Bounds) (args : List Filter) (h : heights args ≤ b.limit) :
    ∀ f ∈ args, Readable b f := by
  cases args with
  | nil =>
    intro f hf
    cases hf
  | cons g args =>
    obtain ⟨hg, hargs⟩ := max_le_iff.mp (show max g.height (heights args) ≤ b.limit from h)
    intro f hf
    rcases List.mem_cons.mp hf with heq | hf
    · rw [heq]
      exact readable b g hg
    · exact readables b args hargs f hf
end

end PathQuery.Filter
