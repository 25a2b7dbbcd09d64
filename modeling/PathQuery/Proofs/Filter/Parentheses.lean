import PathQuery.Proofs.Filter.Grammar
import PathQuery.Proofs.Filter.WellRead

/-!
# The parentheses of canonical texts

A canonical text has parentheses only where it would be read as another expression without them.

* `Operand`           the operands of an expression, with what stands around them in its text;
* `Grouped`           the operands in parentheses, at any depth;
* `Derives.fewest`    no tokens of an expression have fewer parentheses than the canonical ones;
* `Derives.join`      an operator between two expressions makes an expression, of whatever parts;
* `Wording`           the texts that are read as some expression;
* `Grouped.bare`      without a pair of parentheses, a canonical text is still one of these.
-/

namespace PathQuery.Filter
open Token

/-! ## operands -/

def argumentsBefore (args : List Filter) : List Char := args.flatMap fun f => f.chars ++ [',', ' ']

def argumentsAfter (args : List Filter) : List Char := args.flatMap fun f => ',' :: ' ' :: f.chars

/-- an operand of an expression, between what stands in front of it and behind it in the canonical
text; it is in parentheses there or not -/
inductive Operand : Filter → List Char → Bool → Filter → List Char → Prop
  | left (op : Operator) (left right : Filter) :
      Operand (.binary op left right) [] (left.leftGrouped op.precedence) left
        (' ' :: op.symbol.toList ++ ' ' :: groupIf (right.rightGrouped op.precedence) right.chars)
  | right (op : Operator) (left right : Filter) :
      Operand (.binary op left right)
        (groupIf (left.leftGrouped op.precedence) left.chars ++ ' ' :: op.symbol.toList ++ [' '])
        (right.rightGrouped op.precedence) right []
  | negated (operand : Filter) :
      Operand (.negation operand) ['!'] operand.negationGrouped operand []
  | argument (name : String) (before : List Filter) (f : Filter) (after : List Filter) :
      Operand (.call name (before ++ f :: after)) (name.toList ++ '(' :: argumentsBefore before)
        false f (argumentsAfter after ++ [')'])

def opening (grouped : Bool) : List Char := if grouped then ['('] else []

def closing (grouped : Bool) : List Char := if grouped then [')'] else []

/-- an operand in parentheses at any depth of an expression, between what stands in front of its
parentheses and behind them in the canonical text -/
inductive Grouped : Filter → List Char → Filter → List Char → Prop
  | here {f part : Filter} {before after : List Char} (h : Operand f before true part after) :
      Grouped f before part after
  | inside {f g part : Filter} {before after before' after' : List Char} {grouped : Bool}
      (h : Operand f before grouped g after) (more : Grouped g before' part after') :
      Grouped f (before ++ opening grouped ++ before') part (after' ++ closing grouped ++ after)

theorem groupIf_eq (grouped : Bool) (cs : List Char) :
    groupIf grouped cs = opening grouped ++ cs ++ closing grouped := by
  cases grouped with
  | false => exact (List.append_nil cs).symm
  | true => rfl

theorem argumentChars_cons (f : Filter) (args : List Filter) :
    argumentChars (f :: args) = f.chars ++ argumentsAfter args := by
  induction args generalizing f with
  | nil => exact (List.append_nil _).symm
  | cons g args ih =>
    rw [argumentChars, ih g]
    · rfl
    · exact List.cons_ne_nil g args

theorem argumentChars_split (before : List Filter) (f : Filter) (after : List Filter) :
    argumentChars (before ++ f :: after)
      = argumentsBefore before ++ f.chars ++ argumentsAfter after := by
  induction before with
  | nil => exact argumentChars_cons f after
  | cons g before ih =>
    have hcons : argumentChars (g :: (before ++ f :: after))
        = g.chars ++ ',' :: ' ' :: argumentChars (before ++ f :: after) := by
      cases before <;> rfl
    rw [List.cons_append, hcons, ih]
    simp [argumentsBefore]

theorem Operand.chars_eq {f part : Filter} {before after : List Char} {grouped : Bool}
    (h : Operand f before grouped part after) :
    f.chars = before ++ groupIf grouped part.chars ++ after := by
  cases h with
  | argument name before f after =>
    rw [chars, argumentChars_split]
    simp [groupIf]
  | _ => simp [chars]

/-- the operands are the parts that stand in an expression itself -/
theorem mem_children_iff {f part : Filter} :
    part ∈ f.children ↔ ∃ before grouped after, Operand f before grouped part after := by
  constructor
  · intro h
    cases f with
    | literal value => cases h
    | reference names => cases h
    | binary op left right =>
      rcases List.mem_cons.mp h with rfl | h
      · exact ⟨_, _, _, .left op part right⟩
      · obtain rfl := List.mem_singleton.mp h
        exact ⟨_, _, _, .right op left part⟩
    | negation operand =>
      obtain rfl := List.mem_singleton.mp h
      exact ⟨_, _, _, .negated part⟩
    | call name args =>
      obtain ⟨before, after, rfl⟩ := List.append_of_mem h
      exact ⟨_, _, _, .argument name before part after⟩
  · rintro ⟨before, grouped, after, h⟩
    cases h with
    | left => exact List.mem_cons_self
    | right => exact List.mem_cons_of_mem _ List.mem_cons_self
    | negated => exact List.mem_cons_self
    | argument name before f after => exact List.mem_append_right before List.mem_cons_self

theorem Operand.isPrintable {f part : Filter} {before after : List Char} {grouped : Bool}
    (h : Operand f before grouped part after) (hf : f.isPrintable = true) :
    part.isPrintable = true := by
  cases h with
  | left op left right =>
    rw [Filter.isPrintable, Bool.and_eq_true, Bool.and_eq_true] at hf
    exact hf.2.1
  | right op left right =>
    rw [Filter.isPrintable, Bool.and_eq_true, Bool.and_eq_true] at hf
    exact hf.2.2
  | negated operand => exact hf
  | argument name before f after =>
    rw [Filter.isPrintable, Bool.and_eq_true, arePrintable_iff] at hf
    exact hf.2 _ (List.mem_append_right before List.mem_cons_self)

/-! ## the number of parentheses -/

/-- how many pairs of parentheses there are among tokens, those of calls included -/
def parentheses (ks : List Kind) : ℕ := ks.count .openParen

@[simp] theorem parentheses_append (ks ls : List Kind) :
    parentheses (ks ++ ls) = parentheses ks + parentheses ls := List.count_append

@[simp] theorem parentheses_open (ks : List Kind) :
    parentheses (.openParen :: ks) = parentheses ks + 1 := List.count_cons_self

theorem parentheses_cons {k : Kind} (h : k ≠ .openParen) (ks : List Kind) :
    parentheses (k :: ks) = parentheses ks := List.count_cons_of_ne h

@[simp] theorem parentheses_operator (op : Operator) (ks : List Kind) :
    parentheses (op.kind :: ks) = parentheses ks :=
  parentheses_cons (by cases op <;> exact nofun) ks

@[simp] theorem parentheses_groupKinds (grouped : Bool) (ks : List Kind) :
    parentheses (groupKinds grouped ks) = parentheses ks + grouped.toNat := by
  cases grouped with
  | false => rfl
  | true =>
    have hclose : parentheses [.closeParen] = 0 := rfl
    rw [groupKinds, if_pos rfl, List.cons_append, parentheses_open, parentheses_append, hclose]
    rfl

theorem parentheses_separated (parts : List (List Kind × Filter)) :
    parentheses (separated parts) = (parts.map fun p => parentheses p.1).sum := by
  induction parts with
  | nil => rfl
  | cons p parts ih =>
    cases parts with
    | nil => simp [separated_singleton]
    | cons q parts =>
      rw [separated_cons_cons, parentheses_append, parentheses_cons (by decide), ih]
      rfl

/-! ### when operands are put in parentheses -/

theorem leftGrouped_eq (f : Filter) (op : Operator) :
    f.leftGrouped op.precedence = decide (f.tightness < op.precedence) := by
  have hop := precedence_lt op
  cases f with
  | binary => rfl
  | _ => exact (decide_eq_false (Nat.not_lt.mpr hop.le)).symm

theorem rightGrouped_eq (f : Filter) (op : Operator) :
    f.rightGrouped op.precedence = decide (f.tightness < op.precedence + 1) := by
  have hop := precedence_lt op
  cases f with
  | binary op' left right => exact decide_eq_decide.mpr Nat.lt_succ_iff.symm
  | _ => exact (decide_eq_false (Nat.not_lt.mpr hop)).symm

theorem negationGrouped_eq (f : Filter) :
    f.negationGrouped = decide (f.tightness < tightest) := by
  cases f with
  | binary op left right => exact (decide_eq_true (precedence_lt op)).symm
  | _ => rfl

/-! ### no spelling has fewer -/

theorem Members.parentheses_eq {ks : List Kind} {names : List String} (h : Members ks names) :
    parentheses ks = 0 := by
  induction h with
  | nil => rfl
  | cons hname _ ih =>
    rw [parentheses_append, ih]
    cases hname with
    | @word k name hword =>
      have hk : k ≠ .openParen := by
        rintro rfl
        cases hword
      rw [parentheses_cons (by decide), parentheses_cons hk]
      rfl
    | quoted name => rfl

/-- the parentheses that an expression needs inside, and around it where it stands for an operand
that has to hold together so tightly -/
def needed (least : ℕ) (f : Filter) : ℕ :=
  parentheses f.kinds + (decide (f.tightness < least)).toNat

theorem needed_mono {p q : ℕ} (h : p ≤ q) (f : Filter) : needed p f ≤ needed q f := by
  refine Nat.add_le_add_left (Bool.toNat_le_toNat fun hlt => ?_) _
  exact decide_eq_true ((of_decide_eq_true hlt).trans_le h)

theorem parentheses_le_needed (p : ℕ) (f : Filter) : parentheses f.kinds ≤ needed p f :=
  Nat.le_add_right _ _

theorem needed_eq {p : ℕ} {f : Filter} (h : p ≤ f.tightness) :
    needed p f = parentheses f.kinds := by
  rw [needed, decide_eq_false (Nat.not_lt.mpr h)]
  rfl

theorem parentheses_binary (op : Operator) (left right : Filter) :
    parentheses (Filter.binary op left right).kinds
      = needed op.precedence left + needed (op.precedence + 1) right := by
  rw [kinds, parentheses_append, parentheses_operator, parentheses_groupKinds,
    parentheses_groupKinds, leftGrouped_eq, rightGrouped_eq]
  rfl

theorem parentheses_negation (operand : Filter) :
    parentheses (Filter.negation operand).kinds = needed tightest operand := by
  rw [kinds, parentheses_cons (by decide), parentheses_groupKinds, negationGrouped_eq]
  rfl

theorem parentheses_call (name : String) (args : List Filter) :
    parentheses (Filter.call name args).kinds
      = (args.map fun f => parentheses f.kinds).sum + 1 := by
  have hclose : parentheses [.closeParen] = 0 := rfl
  rw [kinds, argumentKinds_eq, List.cons_append, List.cons_append, parentheses_cons (by simp),
    parentheses_open, parentheses_append, parentheses_separated, hclose, List.map_map]
  rfl

theorem Tier.precedence_comparison {op : Operator} (h : op.isLogical = false) :
    op.precedence = Tier.comparison.precedence := by
  cases op with
  | custom name => rfl
  | known k => cases k <;> first | rfl | cases h

/-- **No spelling of an expression has fewer parentheses than the canonical one**: tokens that the
grammar derives it from have as many as it needs at their level. -/
theorem Derives.fewest {t : Tier} {ks : List Kind} {f : Filter} (h : Derives t ks f) :
    needed t.precedence f ≤ parentheses ks := by
  have binary {op : Operator} {ks ls : List Kind} {f g : Filter}
      (hf : needed op.precedence f ≤ parentheses ks)
      (hg : needed (op.precedence + 1) g ≤ parentheses ls) :
      needed op.precedence (.binary op f g) ≤ parentheses (ks ++ op.kind :: ls) := by
    rw [needed_eq (Nat.le_refl op.precedence), parentheses_binary, parentheses_append,
      parentheses_operator]
    exact Nat.add_le_add hf hg
  induction h with
  | or _ _ ih ih' => exact @binary (.known .or) _ _ _ _ ih ih'
  | and _ _ ih ih' => exact @binary (.known .and) _ _ _ _ ih ih'
  | comparison hop _ _ ih ih' =>
    rw [← Tier.precedence_comparison hop] at ih ⊢
    exact binary ih (by rwa [Tier.precedence_comparison hop])
  | ofAnd _ ih => exact (needed_mono (by decide) _).trans ih
  | ofComparison _ ih => exact (needed_mono (by decide) _).trans ih
  | ofUnary _ ih => exact (needed_mono (by decide) _).trans ih
  | ofPrimary _ ih => exact ih
  | @not ks f _ ih =>
    rw [needed_eq (Nat.le_refl tightest), parentheses_negation, parentheses_cons (by decide)]
    exact ih
  | @group ks f _ ih =>
    have hinner : parentheses f.kinds ≤ parentheses ks := (parentheses_le_needed _ f).trans ih
    have hround := Bool.toNat_le (decide (f.tightness < Tier.primary.precedence))
    rw [List.cons_append, parentheses_open, parentheses_append]
    exact (Nat.add_le_add hinner hround).trans (Nat.add_le_add_right (Nat.le_add_right _ _) 1)
  | @reference ks names _ =>
    rw [needed_eq (Nat.le_refl tightest), kinds, parentheses_cons (by decide),
      (members_of_names names).parentheses_eq]
    exact Nat.zero_le _
  | literal value =>
    rw [needed_eq (Nat.le_refl tightest)]
    exact Nat.le_refl _
  | @call name parts _ ih =>
    rw [needed_eq (Nat.le_refl tightest), parentheses_call, List.cons_append, List.cons_append,
      parentheses_cons (by simp), parentheses_open, parentheses_append, parentheses_separated,
      List.map_map]
    have hargs : (parts.map fun p => parentheses p.2.kinds).sum
        ≤ (parts.map fun p => parentheses p.1).sum :=
      List.sum_le_sum fun p hp => (parentheses_le_needed _ p.2).trans (ih p hp)
    exact Nat.add_le_add_right (hargs.trans (Nat.le_add_right _ _)) 1

/-! ## tokens of other expressions -/

section
variable {least : ℕ} {ks : List Kind} {f : Filter}

theorem DerivesFrom.to_or (h : DerivesFrom least ks f) : Derives .or ks f := by
  obtain ⟨t, -, h⟩ := h
  exact h.to_or

theorem DerivesFrom.grouped (h : DerivesFrom f.tightness ks f) {grouped : Bool}
    (hleast : least ≤ tightest) (hbare : grouped = false → least ≤ f.tightness) :
    DerivesFrom least (groupKinds grouped ks) f := by
  cases grouped with
  | true => exact ⟨.primary, hleast, .group h.to_or⟩
  | false =>
    obtain ⟨t, ht, h⟩ := h
    exact ⟨t, (hbare rfl).trans ht, h⟩

end

mutual
theorem derivesFrom_kinds (f : Filter) : DerivesFrom f.tightness f.kinds f := by
  cases f with
  | literal value => exact ⟨.primary, Nat.le_refl _, .literal value⟩
  | reference names => exact ⟨.primary, Nat.le_refl _, .reference (members_of_names names)⟩
  | binary op left right =>
    have hop := precedence_lt op
    refine ⟨.ofOperator op, (Tier.precedence_ofOperator op).ge, DerivesFrom.binary ?_ ?_⟩
    · exact (derivesFrom_kinds left).grouped hop.le bare_left
    · exact (derivesFrom_kinds right).grouped hop bare_right
  | negation operand =>
    have hoperand : DerivesFrom tightest (groupKinds operand.negationGrouped operand.kinds) operand :=
      (derivesFrom_kinds operand).grouped (Nat.le_refl _) fun h => (bare_negation h).ge
    obtain ⟨t, ht, h⟩ := hoperand
    exact ⟨.unary, Nat.le_refl _, .not (h.to_unary ht)⟩
  | call name args =>
    have hsnd : (args.map fun f => (f.kinds, f)).map Prod.snd = args := by
      rw [List.map_map]
      exact List.map_id args
    have hcall : Derives .primary (Filter.call name args).kinds
        (.call name ((args.map fun f => (f.kinds, f)).map Prod.snd)) := by
      rw [kinds, argumentKinds_eq]
      exact .call (List.forall_mem_map.mpr (derives_arguments args))
    rw [hsnd] at hcall
    exact ⟨.primary, Nat.le_refl _, hcall⟩

theorem derives_arguments (args : List Filter) : ∀ f ∈ args, Derives .or f.kinds f := by
  cases args with
  | nil => exact List.forall_mem_nil _
  | cons f args =>
    exact List.forall_mem_cons.mpr ⟨(derivesFrom_kinds f).to_or, derives_arguments args⟩
end

/-- the grammar derives some expression from the tokens -/
def Derivable (ks : List Kind) : Prop := ∃ f, Derives .or ks f

/-- what goes on with the last of the operands of `||` goes on with the whole -/
theorem Derivable.extend {ks behind : List Kind} (h : Derivable ks)
    (hand : ∀ {ks f}, Derives .and ks f → ∃ g, Derives .and (ks ++ behind) g) :
    Derivable (ks ++ behind) := by
  obtain ⟨f, h⟩ := h
  cases h with
  | ofAnd h =>
    obtain ⟨g, hg⟩ := hand h
    exact ⟨g, .ofAnd hg⟩
  | or left right =>
    obtain ⟨g, hg⟩ := hand right
    rw [List.append_assoc]
    exact ⟨_, .or left hg⟩

/-- an operator and its right operand, which holds together by itself, go to as much of what stands
in front as binds tightly enough -/
theorem Derivable.snoc {ks ls : List Kind} {g : Filter} (h : Derivable ks) (op : Operator)
    (hg : Derives .unary ls g) : Derivable (ks ++ op.kind :: ls) := by
  by_cases hor : op = .known .or
  · obtain ⟨f, h⟩ := h
    subst hor
    exact ⟨_, .or h (.ofComparison (.ofUnary hg))⟩
  by_cases hand : op = .known .and
  · subst hand
    exact h.extend fun h => ⟨_, .and h (.ofUnary hg)⟩
  have hop : op.isLogical = false := by
    cases op with
    | custom name => rfl
    | known k => cases k <;> first | rfl | contradiction
  refine h.extend fun h => ?_
  cases h with
  | ofComparison h => exact ⟨_, .ofComparison (.comparison hop h hg)⟩
  | and left right =>
    rw [List.append_assoc]
    exact ⟨_, .and left (.comparison hop right hg)⟩

/-- an operator between two expressions makes one, if not always of these two -/
theorem Derives.join {t : Tier} {ks ls : List Kind} {g : Filter} (hg : Derives t ls g)
    (h : Derivable ks) (op : Operator) : Derivable (ks ++ op.kind :: ls) := by
  induction hg generalizing ks op with
  -- what stands in front goes together with the left operand first, then the right one follows
  | @or ls ms f g _ _ ih ih' =>
    rw [← List.cons_append, ← List.append_assoc]
    exact ih' (ih h op) (.known .or)
  | and _ _ ih ih' =>
    rw [← List.cons_append, ← List.append_assoc]
    exact ih' (ih h op) (.known .and)
  | @comparison op' ls ms f g _ _ _ ih ih' =>
    rw [← List.cons_append, ← List.append_assoc]
    exact ih' (ih h op) op'
  | ofAnd _ ih => exact ih h op
  | ofComparison _ ih => exact ih h op
  | ofUnary _ ih => exact ih h op
  | ofPrimary _ ih => exact ih h op
  | not hf => exact h.snoc op (.not hf)
  | group hf => exact h.snoc op (.ofPrimary (.group hf))
  | reference hnames => exact h.snoc op (.ofPrimary (.reference hnames))
  | literal value => exact h.snoc op (.ofPrimary (.literal value))
  | call hparts => exact h.snoc op (.ofPrimary (.call hparts))

theorem Derives.negated {t : Tier} {ks : List Kind} {f : Filter} (h : Derives t ks f) :
    Derivable (.not :: ks) := by
  have single {ks : List Kind} {f : Filter} (h : Derives .unary ks f) : Derivable (.not :: ks) :=
    ⟨_, .ofAnd (.ofComparison (.ofUnary (.not h)))⟩
  induction h with
  -- the negation stays with the left operand
  | or _ right ih _ => exact right.join ih (.known .or)
  | and _ right ih _ => exact right.join ih (.known .and)
  | @comparison op _ _ _ _ _ _ right ih _ => exact right.join ih op
  | ofAnd _ ih => exact ih
  | ofComparison _ ih => exact ih
  | ofUnary _ ih => exact ih
  | ofPrimary _ ih => exact ih
  | not h => exact single (.not h)
  | group h => exact single (.ofPrimary (.group h))
  | reference hnames => exact single (.ofPrimary (.reference hnames))
  | literal value => exact single (.ofPrimary (.literal value))
  | call hparts => exact single (.ofPrimary (.call hparts))

/-! ## texts of expressions -/

/-- the text is read as the tokens of some expression, wherever one can stand -/
structure Wording (cs : List Char) (ks : List Kind) : Prop where
  begins : Begins cs
  spells : ∀ {rest : List Char}, Closes rest → Spells cs rest ks
  derivable : Derivable ks

theorem wording_chars {f : Filter} (h : f.isPrintable = true) : Wording f.chars f.kinds :=
  ⟨begins_chars f h, spells_chars f h, f, (derivesFrom_kinds f).to_or⟩

namespace Wording

variable {cs ds : List Char} {ks ls : List Kind}

theorem group (h : Wording cs ks) (grouped : Bool) :
    Wording (groupIf grouped cs) (groupKinds grouped ks) := by
  refine ⟨begins_groupIf grouped h.begins, spells_groupIf grouped h.spells, ?_⟩
  cases grouped with
  | false => exact h.derivable
  | true =>
    obtain ⟨f, hf⟩ := h.derivable
    exact ⟨f, Derives.to_or (.group hf)⟩

theorem binary (h : Wording cs ks) {op : Operator} (hop : op.isPrintable = true)
    (h' : Wording ds ls) :
    Wording (cs ++ ' ' :: op.symbol.toList ++ ' ' :: ds) (ks ++ op.kind :: ls) := by
  obtain ⟨g, hg⟩ := h'.derivable
  refine ⟨(h.begins.append _).append _, fun {rest} hrest => ?_, hg.join h.derivable op⟩
  have hblank {rest : List Char} : Closes (' ' :: rest) := closes_cons (by decide) rest
  have hsymbol {rest : List Char} := (Spells.blank _).append (spells_symbol hop rest)
  have hall := (h.spells hblank).append (hsymbol.append ((Spells.blank _).append (h'.spells hrest)))
  simpa using hall

theorem negation (h : Wording cs ks) : Wording ('!' :: cs) (.not :: ks) := by
  obtain ⟨f, hf⟩ := h.derivable
  refine ⟨⟨'!', cs, rfl, by decide⟩, fun {rest} hrest => ?_, hf.negated⟩
  exact (spells_not (h.begins.head_ne rest)).append (h.spells hrest)

end Wording

/-! ### arguments of calls -/

theorem spells_argumentsBefore {args : List Filter} (h : ∀ f ∈ args, f.isPrintable = true)
    (rest : List Char) :
    Spells (argumentsBefore args) rest (args.flatMap fun f => f.kinds ++ [.comma]) := by
  induction args with
  | nil => exact Spells.nil rest
  | cons f args ih =>
    obtain ⟨hf, hargs⟩ := List.forall_mem_cons.mp h
    have hcomma {rest : List Char} : Spells [',', ' '] rest [.comma] :=
      (spells_punctuation (c := ',') rfl _).append (Spells.blank rest)
    have hfirst {rest : List Char} : Spells (f.chars ++ [',', ' ']) rest (f.kinds ++ [.comma]) :=
      (spells_chars f hf (closes_cons (by decide) _)).append hcomma
    exact hfirst.append (ih hargs)

theorem closes_argumentsAfter (args : List Filter) {rest : List Char} (hrest : Closes rest) :
    Closes (argumentsAfter args ++ rest) := by
  cases args with
  | nil => exact hrest
  | cons f args => exact closes_cons (by decide) _

theorem spells_argumentsAfter {args : List Filter} (h : ∀ f ∈ args, f.isPrintable = true)
    {rest : List Char} (hrest : Closes rest) :
    Spells (argumentsAfter args) rest (args.flatMap fun f => .comma :: f.kinds) := by
  induction args with
  | nil => exact Spells.nil rest
  | cons f args ih =>
    obtain ⟨hf, hargs⟩ := List.forall_mem_cons.mp h
    have hfirst := (spells_punctuation (c := ',') rfl _).append
      ((Spells.blank _).append (spells_chars f hf (closes_argumentsAfter args hrest)))
    exact hfirst.append (ih hargs)

theorem separated_split (before : List (List Kind × Filter)) (p : List Kind × Filter)
    (after : List (List Kind × Filter)) :
    separated (before ++ p :: after) = (before.flatMap fun q => q.1 ++ [.comma]) ++ p.1
      ++ after.flatMap fun q => .comma :: q.1 := by
  induction before with
  | nil =>
    induction after generalizing p with
    | nil => simp [separated_singleton]
    | cons q after ih =>
      have hmore : separated (q :: after) = q.1 ++ after.flatMap fun q => .comma :: q.1 := ih q
      rw [List.nil_append, separated_cons_cons, hmore]
      simp
  | cons q before ih =>
    have hcons : separated (q :: (before ++ p :: after))
        = q.1 ++ .comma :: separated (before ++ p :: after) := by
      cases before <;> exact separated_cons_cons _ _ _
    rw [List.cons_append, hcons, ih]
    simp

theorem argumentKinds_split (before : List Filter) (f : Filter) (after : List Filter) :
    argumentKinds (before ++ f :: after) = (before.flatMap fun g => g.kinds ++ [.comma]) ++ f.kinds
      ++ after.flatMap fun g => .comma :: g.kinds := by
  rw [argumentKinds_eq, List.map_append, List.map_cons, separated_split]
  simp [List.flatMap_map]

theorem Wording.argument {cs : List Char} {ks : List Kind} (h : Wording cs ks) {name : String}
    (hname : isFreeName name = true) {before after : List Filter}
    (hbefore : ∀ f ∈ before, f.isPrintable = true) (hafter : ∀ f ∈ after, f.isPrintable = true) :
    Wording (name.toList ++ '(' :: argumentsBefore before ++ cs ++ (argumentsAfter after ++ [')']))
      (.identifier name :: .openParen :: (before.flatMap fun f => f.kinds ++ [.comma]) ++ ks
        ++ ((after.flatMap fun f => .comma :: f.kinds) ++ [.closeParen])) := by
  refine ⟨?_, fun {rest} hrest => ?_, ?_⟩
  · have hplain := ((isFreeName_iff name).mp hname).1
    exact (((begins_name hplain).append _).append _).append _
  · have hclose := spells_punctuation (c := ')') rfl rest
    have hcloses : Closes ([')'] ++ rest) := closes_cons (by decide) rest
    have hbehind := (spells_argumentsAfter hafter hcloses).append hclose
    have hfollows : Closes (argumentsAfter after ++ [')'] ++ rest) := by
      rw [List.append_assoc]
      exact closes_argumentsAfter after hcloses
    have hargs := (spells_punctuation (c := '(') rfl _).append
      ((spells_argumentsBefore hbefore _).append ((h.spells hfollows).append hbehind))
    have hall := (spells_freeName hname (breaks_cons (by decide) _)).append hargs
    simpa using hall
  · obtain ⟨f, hf⟩ := h.derivable
    let parts := before.map (fun g => (g.kinds, g)) ++ (ks, f) :: after.map fun g => (g.kinds, g)
    have hparts : ∀ p ∈ parts, Derives .or p.1 p.2 := by
      have hall (args : List Filter) : ∀ p ∈ args.map fun g => (g.kinds, g), Derives .or p.1 p.2 :=
        List.forall_mem_map.mpr (derives_arguments args)
      rw [List.forall_mem_append, List.forall_mem_cons]
      exact ⟨hall before, hf, hall after⟩
    have hcall := @Derives.call name parts hparts
    rw [separated_split, List.flatMap_map, List.flatMap_map] at hcall
    refine ⟨.call name (parts.map Prod.snd), ?_⟩
    simpa using hcall.to_or

/-- what stands around an operand, as tokens: with another text of an expression in its place, it is
the text of an expression again -/
theorem Operand.frame {f part : Filter} {before after : List Char} {grouped : Bool}
    (h : Operand f before grouped part after) (hf : f.isPrintable = true) :
    ∃ ks ls, f.kinds = ks ++ groupKinds grouped part.kinds ++ ls ∧
      ∀ {cs : List Char} {ms : List Kind}, Wording cs ms →
        Wording (before ++ cs ++ after) (ks ++ ms ++ ls) := by
  cases h with
  | left op left right =>
    rw [Filter.isPrintable, Bool.and_eq_true, Bool.and_eq_true] at hf
    have hright := (wording_chars hf.2.2).group (right.rightGrouped op.precedence)
    refine ⟨[], _, rfl, fun {cs ms} hcs => ?_⟩
    simpa using hcs.binary hf.1 hright
  | right op left right =>
    rw [Filter.isPrintable, Bool.and_eq_true, Bool.and_eq_true] at hf
    have hleft := (wording_chars hf.2.1).group (left.leftGrouped op.precedence)
    refine ⟨groupKinds (left.leftGrouped op.precedence) left.kinds ++ [op.kind], [], ?_,
      fun {cs ms} hcs => ?_⟩
    · simp [kinds]
    · simpa using hleft.binary hf.1 hcs
  | negated operand =>
    refine ⟨[.not], [], ?_, fun {cs ms} hcs => ?_⟩
    · simp [kinds]
    · simpa using hcs.negation
  | argument name before f after =>
    rw [Filter.isPrintable, Bool.and_eq_true, arePrintable_iff, List.forall_mem_append,
      List.forall_mem_cons] at hf
    refine ⟨.identifier name :: .openParen :: before.flatMap fun g => g.kinds ++ [.comma],
      (after.flatMap fun g => .comma :: g.kinds) ++ [.closeParen], ?_, fun {cs ms} hcs => ?_⟩
    · rw [kinds, argumentKinds_split]
      simp [groupKinds]
    · exact hcs.argument hf.1 hf.2.1 hf.2.2.2

section
variable {f part : Filter} {before after : List Char}

theorem Grouped.chars_eq (h : Grouped f before part after) :
    f.chars = before ++ '(' :: part.chars ++ ')' :: after := by
  induction h with
  | here h =>
    rw [h.chars_eq]
    simp [groupIf]
  | inside h _ ih =>
    rw [h.chars_eq, groupIf_eq, ih]
    simp

/-- **Without one of its pairs of parentheses, a canonical text is that of some expression.** -/
theorem Grouped.bare (h : Grouped f before part after) (hf : f.isPrintable = true) :
    ∃ ks, Wording (before ++ part.chars ++ after) ks ∧
      parentheses ks + 1 = parentheses f.kinds := by
  induction h with
  | here h =>
    obtain ⟨ks, ls, hkinds, hframe⟩ := h.frame hf
    refine ⟨_, hframe (wording_chars (h.isPrintable hf)), ?_⟩
    simp only [hkinds, parentheses_append, parentheses_groupKinds, Bool.toNat_true]
    omega
  | @inside f g part before after before' after' grouped h _ ih =>
    obtain ⟨ks, ls, hkinds, hframe⟩ := h.frame hf
    obtain ⟨ms, hms, hcount⟩ := ih (h.isPrintable hf)
    have hall := hframe (hms.group grouped)
    rw [groupIf_eq] at hall
    refine ⟨_, by simpa using hall, ?_⟩
    simp only [hkinds, parentheses_append, parentheses_groupKinds]
    omega

end

/-! ## expressions that count as the same -/

mutual
/-- only literals differ between expressions that count as the same, and these hold no
parentheses -/
theorem parentheses_of_same {f g : Filter} (h : f.same g = true) :
    f.tightness = g.tightness ∧ parentheses f.kinds = parentheses g.kinds := by
  cases f with
  | literal value =>
    cases g with
    | literal value' =>
      have hnone (value : Literal) : parentheses (Filter.literal value).kinds = 0 := by
        cases value <;> rfl
      exact ⟨rfl, (hnone value).trans (hnone value').symm⟩
    | _ => cases h
  | reference names =>
    cases g with
    | reference names' =>
      rw [eq_of_beq (show (names == names') = true from h)]
      exact ⟨rfl, rfl⟩
    | _ => cases h
  | binary op left right =>
    cases g with
    | binary op' left' right' =>
      rw [same, Bool.and_eq_true, Bool.and_eq_true] at h
      obtain ⟨⟨hop, hleft⟩, hright⟩ := h
      obtain rfl := eq_of_beq hop
      obtain ⟨hl, hl'⟩ := parentheses_of_same hleft
      obtain ⟨hr, hr'⟩ := parentheses_of_same hright
      refine ⟨rfl, ?_⟩
      rw [parentheses_binary, parentheses_binary, needed, needed, hl, hl', hr, hr']
      rfl
    | _ => cases h
  | negation operand =>
    cases g with
    | negation operand' =>
      obtain ⟨ho, ho'⟩ := parentheses_of_same (f := operand) (g := operand') h
      refine ⟨rfl, ?_⟩
      rw [parentheses_negation, parentheses_negation, needed, needed, ho, ho']
    | _ => cases h
  | call name args =>
    cases g with
    | call name' args' =>
      rw [same, Bool.and_eq_true] at h
      refine ⟨rfl, ?_⟩
      rw [parentheses_call, parentheses_call, parentheses_of_sameAll h.2]
    | _ => cases h

theorem parentheses_of_sameAll {fs gs : List Filter} (h : sameAll fs gs = true) :
    (fs.map fun f => parentheses f.kinds) = gs.map fun g => parentheses g.kinds := by
  cases fs with
  | nil =>
    cases gs with
    | nil => rfl
    | cons g gs => cases h
  | cons f fs =>
    cases gs with
    | nil => cases h
    | cons g gs =>
      rw [sameAll, Bool.and_eq_true] at h
      rw [List.map_cons, List.map_cons, (parentheses_of_same h.1).2, parentheses_of_sameAll h.2]
end

end PathQuery.Filter
