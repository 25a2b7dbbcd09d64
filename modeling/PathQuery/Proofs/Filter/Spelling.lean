import PathQuery.Proofs.Token.Literals

/-!
# The tokens of filter expressions

* `isPrintable`     the expressions whose canonical text can be read back;
* `kinds`           the tokens of the canonical text of an expression;
* `spells_chars`    that text is read as these tokens.
-/

namespace PathQuery
open Token

/-- the names that are one identifier: plain, and no keyword -/
def isFreeName (name : String) : Bool := isPlainName name && !isKeyword name

/-- integers and floats that a literal can stand for -/
def Literal.isPrintable : Literal → Bool
  | .integer n => inIntegerRange n
  | .float x => Decimal.isFinite x
  | _ => true

def Literal.kind : Literal → Kind
  | .text value => .text value
  | .integer n => .integer n
  | .float x => .float x
  | .bool value => .bool value
  | .null => .null

/-- operators of a host have to be named by one identifier -/
def Operator.isPrintable : Operator → Bool
  | .known _ => true
  | .custom name => isFreeName name

def Operator.kind : Operator → Kind
  | .known k => .operator k
  | .custom name => .identifier name

/-- the tokens of a name after a dot or in brackets -/
def memberKinds (name : String) : List Kind :=
  if isPlainName name then [.dot, wordKind name] else [.openBracket, .text name, .closeBracket]

namespace Filter

mutual
/-- all literals can be written, and all names of a host are identifiers -/
def isPrintable : Filter → Bool
  | literal value => value.isPrintable
  | reference _ => true
  | binary op left right => op.isPrintable && (left.isPrintable && right.isPrintable)
  | negation operand => operand.isPrintable
  | call name args => isFreeName name && arePrintable args

def arePrintable : List Filter → Bool
  | [] => true
  | f :: rest => f.isPrintable && arePrintable rest
end

def groupKinds (grouped : Bool) (kinds : List Kind) : List Kind :=
  if grouped then .openParen :: kinds ++ [.closeParen] else kinds

mutual
/-- the tokens of the canonical text of an expression -/
def kinds : Filter → List Kind
  | literal value => [value.kind]
  | reference names => .current :: names.flatMap memberKinds
  | binary op left right =>
    groupKinds (left.leftGrouped op.precedence) left.kinds
      ++ op.kind :: groupKinds (right.rightGrouped op.precedence) right.kinds
  | negation operand => .not :: groupKinds operand.negationGrouped operand.kinds
  | call name args => .identifier name :: .openParen :: argumentKinds args ++ [.closeParen]

def argumentKinds : List Filter → List Kind
  | [] => []
  | [f] => f.kinds
  | f :: rest => f.kinds ++ .comma :: argumentKinds rest
end

end Filter

/-! ## names and operators -/

theorem isFreeName_iff (name : String) :
    isFreeName name = true ↔ isPlainName name = true ∧ isKeyword name = false := by
  rw [isFreeName, Bool.and_eq_true, Bool.not_eq_true']

theorem spells_freeName {name : String} (h : isFreeName name = true) {rest : List Char}
    (hrest : Breaks rest) : Spells name.toList rest [.identifier name] := by
  obtain ⟨hplain, hkeyword⟩ := (isFreeName_iff name).mp h
  rw [← wordKind_of_not_keyword hkeyword]
  exact spells_name hplain hrest

theorem spells_member (name : String) {rest : List Char} (hrest : Breaks rest) :
    Spells (memberChars name) rest (memberKinds name) := by
  unfold memberChars memberKinds
  by_cases h : isPlainName name = true
  · rw [if_pos h, if_pos h]
    exact (spells_dot (isPlainName_ne_dot h rest)).append (spells_name h hrest)
  · rw [if_neg h, if_neg h]
    have hclose := spells_punctuation (c := ']') rfl rest
    exact ((spells_punctuation (c := '[') rfl _).append (spells_quoted name _)).append hclose

theorem memberChars_breaks (name : String) (rest : List Char) :
    Breaks (memberChars name ++ rest) := by
  unfold memberChars
  split
  · exact breaks_cons (by decide) _
  · exact breaks_cons (by decide) _

theorem spells_members (names : List String) {rest : List Char} (hrest : Breaks rest) :
    Spells (names.flatMap memberChars) rest (names.flatMap memberKinds) := by
  induction names with
  | nil => exact Spells.nil rest
  | cons name names ih =>
    rw [List.flatMap_cons, List.flatMap_cons]
    refine (spells_member name ?_).append ih
    cases names with
    | nil => exact hrest
    | cons name' names =>
      rw [List.flatMap_cons, List.append_assoc]
      exact memberChars_breaks name' _

theorem spells_symbol {op : Operator} (h : op.isPrintable = true) (rest : List Char) :
    Spells op.symbol.toList (' ' :: rest) [op.kind] := by
  have hblank : Breaks (' ' :: rest) := breaks_cons (by decide) rest
  have word (name : String) (hplain : isPlainName name = true) :
      Spells name.toList (' ' :: rest) [wordKind name] := spells_name hplain hblank
  cases op with
  | custom name => exact spells_freeName h hblank
  | known k =>
    cases k with
    | comparison c =>
      cases c with
      | equal => exact Spells.lexeme ['='] (by decide) rfl
      | notEqual => exact Spells.lexeme ['='] (by decide) rfl
      | less => exact Spells.single (by decide) rfl
      | lessEq => exact Spells.lexeme ['='] (by decide) rfl
      | greater => exact Spells.single (by decide) rfl
      | greaterEq => exact Spells.lexeme ['='] (by decide) rfl
    | textTest t => cases t <;> exact word _ (by decide)
    | pattern => exact word "matches" (by decide)
    | and => exact Spells.lexeme ['&'] (by decide) rfl
    | or => exact Spells.lexeme ['|'] (by decide) rfl

namespace Filter

/-! ## expressions -/

theorem spells_literal {value : Literal} (h : value.isPrintable = true) {rest : List Char}
    (hrest : Closes rest) : Spells (literalChars value) rest [value.kind] := by
  have word (name : String) (hplain : isPlainName name = true) :
      Spells name.toList rest [wordKind name] := spells_name hplain hrest.breaks
  cases value with
  | text value => exact spells_quoted value rest
  | integer n => exact spells_integer h hrest
  | float x => exact spells_float h hrest
  | bool value => cases value <;> exact word _ (by decide)
  | null => exact word "null" (by decide)

theorem spells_groupIf (grouped : Bool) {cs rest : List Char} {ks : List Kind}
    (h : ∀ {rest}, Closes rest → Spells cs rest ks) (hrest : Closes rest) :
    Spells (groupIf grouped cs) rest (groupKinds grouped ks) := by
  cases grouped with
  | false => exact h hrest
  | true =>
    have hclose := spells_punctuation (c := ')') rfl rest
    have hinner := h (closes_cons (c := ')') (by decide) rest)
    exact ((spells_punctuation (c := '(') rfl _).append hinner).append hclose

/-- no expression begins with `=`, so that a `!` in front of it stays by itself -/
def Begins (cs : List Char) : Prop := ∃ c ds, cs = c :: ds ∧ c ≠ '='

theorem Begins.append {cs : List Char} (h : Begins cs) (ds : List Char) : Begins (cs ++ ds) := by
  obtain ⟨c, cs, rfl, hc⟩ := h
  exact ⟨c, cs ++ ds, rfl, hc⟩

theorem Begins.head_ne {cs : List Char} (h : Begins cs) (rest : List Char) :
    ∀ d ∈ (cs ++ rest).head?, d ≠ '=' := by
  obtain ⟨c, cs, rfl, hc⟩ := h
  intro d hd
  cases hd
  exact hc

theorem begins_groupIf (grouped : Bool) {cs : List Char} (h : Begins cs) :
    Begins (groupIf grouped cs) := by
  cases grouped with
  | false => exact h
  | true => exact ⟨'(', _, rfl, by decide⟩

theorem begins_signed {cs : List Char} {c : Char} (h : c.isDigit = true ∨ c = '-')
    (hcs : ∃ ds, cs = c :: ds) : Begins cs := by
  obtain ⟨ds, rfl⟩ := hcs
  refine ⟨c, ds, rfl, ?_⟩
  rintro rfl
  revert h
  decide

theorem begins_name {name : String} (h : isPlainName name = true) : Begins name.toList := by
  obtain ⟨c, cs, heq, hc, _⟩ := isPlainName_cases h
  exact ⟨c, cs, heq, isNameStart_ne hc (by decide)⟩

theorem begins_literal {value : Literal} (h : value.isPrintable = true) :
    Begins (literalChars value) := by
  cases value with
  | text value => exact ⟨'"', _, rfl, by decide⟩
  | integer n =>
    have hne : Nat.toDigits 10 n.natAbs ≠ [] := Nat.toDigits_ne_nil
    obtain ⟨c, cs, heq, hc⟩ := signed_cons (decide (n < 0)) hne
      fun c => Decimal.isDigit_of_mem_toDigits
    simp only [decide_eq_true_eq] at heq
    exact begins_signed hc ⟨cs, heq⟩
  | float x =>
    obtain ⟨negative, q, whole, fraction, ds, hp, hchars, _⟩ := Decimal.literal_chars h
    obtain ⟨c, cs, heq, hc⟩ := signed_cons negative hp.whole_ne hp.whole_digits
    refine begins_signed hc ⟨cs ++ '.' :: fraction, ?_⟩
    show Decimal.Layout.literal.chars x = _
    rw [hchars, hp.chars, ← List.append_assoc, heq]
    rfl
  | bool value => cases value <;> exact begins_name (by decide)
  | null => exact begins_name (by decide : isPlainName "null" = true)

theorem begins_chars (f : Filter) (h : f.isPrintable = true) : Begins f.chars := by
  cases f with
  | literal value => exact begins_literal h
  | reference names => exact ⟨'@', _, rfl, by decide⟩
  | binary op left right =>
    rw [isPrintable, Bool.and_eq_true, Bool.and_eq_true] at h
    exact ((begins_groupIf _ (begins_chars left h.2.1)).append _).append _
  | negation operand => exact ⟨'!', _, rfl, by decide⟩
  | call name args =>
    rw [isPrintable, Bool.and_eq_true, isFreeName_iff] at h
    exact ((begins_name h.1.1).append _).append _

mutual
/-- **The canonical text of an expression is read as its tokens.** -/
theorem spells_chars (f : Filter) (h : f.isPrintable = true) {rest : List Char}
    (hrest : Closes rest) : Spells f.chars rest f.kinds := by
  cases f with
  | literal value => exact spells_literal h hrest
  | reference names =>
    exact (spells_punctuation (c := '@') rfl _).append (spells_members names hrest.breaks)
  | binary op left right =>
    rw [isPrintable, Bool.and_eq_true, Bool.and_eq_true] at h
    obtain ⟨hop, hleft, hright⟩ := h
    have hblank {rest : List Char} : Closes (' ' :: rest) := closes_cons (by decide) rest
    have hl {rest : List Char} := spells_groupIf (left.leftGrouped op.precedence)
      (spells_chars left hleft) (@hblank rest)
    have hr := spells_groupIf (right.rightGrouped op.precedence) (spells_chars right hright) hrest
    have hsymbol {rest : List Char} := (Spells.blank _).append (spells_symbol hop rest)
    have hall := (hl.append hsymbol).append ((Spells.blank _).append hr)
    rw [List.append_assoc (groupKinds _ _)] at hall
    exact hall
  | negation operand =>
    have hb := begins_groupIf operand.negationGrouped (begins_chars operand h)
    exact (spells_not (hb.head_ne rest)).append
      (spells_groupIf operand.negationGrouped (spells_chars operand h) hrest)
  | call name args =>
    rw [isPrintable, Bool.and_eq_true] at h
    obtain ⟨hname, hargs⟩ := h
    have hclose := spells_punctuation (c := ')') rfl rest
    have ha := spells_argumentChars args hargs (closes_cons (c := ')') (by decide) rest)
    have hopen := (spells_punctuation (c := '(') rfl _).append ha
    exact ((spells_freeName hname (breaks_cons (by decide) _)).append hopen).append hclose

theorem spells_argumentChars (args : List Filter) (h : arePrintable args = true)
    {rest : List Char} (hrest : Closes rest) :
    Spells (argumentChars args) rest (argumentKinds args) := by
  cases args with
  | nil => exact Spells.nil rest
  | cons f args =>
    rw [arePrintable, Bool.and_eq_true] at h
    obtain ⟨hf, hargs⟩ := h
    cases args with
    | nil => exact spells_chars f hf hrest
    | cons g args =>
      have hmore := spells_argumentChars (g :: args) hargs hrest
      have hcomma := (spells_punctuation (c := ',') rfl _).append ((Spells.blank _).append hmore)
      exact (spells_chars f hf (closes_cons (c := ',') (by decide) _)).append hcomma
end

end Filter
end PathQuery
