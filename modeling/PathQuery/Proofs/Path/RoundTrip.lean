import PathQuery.Proofs.Path.Reading

/-!
# The round trip of canonical texts

The canonical text of a path is read back as the path, whatever its steps and filters are, as long
as the limit on the levels of filters does not bind.

* `Filter.nesting_lt_kinds`, `Filter.height_le_kinds`   no filter has more levels than tokens;
* `Path.parse_text`           the text is read back where there is room for the filters;
* `Path.fits_of_length_le`    a limit of as many levels as the text has tokens leaves room.
-/

namespace PathQuery
open Token

namespace Filter

theorem groupNesting_lt (grouped : Bool) {n : ℕ} {kinds : List Kind} (h : n < kinds.length) :
    groupNesting grouped n < (groupKinds grouped kinds).length := by
  cases grouped with
  | false => exact h
  | true =>
    show n + 1 < (Kind.openParen :: kinds ++ [Kind.closeParen]).length
    rw [List.length_append, List.length_cons, List.length_singleton]
    omega

theorem length_le_groupKinds (grouped : Bool) (kinds : List Kind) :
    kinds.length ≤ (groupKinds grouped kinds).length := by
  cases grouped with
  | false => exact le_rfl
  | true =>
    show kinds.length ≤ (Kind.openParen :: kinds ++ [Kind.closeParen]).length
    rw [List.length_append, List.length_cons]
    omega

theorem length_argumentKinds_cons (f : Filter) (args : List Filter) :
    f.kinds.length + (argumentKinds args).length ≤ (argumentKinds (f :: args)).length := by
  cases args with
  | nil => exact le_rfl
  | cons g args =>
    show _ ≤ (f.kinds ++ .comma :: argumentKinds (g :: args)).length
    rw [List.length_append, List.length_cons]
    omega

mutual
/-- the text of an expression goes fewer levels further in than it has tokens -/
theorem nesting_lt_kinds (f : Filter) : f.nesting < f.kinds.length := by
  cases f with
  | literal value => exact Nat.one_pos
  | reference names => exact Nat.succ_pos _
  | binary op left right =>
    have hl := groupNesting_lt (left.leftGrouped op.precedence) (nesting_lt_kinds left)
    have hr := groupNesting_lt (right.rightGrouped op.precedence) (nesting_lt_kinds right)
    rw [nesting, kinds, List.length_append, List.length_cons]
    omega
  | negation operand =>
    have ho := groupNesting_lt operand.negationGrouped (nesting_lt_kinds operand)
    rw [nesting, kinds, List.length_cons]
    omega
  | call name args =>
    have ha := nestings_le_kinds args
    rw [nesting, kinds, List.length_append, List.length_cons, List.length_cons]
    omega

theorem nestings_le_kinds (args : List Filter) : nestings args ≤ (argumentKinds args).length := by
  cases args with
  | nil => exact le_rfl
  | cons f args =>
    have hf := nesting_lt_kinds f
    have ha := nestings_le_kinds args
    have hlen := length_argumentKinds_cons f args
    rw [nestings]
    omega
end

mutual
theorem height_le_kinds (f : Filter) : f.height ≤ f.kinds.length := by
  cases f with
  | literal value => exact le_rfl
  | reference names => exact Nat.succ_pos _
  | binary op left right =>
    have hl := (height_le_kinds left).trans
      (length_le_groupKinds (left.leftGrouped op.precedence) left.kinds)
    have hr := (height_le_kinds right).trans
      (length_le_groupKinds (right.rightGrouped op.precedence) right.kinds)
    rw [height, kinds, List.length_append, List.length_cons]
    omega
  | negation operand =>
    have ho := (height_le_kinds operand).trans
      (length_le_groupKinds operand.negationGrouped operand.kinds)
    rw [height, kinds, List.length_cons]
    omega
  | call name args =>
    have ha := heights_le_kinds args
    rw [height, kinds, List.length_append, List.length_cons, List.length_cons]
    omega

theorem heights_le_kinds (args : List Filter) : heights args ≤ (argumentKinds args).length := by
  cases args with
  | nil => exact le_rfl
  | cons f args =>
    have hf := height_le_kinds f
    have ha := heights_le_kinds args
    have hlen := length_argumentKinds_cons f args
    rw [heights]
    omega
end

end Filter

namespace Path

/-- a limit of as many levels as there are tokens does not bind -/
theorem fits_of_length_le {p : Path} {limit : ℕ} (h : p.kinds.length ≤ limit) :
    ∀ step ∈ p.normalized, step.Fits limit := by
  intro step hs f hf
  cases step with
  | filter g =>
    cases hf
    obtain ⟨before, after, heq⟩ := List.append_of_mem hs
    have hheight := f.height_le_kinds
    have hnesting := f.nesting_lt_kinds
    rw [kinds, ← normalized_kinds, heq, List.flatMap_append, List.flatMap_cons, Step.kinds,
      List.length_cons, List.length_append, List.length_append, List.length_append,
      List.length_cons, List.length_cons, List.length_cons] at h
    omega
  | _ => cases hf

/-- paths of the same steps behind a leading `$` have the same text -/
theorem text_eq_of_normalized {p q : Path} (h : q.normalized = p.normalized) : q.text = p.text := by
  rw [text, text, chars, chars, ← normalized_chars q, ← normalized_chars p, h]

theorem normalized_of_steps {q : Path} {steps : List Step} (h : q.steps = .root :: steps) :
    q.normalized = steps := by
  rw [normalized, h]

/-- where there is room for the filters, the canonical text is read back -/
theorem parse_text {p : Path} (h : p.isPrintable = true) {o : ParseOptions}
    (hv : o.validate = false) (hfit : ∀ step ∈ p.normalized, step.Fits o.maxFilterDepth) :
    ∃ q, parse o p.text = ⟨some q, none⟩ ∧ q.normalized = p.normalized ∧ q.text = p.text := by
  obtain ⟨q, hread, hsteps⟩ := readText_ok h hfit
  have hnormalized := normalized_of_steps hsteps
  refine ⟨q, ?_, hnormalized, text_eq_of_normalized hnormalized⟩
  unfold parse
  rw [hread]
  dsimp only
  rw [hv, if_neg Bool.false_ne_true]

/-- **The canonical text of a path is read back as that path**, and then has the same canonical
text, for every path that can be written and every limit of at least as many levels as there are
tokens. -/
theorem text_round_trip (p : Path) (h : p.isPrintable = true) :
    ∃ tokens, lex p.text = .ok tokens ∧
      ∀ o : ParseOptions, o.validate = false → tokens.length ≤ o.maxFilterDepth →
        ∃ q, parse o p.text = ⟨some q, none⟩ ∧ q.normalized = p.normalized ∧ q.text = p.text := by
  obtain ⟨tokens, htokens, hlex⟩ := lex_text h
  refine ⟨tokens, hlex, ?_⟩
  intro o hv hlen
  have hkinds : p.kinds.length ≤ tokens.length := by
    have := congrArg List.length htokens
    rw [List.length_map, List.length_append] at this
    omega
  exact parse_text h hv (fits_of_length_le (hkinds.trans hlen))

/-- names that have to be quoted, negative numbers, and operators of all precedences -/
theorem text_round_trip_mixed :
    let p := ofSteps [.property "", .descendants (some "say \"hi\""), .slice ⟨none, some (-1), none⟩,
      .filter (.negation (.binary (.known .and)
        (.binary (.known .or) (.reference ["a", "b c"]) (.literal (.float (-0.5))))
        (.binary (.custom "near") (.call "f" [.literal .null, .literal (.integer (-7))])
          (.binary (.known .pattern) (.literal (.text "\n'")) (.literal (.bool true))))))]
    p.isPrintable = true ∧ ∃ tokens, lex p.text = .ok tokens ∧
      ∀ o : ParseOptions, o.validate = false → tokens.length ≤ o.maxFilterDepth →
        ∃ q, parse o p.text = ⟨some q, none⟩ ∧ q.normalized = p.normalized ∧ q.text = p.text :=
  ⟨by decide +kernel, text_round_trip _ (by decide +kernel)⟩

end Path
end PathQuery
