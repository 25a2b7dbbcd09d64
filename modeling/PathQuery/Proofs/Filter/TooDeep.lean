import PathQuery.Proofs.Filter.Reading

/-!
# Expressions that go too far in

The tokens of an expression whose nesting exceeds the room that there is are refused, at whatever
level the room runs out.

* `TooDeep`       a reader stops with the fault of the limit;
* `refusable`     so do all readers of expressions that nest too deep.
-/

namespace PathQuery.Filter
open Token Token.Reader

/-- reading stops with the fault of the limit -/
def TooDeep {α : Type} (b : Bounds) (r : EStateM.Result PathError (List Token) α) : Prop :=
  ∃ found position rest, r = .error (.parse (.filterDepth b.limit) found position) rest

section
variable {α β : Type} {b : Bounds} {r : Reader α} {tokens : List Token}

theorem TooDeep.bind (h : TooDeep b (r tokens)) (k : α → Reader β) :
    TooDeep b ((r >>= k) tokens) := by
  obtain ⟨found, position, rest, h⟩ := h
  exact ⟨found, position, rest, bind_error h k⟩

theorem TooDeep.map (h : TooDeep b (r tokens)) (g : α → β) : TooDeep b ((g <$> r) tokens) := by
  obtain ⟨found, position, rest, h⟩ := h
  exact ⟨found, position, rest, map_error h g⟩

theorem enter_none (position : ℕ) : TooDeep b (enter b position none tokens) :=
  ⟨_, _, _, rfl⟩

end

/-- the tokens of `f` are refused wherever there is no room for them -/
def Refusable (b : Bounds) (f : Filter) : Prop :=
  ∀ ⦃room least : ℕ⦄ ⦃tokens : List Token⦄, room < f.nesting → least ≤ f.tightness →
    tokens.map Token.kind = f.kinds →
    ∀ rest, TooDeep b (level b (innerOf b room) least (tokens ++ rest))

theorem TooDeep.of_operand {b : Bounds} {inner : Inner} {tokens : List Token}
    (h : TooDeep b (operand b inner tokens)) (least : ℕ) : TooDeep b (level b inner least tokens) :=
  h.bind _

theorem Refusable.group {b : Bounds} {f : Filter} (hf : Refusable b f) {room : ℕ}
    (hroom : room < f.nesting + 1) (least : ℕ) {tokens : List Token}
    (h : tokens.map Token.kind = .openParen :: f.kinds ++ [.closeParen]) (rest : List Token) :
    TooDeep b (level b (innerOf b room) least (tokens ++ rest)) := by
  rw [List.cons_append, List.map_eq_cons_iff] at h
  obtain ⟨t, ts, rfl, ht, h⟩ := h
  rw [List.map_eq_append_iff] at h
  obtain ⟨ts, us, rfl, hts, _⟩ := h
  refine TooDeep.of_operand ?_ least
  rw [List.cons_append, operand_eq_primary b _ (by rw [ht]; decide)]
  unfold primary
  rw [ht]
  show TooDeep b (Filter.group b (innerOf b room) t.position (ts ++ us ++ rest))
  unfold Filter.group
  cases room with
  | zero => exact (enter_none t.position).bind _
  | succ room =>
    rw [bind_ok (enter_innerOf b room _ _), List.append_assoc]
    refine TooDeep.bind ?_ _
    rw [expression_eq]
    exact hf (Nat.lt_of_succ_lt_succ hroom) f.tightness_pos hts (us ++ rest)

theorem Refusable.grouped {b : Bounds} {f : Filter} (hf : Refusable b f) {grouped : Bool}
    {room least : ℕ} (hroom : room < groupNesting grouped f.nesting) {tokens : List Token}
    (h : tokens.map Token.kind = groupKinds grouped f.kinds)
    (hbare : grouped = false → least ≤ f.tightness) (rest : List Token) :
    TooDeep b (level b (innerOf b room) least (tokens ++ rest)) := by
  cases grouped with
  | false => exact hf hroom (hbare rfl) h rest
  | true => exact hf.group hroom least h rest

theorem Refusable.binary {b : Bounds} {op : Operator} {left right : Filter}
    (hl : Refusable b left) (hr : Refusable b right) (hread : Readable b left) :
    Refusable b (.binary op left right) := by
  intro room least tokens hroom hleast h rest
  have hnest : room < max (groupNesting (left.leftGrouped op.precedence) left.nesting)
      (groupNesting (right.rightGrouped op.precedence) right.nesting + 1) := hroom
  have hleast' : least ≤ op.precedence := hleast
  unfold kinds at h
  rw [List.map_eq_append_iff] at h
  obtain ⟨ts, us, rfl, hts, h⟩ := h
  rw [List.map_eq_cons_iff] at h
  obtain ⟨u, us, rfl, hu, hus⟩ := h
  rw [List.append_assoc, List.cons_append]
  rcases Nat.lt_or_ge room (groupNesting (left.leftGrouped op.precedence) left.nesting) with
    hleft | hleft
  · exact hl.grouped hleft hts (fun hbare => hleast'.trans (bare_left hbare)) _
  · -- the left operand is read, and the right one stands one level further in
    have hright := (lt_max_iff.mp hnest).resolve_left (Nat.not_lt.mpr hleft)
    have hoperator := Follows.operator_token hu (us ++ rest)
    obtain ⟨tries, htries, hlevel⟩ := hread.grouped hleft hts (u :: (us ++ rest))
      fun hbare => ⟨hleast'.trans (bare_left hbare), hoperator.mono (bare_left hbare)⟩
    rw [List.length_cons] at htries
    obtain ⟨tries, rfl⟩ : ∃ n, tries = n + 1 := ⟨tries - 1, by omega⟩
    rw [hlevel]
    unfold chainUpTo
    rw [bind_ok (operator_some hu hleast' _)]
    dsimp only
    cases room with
    | zero => exact (enter_none u.position).bind _
    | succ room =>
      rw [bind_ok (enter_innerOf b room _ _)]
      refine TooDeep.bind ?_ _
      rw [expression_eq]
      exact hr.grouped (Nat.lt_of_succ_lt_succ hright) hus bare_right rest

theorem Refusable.negation {b : Bounds} {operand : Filter} (hf : Refusable b operand) :
    Refusable b (.negation operand) := by
  intro room least tokens hroom hleast h rest
  have hnest : room < groupNesting operand.negationGrouped operand.nesting + 1 := hroom
  unfold kinds at h
  rw [List.map_eq_cons_iff] at h
  obtain ⟨t, ts, rfl, ht, hts⟩ := h
  refine TooDeep.of_operand ?_ least
  show TooDeep b (Filter.operand b (innerOf b room) (t :: (ts ++ rest)))
  unfold Filter.operand
  rw [bind_ok (next_cons _ _ _), if_pos ht]
  cases room with
  | zero => exact (enter_none t.position).bind _
  | succ room =>
    rw [bind_ok (enter_innerOf b room _ _)]
    refine TooDeep.bind ?_ _
    rw [expression_eq]
    exact hf.grouped (Nat.lt_of_succ_lt_succ hnest) hts (fun hbare => (bare_negation hbare).ge) rest

/-! ## arguments -/

theorem argumentsUpTo_tooDeep {b : Bounds} {room : ℕ} {f : Filter} {args : List Filter}
    (hargs : ∀ g ∈ f :: args, Refusable b g) (hread : ∀ g ∈ f :: args, Readable b g)
    (hroom : room < nestings (f :: args)) {tokens : List Token}
    (h : tokens.map Token.kind = argumentKinds (f :: args)) {tries : ℕ}
    (htries : args.length ≤ tries) (rest : List Token) :
    TooDeep b (argumentsUpTo (expression b room 1) tries (tokens ++ rest)) := by
  have hfirst (hf : room < f.nesting) {ts : List Token} (hts : ts.map Token.kind = f.kinds)
      (us : List Token) : TooDeep b (expression b room 1 (ts ++ us)) := by
    rw [expression_eq]
    exact hargs f List.mem_cons_self hf f.tightness_pos hts us
  induction args generalizing f tokens tries with
  | nil =>
    have hf : room < f.nesting := by
      have hmax : room < max f.nesting 0 := hroom
      rwa [Nat.max_zero] at hmax
    cases tries with
    | zero => exact (hfirst hf h rest).map _
    | succ tries => exact (hfirst hf h rest).bind _
  | cons g args ih =>
    rw [List.length_cons] at htries
    obtain ⟨tries, rfl⟩ : ∃ n, tries = n + 1 := ⟨tries - 1, by omega⟩
    have h' : tokens.map Token.kind = f.kinds ++ .comma :: argumentKinds (g :: args) := h
    rw [List.map_eq_append_iff] at h'
    obtain ⟨ts, us, rfl, hts, h'⟩ := h'
    rw [List.map_eq_cons_iff] at h'
    obtain ⟨c, us, rfl, hc, hus⟩ := h'
    rw [List.append_assoc, List.cons_append]
    unfold argumentsUpTo
    rcases Nat.lt_or_ge room f.nesting with hf | hf
    · exact (hfirst hf hts _).bind _
    · have hmore : room < nestings (g :: args) :=
        (lt_max_iff.mp hroom).resolve_left (Nat.not_lt.mpr hf)
      have hok := (hread f List.mem_cons_self).expression_ok hf hts
        fun p => Follows.closer (.inr (.inl hc)) p (us ++ rest)
      rw [bind_ok hok, bind_ok (skipIf_ok hc _), if_pos rfl]
      refine TooDeep.map ?_ _
      refine ih (fun g' hg' => hargs g' (List.mem_cons_of_mem f hg'))
        (fun g' hg' => hread g' (List.mem_cons_of_mem f hg')) hmore hus
        (Nat.le_of_succ_le_succ htries) fun hg ts hts us => ?_
      rw [expression_eq]
      exact hargs g (List.mem_cons_of_mem f List.mem_cons_self) hg g.tightness_pos hts us

theorem Refusable.call {b : Bounds} {name : String} {args : List Filter}
    (hargs : ∀ g ∈ args, Refusable b g) (hread : ∀ g ∈ args, Readable b g) :
    Refusable b (.call name args) := by
  intro room least tokens hroom hleast h rest
  have hnest : room < nestings args + 1 := hroom
  unfold kinds at h
  rw [List.cons_append, List.cons_append, List.map_eq_cons_iff] at h
  obtain ⟨t, ts, rfl, ht, h⟩ := h
  rw [List.map_eq_cons_iff] at h
  obtain ⟨o, ts, rfl, ho, h⟩ := h
  rw [List.map_eq_append_iff] at h
  obtain ⟨ts, us, rfl, hts, _⟩ := h
  refine TooDeep.of_operand ?_ least
  rw [List.cons_append, List.cons_append, operand_eq_primary b _ (by rw [ht]; simp)]
  unfold primary
  rw [ht]
  dsimp only
  rw [bind_ok (skipIf_ok ho _), if_pos rfl]
  unfold callOf
  cases room with
  | zero => exact (enter_none t.position).bind _
  | succ room =>
    rw [bind_ok (enter_innerOf b room _ _)]
    refine TooDeep.bind ?_ _
    have hdeep : room < nestings args := Nat.lt_of_succ_lt_succ hnest
    cases args with
    | nil => cases hdeep
    | cons f args =>
      have hlen := length_le_argumentKinds (f :: args)
      rw [← hts, List.length_map] at hlen
      obtain ⟨k, ks, hk, hne⟩ := argumentKinds_cons f args
      have hcons := hts.trans hk
      rw [List.map_eq_cons_iff] at hcons
      obtain ⟨t', ts', rfl, ht', _⟩ := hcons
      unfold arguments
      rw [List.append_assoc, List.cons_append, bind_ok (skipIf_of_ne (by rw [ht']; exact hne) _),
        if_neg Bool.false_ne_true]
      refine TooDeep.bind ?_ _
      refine argumentsUpTo_tooDeep hargs hread hdeep hts ?_ (us ++ rest)
      rw [List.length_cons] at hlen
      rw [List.length_cons, List.length_append]
      rw [List.length_cons] at hlen
      omega

/-! ## all expressions -/

mutual
/-- **The tokens of an expression that nests deeper than there is room are refused.** -/
theorem refusable (b : Bounds) (f : Filter) (h : f.height ≤ b.limit) : Refusable b f := by
  cases f with
  | literal value =>
    intro room least tokens hroom
    cases hroom
  | reference names =>
    intro room least tokens hroom
    cases hroom
  | binary op left right =>
    have hmax : max left.height right.height + 1 ≤ b.limit := h
    obtain ⟨hl, hr⟩ := max_le_iff.mp (Nat.le_of_succ_le hmax)
    exact (refusable b left hl).binary (refusable b right hr) (readable b left hl)
  | negation operand =>
    have hoperand : operand.height + 1 ≤ b.limit := h
    exact (refusable b operand (Nat.le_of_succ_le hoperand)).negation
  | call name args =>
    have hargs : heights args + 1 ≤ b.limit := h
    exact Refusable.call (refusables b args (Nat.le_of_succ_le hargs))
      (readables b args (Nat.le_of_succ_le hargs))

theorem refusables (b : Bounds) (args : List Filter) (h : heights args ≤ b.limit) :
    ∀ f ∈ args, Refusable b f := by
  cases args with
  | nil =>
    intro f hf
    cases hf
  | cons g args =>
    obtain ⟨hg, hargs⟩ := max_le_iff.mp (show max g.height (heights args) ≤ b.limit from h)
    intro f hf
    rcases List.mem_cons.mp hf with heq | hf
    · rw [heq]
      exact refusable b g hg
    · exact refusables b args hargs f hf
end

end PathQuery.Filter
