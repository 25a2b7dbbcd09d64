import PathQuery.Path.Parser
import PathQuery.Proofs.Filter.Reading
import PathQuery.Proofs.Path.Spelling

/-!
# Reading the tokens of paths

The tokens of the canonical text of a path are read as its steps, behind a leading `$`, if there
is room for its filters.

* `Step.Fits`            there is room for the filter of a step;
* `Step.readSegment_ok`  the tokens of one step;
* `Path.readRest_ok`     the tokens of a row of steps;
* `Path.readText_ok`     a whole text.
-/

namespace PathQuery
open Token Token.Reader

namespace Step

/-- there is room for the filter of a step and for the parentheses around it -/
def Fits (limit : ℕ) (step : Step) : Prop :=
  ∀ f, step.filter? = some f → f.height ≤ limit ∧ f.nesting < limit

theorem closed_ok (finish : ℕ) (step : Step) {t : Token} (h : t.kind = .closeBracket)
    (rest : List Token) : closed finish step (t :: rest) = .ok step rest := by
  unfold closed
  rw [bind_ok (expect_ok _ _ h rest)]
  rfl

theorem readInteger_ok {n : Option Int} {tokens : List Token}
    (h : tokens.map Token.kind = integerKinds n) {rest : List Token}
    (hrest : ∀ t ∈ rest.head?, ∀ i, t.kind ≠ .integer i) :
    readInteger? (tokens ++ rest) = .ok n rest := by
  cases n with
  | none =>
    rw [integerKinds, Option.map_none, Option.getD_none, List.map_eq_nil_iff] at h
    subst h
    cases rest with
    | nil => rfl
    | cons t rest =>
      rw [List.nil_append, readInteger?]
      cases hk : t.kind with
      | integer i => exact absurd hk (hrest t rfl i)
      | _ => rfl
  | some n =>
    rw [integerKinds, Option.map_some, Option.getD_some, List.map_eq_singleton_iff] at h
    obtain ⟨t, rfl, ht⟩ := h
    rw [List.singleton_append, readInteger?, ht]

theorem not_integer_of_kind {t : Token} {kind : Kind} (ht : t.kind = kind) (rest : List Token)
    (hkind : ∀ i, kind ≠ .integer i) : ∀ t' ∈ (t :: rest).head?, ∀ i, t'.kind ≠ .integer i := by
  intro t' ht' i
  cases ht'
  rw [ht]
  exact hkind i

theorem readSlice_stop (finish : ℕ) (start stop : Option Int) {tokens : List Token}
    (h : tokens.map Token.kind = integerKinds stop ++ [.closeBracket]) (rest : List Token) :
    readSlice finish start (tokens ++ rest) = .ok (.slice ⟨start, stop, none⟩) rest := by
  rw [List.map_eq_append_iff] at h
  obtain ⟨ts, us, rfl, hts, hus⟩ := h
  rw [List.map_eq_singleton_iff] at hus
  obtain ⟨u, rfl, hu⟩ := hus
  have hstop := readInteger_ok hts (not_integer_of_kind hu rest (by simp))
  unfold readSlice
  rw [List.append_assoc, List.singleton_append, bind_ok hstop,
    bind_ok (skipIf_of_ne (by rw [hu]; decide) rest), if_neg Bool.false_ne_true,
    bind_ok (pure_eq none _)]
  dsimp only
  rw [bind_ok (expect_ok _ _ hu rest)]
  rfl

theorem readSlice_step (finish : ℕ) (start stop step : Option Int) {tokens : List Token}
    (h : tokens.map Token.kind
      = integerKinds stop ++ .colon :: (integerKinds step ++ [.closeBracket]))
    (rest : List Token) :
    readSlice finish start (tokens ++ rest) = .ok (.slice ⟨start, stop, step⟩) rest := by
  rw [List.map_eq_append_iff] at h
  obtain ⟨ts, us, rfl, hts, hus⟩ := h
  rw [List.map_eq_cons_iff] at hus
  obtain ⟨c, us, rfl, hc, hus⟩ := hus
  rw [List.map_eq_append_iff] at hus
  obtain ⟨vs, us, rfl, hvs, hus⟩ := hus
  rw [List.map_eq_singleton_iff] at hus
  obtain ⟨u, rfl, hu⟩ := hus
  have hstop := readInteger_ok hts (not_integer_of_kind hc (vs ++ [u] ++ rest) (by simp))
  have hstep := readInteger_ok hvs (not_integer_of_kind hu rest (by simp))
  unfold readSlice
  rw [List.append_assoc, List.cons_append, bind_ok hstop, bind_ok (skipIf_ok hc _), if_pos rfl,
    List.append_assoc, List.singleton_append, bind_ok hstep]
  dsimp only
  rw [bind_ok (expect_ok _ _ hu rest)]
  rfl

theorem readSlice_ok (finish : ℕ) (s : Slice) {tokens : List Token}
    (h : tokens.map Token.kind = integerKinds s.stop
      ++ (s.step.map fun n => [Kind.colon, Kind.integer n]).getD [] ++ [.closeBracket])
    (rest : List Token) : readSlice finish s.start (tokens ++ rest) = .ok (.slice s) rest := by
  obtain ⟨start, stop, step⟩ := s
  cases step with
  | none => exact readSlice_stop finish start stop (by simpa using h) rest
  | some n =>
    exact readSlice_step finish start stop (some n) (by simpa [integerKinds] using h) rest

theorem readMember_ok (finish : ℕ) {name : String} {t : Token} (h : t.kind.word? = some name)
    (rest : List Token) : readMember finish (t :: rest) = .ok (.property name) rest := by
  unfold readMember
  rw [bind_ok (next_cons _ _ _), h]
  rfl

theorem readMember_star (finish : ℕ) {t : Token} (h : t.kind = .star) (rest : List Token) :
    readMember finish (t :: rest) = .ok .wildcard rest := by
  unfold readMember
  rw [bind_ok (next_cons _ _ _), h]
  rfl

theorem readSought_word {name : String} {t : Token} (h : t.kind.word? = some name)
    (rest : List Token) : readSought (t :: rest) = .ok (.descendants (some name)) rest := by
  unfold readSought
  rw [bind_ok (front_eq _), List.head?_cons]
  dsimp only
  rw [h]
  rfl

theorem readSought_text {name : String} {t : Token} (h : t.kind = .text name)
    (rest : List Token) : readSought (t :: rest) = .ok (.descendants (some name)) rest := by
  unfold readSought
  rw [bind_ok (front_eq _), List.head?_cons]
  dsimp only
  rw [h]
  rfl

theorem readSought_ok (name : String) {t : Token} (h : t.kind = soughtKind name)
    (rest : List Token) : readSought (t :: rest) = .ok (.descendants (some name)) rest := by
  unfold soughtKind at h
  by_cases hplain : isPlainName name = true
  · rw [if_pos hplain] at h
    exact readSought_word (by rw [h, word_wordKind]) rest
  · rw [if_neg hplain] at h
    exact readSought_text h rest

theorem readSought_star {t : Token} (h : t.kind = .star) (rest : List Token) :
    readSought (t :: rest) = .ok (.descendants none) rest := by
  unfold readSought
  rw [bind_ok (front_eq _), List.head?_cons]
  dsimp only
  rw [h]
  rfl

/-- nothing is sought by name in front of a bracket or the end -/
theorem readSought_bare {t : Token} (h : t.kind = .openBracket ∨ t.kind = .eof)
    (rest : List Token) : readSought (t :: rest) = .ok (.descendants none) (t :: rest) := by
  unfold readSought
  rw [bind_ok (front_eq _), List.head?_cons]
  dsimp only
  rcases h with h | h <;> rw [h] <;> rfl

theorem Fits.whole {b : Filter.Bounds} {f : Filter} (hf : Fits b.limit (.filter f)) :
    Filter.Whole b b.limit (.openParen :: f.kinds ++ [.closeParen]) f := by
  obtain ⟨hheight, hnesting⟩ := hf f rfl
  intro tokens rest h hrest
  exact ((Filter.readable b f hheight).group hnesting 1 h rest).level_ok (hrest 0) Nat.zero_lt_one

theorem readBracket_single {b : Filter.Bounds} (opening : ℕ) {step : Step} {kind : Kind}
    (hclosed : ∀ t u, t.kind = kind → readBracket b opening (t :: u)
      = closed b.finish step u) {tokens : List Token}
    (h : tokens.map Token.kind = [kind, .closeBracket]) (rest : List Token) :
    readBracket b opening (tokens ++ rest) = .ok step rest := by
  rw [List.map_eq_cons_iff] at h
  obtain ⟨t, us, rfl, ht, h⟩ := h
  rw [List.map_eq_singleton_iff] at h
  obtain ⟨u, rfl, hu⟩ := h
  rw [List.cons_append, hclosed t _ ht]
  exact closed_ok _ _ hu rest

theorem readBracket_quoted {b : Filter.Bounds} (opening : ℕ) {name : String} {tokens : List Token}
    (h : tokens.map Token.kind = [.text name, .closeBracket]) (rest : List Token) :
    readBracket b opening (tokens ++ rest) = .ok (.property name) rest := by
  refine readBracket_single opening (fun t u ht => ?_) h rest
  unfold readBracket
  rw [bind_ok (next_cons _ _ _), ht]

theorem readBracket_wildcard {b : Filter.Bounds} (opening : ℕ) {tokens : List Token}
    (h : tokens.map Token.kind = [.star, .closeBracket]) (rest : List Token) :
    readBracket b opening (tokens ++ rest) = .ok .wildcard rest := by
  refine readBracket_single opening (fun t u ht => ?_) h rest
  unfold readBracket
  rw [bind_ok (next_cons _ _ _), ht]

theorem readBracket_index {b : Filter.Bounds} (opening : ℕ) {i : ℤ} {tokens : List Token}
    (h : tokens.map Token.kind = [.integer i, .closeBracket]) (rest : List Token) :
    readBracket b opening (tokens ++ rest) = .ok (.index i) rest := by
  rw [List.map_eq_cons_iff] at h
  obtain ⟨t, us, rfl, ht, h⟩ := h
  rw [List.map_eq_singleton_iff] at h
  obtain ⟨u, rfl, hu⟩ := h
  unfold readBracket
  rw [List.cons_append, bind_ok (next_cons _ _ _), ht]
  dsimp only
  rw [List.singleton_append, bind_ok (skipIf_of_ne (by rw [hu]; decide) rest)]
  exact closed_ok _ _ hu rest

theorem readBracket_slice {b : Filter.Bounds} (opening : ℕ) {start : Option Int} {ks : List Kind}
    {step : Step} (hslice : ∀ us rest, us.map Token.kind = ks →
      readSlice b.finish start (us ++ rest) = .ok step rest) {tokens : List Token}
    (h : tokens.map Token.kind = integerKinds start ++ .colon :: ks) (rest : List Token) :
    readBracket b opening (tokens ++ rest) = .ok step rest := by
  rw [List.map_eq_append_iff] at h
  obtain ⟨ts, us, rfl, hts, hus⟩ := h
  rw [List.map_eq_cons_iff] at hus
  obtain ⟨c, us, rfl, hc, hus⟩ := hus
  have hread := hslice us rest hus
  unfold readBracket
  cases start with
  | none =>
    rw [integerKinds, Option.map_none, Option.getD_none, List.map_eq_nil_iff] at hts
    subst hts
    rw [List.nil_append, List.cons_append, bind_ok (next_cons _ _ _), hc]
    exact hread
  | some n =>
    rw [integerKinds, Option.map_some, Option.getD_some, List.map_eq_singleton_iff] at hts
    obtain ⟨t, rfl, ht⟩ := hts
    rw [List.singleton_append, List.cons_append, bind_ok (next_cons _ _ _), ht]
    dsimp only
    rw [List.cons_append, bind_ok (skipIf_ok hc _)]
    exact hread

theorem readBracket_filter {b : Filter.Bounds} (opening : ℕ) {ks : List Kind} {f : Filter}
    (hf : Filter.Whole b b.limit ks f) {tokens : List Token}
    (h : tokens.map Token.kind = .question :: (ks ++ [.closeBracket])) (rest : List Token) :
    readBracket b opening (tokens ++ rest) = .ok (.filter f) rest := by
  rw [List.map_eq_cons_iff] at h
  obtain ⟨t, ts, rfl, ht, h⟩ := h
  rw [List.map_eq_append_iff] at h
  obtain ⟨ts, us, rfl, hts, hus⟩ := h
  rw [List.map_eq_singleton_iff] at hus
  obtain ⟨u, rfl, hu⟩ := hus
  have hread : Filter.read b.limit b.finish (ts ++ u :: rest) = .ok f (u :: rest) :=
    map_ok (hf hts fun p => Filter.Follows.closer (.inr (.inr hu)) p rest) _
  unfold readBracket
  rw [List.cons_append, bind_ok (next_cons _ _ _), ht]
  dsimp only
  rw [List.append_assoc, List.singleton_append, bind_ok hread]
  exact closed_ok _ _ hu rest

/-! ## whole steps -/

section
variable {b : Filter.Bounds} {step : Step} {t : Token} {tokens rest : List Token}

theorem readSegment_dot (ht : t.kind = .dot) (h : readMember b.finish tokens = .ok step rest) :
    readSegment b (t :: tokens) = .ok ⟨step, t.position⟩ rest := by
  unfold readSegment
  rw [bind_ok (next_cons _ _ _), ht]
  dsimp only
  rw [bind_ok h]
  rfl

theorem readSegment_dots (ht : t.kind = .dots) (h : readSought tokens = .ok step rest) :
    readSegment b (t :: tokens) = .ok ⟨step, t.position⟩ rest := by
  unfold readSegment
  rw [bind_ok (next_cons _ _ _), ht]
  dsimp only
  rw [bind_ok h]
  rfl

theorem readSegment_bracket (ht : t.kind = .openBracket)
    (h : readBracket b t.position tokens = .ok step rest) :
    readSegment b (t :: tokens) = .ok ⟨step, t.position⟩ rest := by
  unfold readSegment
  rw [bind_ok (next_cons _ _ _), ht]
  dsimp only
  rw [bind_ok h]
  rfl

end

/-- the tokens of a step do not begin with the end of the text -/
theorem kinds_cons {step : Step} (hroot : step.isRoot = false) :
    ∃ k ks, step.kinds = k :: ks ∧ k ≠ .eof := by
  cases step with
  | root => cases hroot
  | property name =>
    rw [kinds, memberKinds]
    split <;> exact ⟨_, _, rfl, by decide⟩
  | descendants name => cases name <;> exact ⟨_, _, rfl, by decide⟩
  | _ => exact ⟨_, _, rfl, by decide⟩

/-- **The tokens of the canonical text of a step are read as that step.** -/
theorem readSegment_ok {b : Filter.Bounds} {step : Step} (hroot : step.isRoot = false)
    (hfit : step.Fits b.limit) {tokens : List Token} (h : tokens.map Token.kind = step.kinds)
    (rest : List Token) :
    ∃ position, readSegment b (tokens ++ rest) = .ok ⟨step, position⟩ rest := by
  obtain ⟨k, ks, hk, _⟩ := kinds_cons hroot
  have hcons := h.trans hk
  rw [List.map_eq_cons_iff] at hcons
  obtain ⟨t, ts, rfl, ht, hts⟩ := hcons
  refine ⟨t.position, ?_⟩
  cases step with
  | root => cases hroot
  | property name =>
    rw [kinds, memberKinds] at hk
    split at hk <;> cases hk
    · rw [List.map_eq_singleton_iff] at hts
      obtain ⟨u, rfl, hu⟩ := hts
      exact readSegment_dot ht (readMember_ok _ (by rw [hu, word_wordKind]) rest)
    · exact readSegment_bracket ht (readBracket_quoted _ hts rest)
  | index i =>
    cases hk
    exact readSegment_bracket ht (readBracket_index _ hts rest)
  | wildcard =>
    cases hk
    exact readSegment_bracket ht (readBracket_wildcard _ hts rest)
  | descendants name =>
    cases name with
    | none =>
      cases hk
      rw [List.map_eq_singleton_iff] at hts
      obtain ⟨u, rfl, hu⟩ := hts
      exact readSegment_dots ht (readSought_star hu rest)
    | some name =>
      cases hk
      rw [List.map_eq_singleton_iff] at hts
      obtain ⟨u, rfl, hu⟩ := hts
      exact readSegment_dots ht (readSought_ok name hu rest)
  | slice s =>
    have hslice : .openBracket :: (integerKinds s.start ++ .colon :: (integerKinds s.stop
        ++ (s.step.map fun n => [Kind.colon, Kind.integer n]).getD [] ++ [.closeBracket]))
        = k :: ks := by
      rw [← hk, kinds, Slice.kinds]
      simp
    cases hslice
    exact readSegment_bracket ht
      (readBracket_slice _ (fun us rest hus => readSlice_ok b.finish s hus rest) hts rest)
  | filter f =>
    have hfilter : .openBracket :: .question :: ((.openParen :: f.kinds ++ [.closeParen])
        ++ [.closeBracket]) = k :: ks := by
      rw [← hk, kinds]
      simp
    cases hfilter
    exact readSegment_bracket ht (readBracket_filter _ hfit.whole hts rest)

end Step

namespace Path

theorem normalized_kinds (p : Path) :
    p.normalized.flatMap Step.kinds = p.steps.flatMap Step.kinds := by
  unfold normalized
  split
  · rename_i heq
    rw [heq]
    rfl
  · rfl

theorem normalized_chars (p : Path) :
    p.normalized.flatMap Step.chars = p.steps.flatMap Step.chars := by
  unfold normalized
  split
  · rename_i heq
    rw [heq]
    rfl
  · rfl

theorem normalized_not_root {p : Path} (h : p.isPrintable = true) :
    ∀ step ∈ p.normalized, step.isRoot = false := by
  rw [isPrintable, Bool.and_eq_true, List.all_eq_true, List.all_eq_true] at h
  have htail (step : Step) (hs : step ∈ p.steps.tail) : step.isRoot = false := by
    simpa using h.2 step hs
  intro step hs
  unfold normalized at hs
  split at hs
  · rename_i heq
    rw [heq] at htail
    exact htail step hs
  · rename_i hne
    cases heq : p.steps with
    | nil =>
      rw [heq] at hs
      cases hs
    | cons first rest =>
      rw [heq] at hs htail hne
      rcases List.mem_cons.mp hs with rfl | hs
      · cases step with
        | root => exact absurd rfl (hne rest)
        | _ => rfl
      · exact htail step hs

theorem length_le_kinds {steps : List Step} (h : ∀ step ∈ steps, step.isRoot = false) :
    steps.length ≤ (steps.flatMap Step.kinds).length := by
  induction steps with
  | nil => exact le_rfl
  | cons step steps ih =>
    obtain ⟨k, ks, hk, _⟩ := Step.kinds_cons (h step List.mem_cons_self)
    have hrest := ih fun s hs => h s (List.mem_cons_of_mem step hs)
    rw [List.flatMap_cons, hk, List.length_append, List.length_cons, List.length_cons]
    omega

theorem readRest_ok {b : Filter.Bounds} {t : Token} (ht : t.kind = .eof) {steps : List Step}
    (hroot : ∀ step ∈ steps, step.isRoot = false) (hfit : ∀ step ∈ steps, step.Fits b.limit)
    {tokens : List Token} (h : tokens.map Token.kind = steps.flatMap Step.kinds) {tries : ℕ}
    (htries : steps.length ≤ tries) :
    ∃ segments, readRest b tries (tokens ++ [t]) = (segments, none) ∧
      segments.map Segment.step = steps := by
  induction steps generalizing tokens tries with
  | nil =>
    rw [List.flatMap_nil, List.map_eq_nil_iff] at h
    subst h
    refine ⟨[], ?_, rfl⟩
    cases tries with
    | zero => rfl
    | succ tries =>
      have hend : atEnd ([] ++ [t]) = true := beq_iff_eq.mpr ht
      rw [readRest, if_pos hend]
  | cons step steps ih =>
    rw [List.length_cons] at htries
    obtain ⟨tries, rfl⟩ : ∃ n, tries = n + 1 := ⟨tries - 1, by omega⟩
    rw [List.flatMap_cons, List.map_eq_append_iff] at h
    obtain ⟨ts, us, rfl, hts, hus⟩ := h
    have hstep := hroot step List.mem_cons_self
    obtain ⟨position, hread⟩ := Step.readSegment_ok hstep (hfit step List.mem_cons_self) hts
      (us ++ [t])
    obtain ⟨segments, hrest, hsteps⟩ := ih (fun s hs => hroot s (List.mem_cons_of_mem step hs))
      (fun s hs => hfit s (List.mem_cons_of_mem step hs)) hus (Nat.le_of_succ_le_succ htries)
    have hgoes : ¬atEnd (ts ++ us ++ [t]) = true := by
      obtain ⟨k, ks, hk, hne⟩ := Step.kinds_cons hstep
      have hcons := hts.trans hk
      rw [List.map_eq_cons_iff] at hcons
      obtain ⟨t', ts', rfl, ht', _⟩ := hcons
      show ¬(t'.kind == .eof) = true
      rw [beq_iff_eq, ht']
      exact hne
    refine ⟨⟨step, position⟩ :: segments, ?_, by rw [List.map_cons, hsteps]⟩
    rw [readRest, if_neg hgoes, List.append_assoc, hread]
    dsimp only
    rw [hrest]

theorem readTokens_root {b : Filter.Bounds} {t : Token} (ht : t.kind = .root)
    (rest : List Token) : readTokens b (t :: rest)
      = (⟨.root, t.position⟩ :: (readRest b (t :: rest).length rest).1,
        (readRest b (t :: rest).length rest).2) := by
  have hgoes : ¬atEnd (t :: rest) = true := by
    show ¬(t.kind == .eof) = true
    rw [ht]
    decide
  have hhead : Step.readHead? (t :: rest) = .ok (some ⟨.root, t.position⟩) rest := by
    unfold Step.readHead?
    rw [bind_ok (front_eq _), List.head?_cons]
    dsimp only
    rw [if_pos ht]
    rfl
  unfold readTokens
  rw [if_neg hgoes, hhead]
  rfl

/-- **The canonical text of a path is read as its steps behind a `$`.** -/
theorem readText_ok {p : Path} (h : p.isPrintable = true) {limit : ℕ}
    (hfit : ∀ step ∈ p.normalized, step.Fits limit) :
    ∃ q, readText limit p.text = (q, none) ∧ q.steps = .root :: p.normalized := by
  obtain ⟨tokens, htokens, hlex⟩ := lex_text h
  unfold kinds at htokens
  rw [← normalized_kinds, List.cons_append, List.map_eq_cons_iff] at htokens
  obtain ⟨t, ts, rfl, ht, hts⟩ := htokens
  rw [List.map_eq_append_iff] at hts
  obtain ⟨ts, us, rfl, hts, hus⟩ := hts
  rw [List.map_eq_singleton_iff] at hus
  obtain ⟨u, rfl, hu⟩ := hus
  have hlen : p.normalized.length ≤ (t :: (ts ++ [u])).length := by
    have hsteps := length_le_kinds (normalized_not_root h)
    rw [← hts, List.length_map] at hsteps
    rw [List.length_cons, List.length_append]
    omega
  obtain ⟨segments, hread, hsteps⟩ := readRest_ok (b := ⟨limit, p.text.length⟩) hu
    (normalized_not_root h) hfit hts hlen
  refine ⟨⟨⟨.root, t.position⟩ :: segments⟩, ?_, by rw [steps, List.map_cons, hsteps]⟩
  unfold readText
  rw [hlex]
  dsimp only
  rw [readTokens_root ht, hread]

end Path
end PathQuery
