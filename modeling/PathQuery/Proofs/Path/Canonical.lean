import PathQuery.Query
import PathQuery.Proofs.Filter.TooDeep
import PathQuery.Proofs.Path.Limits
import PathQuery.Proofs.Path.Reading
import PathQuery.Proofs.Path.WellRead
import PathQuery.Proofs.Path.RoundTrip

/-!
# Canonical texts of canonical texts

A canonical text puts the filter of a step in parentheses, which are one level further in. So the
same limit on the levels of filters can refuse the canonical text of a path that it has let pass.

* `Path.readText_tooDeep`   the canonical text of a filter that goes too far in is refused.

In the end it is said which canonical texts are canonical texts of themselves.
-/

namespace PathQuery
open Token Token.Reader

namespace Path

/-! ## filters that go too far in -/

theorem readSegment_tooDeep {b : Filter.Bounds} {f : Filter} (hheight : f.height ≤ b.limit)
    (hnesting : b.limit ≤ f.nesting) {tokens : List Token}
    (h : tokens.map Token.kind = (Step.filter f).kinds) (rest : List Token) :
    Filter.TooDeep b (Step.readSegment b (tokens ++ rest)) := by
  have hkinds : tokens.map Token.kind = .openBracket :: .question
      :: ((.openParen :: f.kinds ++ [.closeParen]) ++ [.closeBracket]) := by
    rw [h, Step.kinds]
    simp
  rw [List.map_eq_cons_iff] at hkinds
  obtain ⟨t, ts, rfl, ht, hkinds⟩ := hkinds
  rw [List.map_eq_cons_iff] at hkinds
  obtain ⟨q, ts, rfl, hq, hkinds⟩ := hkinds
  rw [List.map_eq_append_iff] at hkinds
  obtain ⟨ts, us, rfl, hts, _⟩ := hkinds
  have hread : Filter.TooDeep b (Filter.read b.limit b.finish (ts ++ (us ++ rest))) := by
    refine Filter.TooDeep.map ?_ _
    rw [Filter.expression_eq]
    exact (Filter.refusable b f hheight).group (Nat.lt_succ_of_le hnesting) 1 hts (us ++ rest)
  have hbracket : Filter.TooDeep b
      (Step.readBracket b t.position (q :: (ts ++ us) ++ rest)) := by
    unfold Step.readBracket
    rw [List.cons_append, List.append_assoc, bind_ok (next_cons _ _ _), hq]
    exact hread.bind _
  unfold Step.readSegment
  rw [List.cons_append, bind_ok (next_cons _ _ _), ht]
  exact hbracket.bind _

theorem readRest_tooDeep {b : Filter.Bounds} {steps : List Step}
    (hroot : ∀ step ∈ steps, step.isRoot = false)
    (hheight : ∀ step ∈ steps, ∀ f, step.filter? = some f → f.height ≤ b.limit)
    (hdeep : ∃ step ∈ steps, ∃ f, step.filter? = some f ∧ b.limit ≤ f.nesting)
    {tokens : List Token} (h : tokens.map Token.kind = steps.flatMap Step.kinds) {tries : ℕ}
    (htries : steps.length ≤ tries) (rest : List Token) :
    ∃ found position, (readRest b tries (tokens ++ rest)).2
      = some (.parse (.filterDepth b.limit) found position) := by
  induction steps generalizing tokens tries with
  | nil =>
    obtain ⟨step, hstep, _⟩ := hdeep
    cases hstep
  | cons step steps ih =>
    rw [List.length_cons] at htries
    obtain ⟨tries, rfl⟩ : ∃ n, tries = n + 1 := ⟨tries - 1, by omega⟩
    rw [List.flatMap_cons, List.map_eq_append_iff] at h
    obtain ⟨ts, us, rfl, hts, hus⟩ := h
    have hstep := hroot step List.mem_cons_self
    have hgoes : ¬atEnd (ts ++ us ++ rest) = true := by
      obtain ⟨k, ks, hk, hne⟩ := Step.kinds_cons hstep
      have hcons := hts.trans hk
      rw [List.map_eq_cons_iff] at hcons
      obtain ⟨t', ts', rfl, ht', _⟩ := hcons
      show ¬(t'.kind == .eof) = true
      rw [beq_iff_eq, ht']
      exact hne
    rw [readRest, if_neg hgoes, List.append_assoc]
    by_cases hfit : ∃ f, step.filter? = some f ∧ b.limit ≤ f.nesting
    · obtain ⟨f, hf, hnesting⟩ := hfit
      have hfheight := hheight step List.mem_cons_self f hf
      cases step with
      | filter g =>
        cases hf
        obtain ⟨found, position, more, hread⟩ :=
          readSegment_tooDeep hfheight hnesting hts (us ++ rest)
        rw [hread]
        exact ⟨found, position, rfl⟩
      | _ => cases hf
    · have hfits : step.Fits b.limit := fun f hf =>
        ⟨hheight step List.mem_cons_self f hf, Nat.not_le.mp fun hle => hfit ⟨f, hf, hle⟩⟩
      obtain ⟨position, hread⟩ := Step.readSegment_ok hstep hfits hts (us ++ rest)
      obtain ⟨step', hstep', hdeep'⟩ := hdeep
      have hmore : step' ∈ steps := (List.mem_cons.mp hstep').resolve_left fun e =>
        hfit (e ▸ hdeep')
      rw [hread]
      exact ih (fun s hs => hroot s (List.mem_cons_of_mem step hs))
        (fun s hs => hheight s (List.mem_cons_of_mem step hs)) ⟨step', hmore, hdeep'⟩ hus
        (Nat.le_of_succ_le_succ htries)

/-- the canonical text of a path with a filter that goes too far in is refused for its depth -/
theorem readText_tooDeep {p : Path} (h : p.isPrintable = true) {limit : ℕ}
    (hheight : ∀ f ∈ p.filters, f.height ≤ limit) (hdeep : ∃ f ∈ p.filters, limit ≤ f.nesting) :
    ∃ found position,
      (readText limit p.text).2 = some (.parse (.filterDepth limit) found position) := by
  obtain ⟨tokens, htokens, hlex⟩ := lex_text h
  unfold kinds at htokens
  rw [← normalized_kinds, List.cons_append, List.map_eq_cons_iff] at htokens
  obtain ⟨t, ts, rfl, ht, hts⟩ := htokens
  rw [List.map_eq_append_iff] at hts
  obtain ⟨ts, us, rfl, hts, _⟩ := hts
  have hlen : p.normalized.length ≤ (t :: (ts ++ us)).length := by
    have hsteps := length_le_kinds (normalized_not_root h)
    rw [← hts, List.length_map] at hsteps
    rw [List.length_cons, List.length_append]
    omega
  obtain ⟨f, hf, hnesting⟩ := hdeep
  obtain ⟨step, hstep, hfilter⟩ := (p.mem_filters_iff f).mp hf
  obtain ⟨found, position, hread⟩ := readRest_tooDeep (b := ⟨limit, p.text.length⟩)
    (normalized_not_root h) (fun s hs g hg => hheight g ((p.mem_filters_iff g).mpr ⟨s, hs, hg⟩))
    ⟨step, hstep, f, hfilter, hnesting⟩ hts hlen us
  refine ⟨found, position, ?_⟩
  unfold readText
  rw [hlex]
  dsimp only
  rw [readTokens_root ht]
  exact hread

end Path

/-- **A canonical text is the canonical text of itself unless a filter of the path goes 64 levels
in**, for every text that compiles; with such a filter it does not compile. -/
theorem canonicalize_text {text : String} {p : Path} (h : compile text = .ok p) :
    (canonicalize p.text = .ok p.text ↔ ∀ f ∈ p.filters, f.nesting < 64) ∧
      ((∃ f ∈ p.filters, 64 ≤ f.nesting) → ∃ found position,
        canonicalize p.text = .error (.parse (.filterDepth 64) found position)) := by
  obtain ⟨_, hvalid⟩ := Path.of_compile h
  obtain ⟨hprintable, hbound⟩ := Path.wellRead_of_compile h
  have hheight : ∀ f ∈ p.filters, f.height ≤ 64 := hbound
  have hdeep : (∃ f ∈ p.filters, 64 ≤ f.nesting) → ∃ found position,
      canonicalize p.text = .error (.parse (.filterDepth 64) found position) := by
    intro hdeep
    obtain ⟨found, position, hread⟩ := Path.readText_tooDeep hprintable hheight hdeep
    refine ⟨found, position, ?_⟩
    rw [canonicalize, compile, Path.compile_error hread]
    rfl
  refine ⟨⟨?_, ?_⟩, hdeep⟩
  · intro hcanonical f hf
    by_contra hnesting
    obtain ⟨found, position, herror⟩ := hdeep ⟨f, hf, Nat.not_lt.mp hnesting⟩
    rw [herror] at hcanonical
    cases hcanonical
  · intro hnesting
    have hfit : ∀ step ∈ p.normalized, step.Fits 64 := by
      intro step hstep f hf
      have hmem := (p.mem_filters_iff f).mpr ⟨step, hstep, hf⟩
      exact ⟨hheight f hmem, hnesting f hmem⟩
    obtain ⟨q, hread, hsteps⟩ := Path.readText_ok hprintable hfit
    have hnormalized := Path.normalized_of_steps hsteps
    have hvalid' : q.validate 10 = .ok () := by
      rw [Path.validate_iff, hnormalized, ← Path.validate_iff]
      exact hvalid rfl
    rw [canonicalize, compile, Path.compile_ok hread hvalid']
    exact congrArg Except.ok (Path.text_eq_of_normalized hnormalized)

/-- as many calls inside each other as the limit allows -/
def nestedCalls : String :=
  "$[?" ++ String.join (List.replicate 64 "f(") ++ String.join (List.replicate 64 ")") ++ "]"

/-- calls up to the limit compile, but not in parentheses -/
theorem canonicalize_text_nestedCalls : ∃ p, compile nestedCalls = .ok p ∧
    ∃ found position, canonicalize p.text = .error (.parse (.filterDepth 64) found position) := by
  have hnesting : ((compile nestedCalls).toOption.map fun p => p.filters.map Filter.nesting)
      = some [64] := by decide +kernel
  cases h : compile nestedCalls with
  | error e =>
    rw [h] at hnesting
    cases hnesting
  | ok p =>
    rw [h] at hnesting
    have hfilters : p.filters.map Filter.nesting = [64] := Option.some.inj hnesting
    obtain ⟨f, hf, hdeep⟩ : ∃ f ∈ p.filters, f.nesting = 64 := by
      rw [← List.mem_map, hfilters]
      exact List.mem_singleton_self 64
    exact ⟨p, rfl, (canonicalize_text h).2 ⟨f, hf, hdeep.ge⟩⟩

end PathQuery
