import PathQuery.Pattern.Engine
import PathQuery.Proofs.Engine.Accepted
import PathQuery.Proofs.Token.Lexemes
import PathQuery.Proofs.Token.Repeats

/-!
# What evaluating a path fails for

What is not there is left out, so no document makes the evaluation of a path fail by its shape. It
fails for a ceiling that the path exceeds, for a filter that names what is on the deny list, and for
a regex: one that the guard refuses, or one that gets past the guard and does not compile.

* `Path.Exceeds`       the path is beyond one of the ceilings;
* `Filter.Risky`       an expression names what is on the deny list, or it uses `matches`;
* `Filter.Unreadable`  a pattern gets past the guard, and the engine does not compile it;
* `errs_evaluate`      where the errors come from in which evaluations end;
* `evaluate_fails`     when evaluations fail, and with which errors.
-/

namespace PathQuery
open Stateful

/-! ## filters -/

namespace Filter

/-- an expression that names what is on the deny list, or that uses `matches` -/
inductive Risky : Filter → Prop
  | name {names : List String} {name : String} :
      name ∈ names → name ∈ ["__proto__", "prototype", "constructor"] → Risky (reference names)
  | pattern (left right : Filter) : Risky (binary (.known .pattern) left right)

/-- what is searched for is a pattern that the guard lets through for `item`, but that the engine
does not compile, for the reason `error` -/
inductive Unreadable (E : RegexEngine) (r : Registry) (item : Document) (error : String) :
    Filter → Prop
  | intro {left right : Filter} {v : Value} {text : String} :
      (right.evaluate (r.hooks E) item).alone = .ok v → v.text? = some text →
        Pattern.guardPattern text = .ok () → E.compiled text = .error error →
          Unreadable E r item error (binary (.known .pattern) left right)

theorem Faulty.risky {f : Filter} (h : f.Faulty) : f.Risky := by
  cases h with
  | name hmem hdenied => exact .name hmem hdenied
  | pattern hguard => exact .pattern _ _

section
variable {E : RegexEngine} {r : Registry} {item : Document} {f : Filter}

theorem Fails.risky {e : PathError} (h : Fails E r item f e) : f.Risky := by
  cases h with
  | name herror =>
    by_contra hsafe
    obtain ⟨v, hv⟩ := resolve_ok (fun hfaulty => hsafe hfaulty.risky) item
    rw [hv] at herror
    cases herror
  | search => exact .pattern _ _

theorem Fails.unreadable [E.Deterministic] {fault : EvaluationFault}
    (h : Fails E r item f (.evaluation fault)) :
    ∃ error, fault = .invalidPattern error ∧ f.Unreadable E r item error := by
  cases h with
  | name herror =>
    obtain ⟨v, hv⟩ | ⟨fault', hv⟩ := onlySecurity_resolve item _
    · rw [hv] at herror
      cases herror
    · rw [hv] at herror
      cases herror
  | @search left right v w _ hv hw herror =>
    obtain ⟨t, hfresh⟩ := alone_eq_error.mp herror
    obtain ⟨text, htext, hguard | ⟨hguard, error, hcompiled, heq⟩⟩ :=
      errs_search v w Session.sound_fresh hfresh
    · obtain ⟨fault', -, heq⟩ := guardPattern_error hguard
      cases heq
    · cases heq
      exact ⟨error, rfl, .intro hw htext hguard hcompiled⟩

end
end Filter

/-! ## paths -/

/-- an expression in one of the filters fails by itself, for a value that stands in the document -/
def FailsIn (E : RegexEngine) (r : Registry) (d : Document) (filters : List Filter)
    (e : PathError) : Prop :=
  ∃ f ∈ filters, ∃ g, Filter.Part g f ∧ ∃ q item, d.Stands q item ∧ g.Fails E r item e

namespace Path

/-- there are too many `..` nodes, or a filter is too high -/
def Exceeds (p : Path) (o : EvaluateOptions) : Prop :=
  o.maxDescents < (p.steps.filter Step.isDescendants).length ∨
    ∃ f ∈ p.filters, o.maxFilterDepth < f.height

variable {E : RegexEngine} {p : Path} {o : EvaluateOptions} {r : Registry} {d : Document}

theorem not_exceeds_iff : ¬p.Exceeds o ↔
    (p.steps.filter Step.isDescendants).length ≤ o.maxDescents ∧
      ∀ f ∈ p.filters, f.depth ≤ o.maxFilterDepth := by
  simp only [Exceeds, not_or, not_exists, not_and, not_lt, Filter.depth_eq_height]

theorem evaluate_of_exceeds (h : p.Exceeds o) {ω : Type} (H : Hooks ω) (d : Document) (s : ω) :
    ∃ e, e.IsValidation ∧ p.evaluate H d o s = .error e s := by
  obtain ⟨e, hvalidation, hallow⟩ : ∃ e, e.IsValidation ∧ p.allow o = .error e := by
    unfold allow
    cases hdescents : p.checkDescents o.maxDescents with
    | error e =>
      obtain ⟨position, rfl⟩ := checkDescents_error hdescents
      exact ⟨_, ⟨_, _, rfl⟩, rfl⟩
    | ok u =>
      cases hdepth : p.checkFilterDepth o.maxFilterDepth with
      | error e =>
        obtain ⟨f, -, position, rfl⟩ := checkFilterDepth_error hdepth
        exact ⟨_, ⟨_, _, rfl⟩, rfl⟩
      | ok u =>
        exact absurd h (not_exceeds_iff.mpr
          ⟨(p.checkDescents_iff _).mp hdescents, (p.checkFilterDepth_iff _).mp hdepth⟩)
  refine ⟨e, hvalidation, ?_⟩
  rw [evaluate, hallow]
  rfl

/-- **Within the ceilings the errors are those of the filters.** One of them has a fault that is
seen before any document is, or it fails for a value in the document. -/
theorem errs_evaluate [E.Deterministic] (h : ¬p.Exceeds o) :
    Errs (fun e => (p.HasFault ∧ ∃ fault, e = .security fault) ∨ FailsIn E r d p.filters e)
      (p.evaluate (r.hooks E) d o) := by
  obtain ⟨hdescents, hdepth⟩ := not_exceeds_iff.mp h
  have hallow (e : PathError) (herror : p.allow o = .error e) :
      p.HasFault ∧ ∃ fault, e = .security fault := by
    rw [allow_eq_scan hdescents hdepth] at herror
    constructor
    · by_contra hclean
      rw [(forM_scan_iff p.filters).mpr fun f hf => f.scan_iff.mpr (p.hasFault_iff.mp hclean f hf)]
        at herror
      cases herror
    · obtain hok | ⟨fault, hfault⟩ := Filter.forM_scan_cases p.filters
      · rw [hok] at herror
        cases herror
      · rw [hfault] at herror
        cases herror
        exact ⟨fault, rfl⟩
  refine (errs_ofExcept fun e herror => .inl (hallow e herror)).bind (steady_ofExcept _) fun _ _ =>
    Errs.bind (steady_followSteps r p.steps _) (errs_followSteps (fun s hs f hf q item hq => ?_)
      (allReached_start d o.maxDepth)) fun _ _ => errs_pure _
  have hmem : f ∈ p.filters := List.mem_filterMap.mpr ⟨s, hs, hf⟩
  exact Filter.errs_evaluate fun g e hg hfails => .inr ⟨f, hmem, g, hg, q, item, hq, hfails⟩

/-- **Evaluating fails for its documented reasons only.** It ends in a validation error exactly if
the path is beyond a ceiling. Otherwise, where no filter names what is on the deny list or uses
`matches`, it has an output whatever the document is. An evaluation error means a pattern that the
guard lets through and that the engine does not compile; no logical operator ever reaches value
comparison. There are no lex and no parse errors. -/
theorem evaluate_fails [E.Deterministic] (p : Path) (o : EvaluateOptions) (r : Registry)
    (d : Document) (s : Session E) (hs : s.Sound) :
    ((∃ e t, p.evaluate (r.hooks E) d o s = .error e t ∧ e.IsValidation) ↔ p.Exceeds o) ∧
    (¬p.Exceeds o → (∀ f ∈ p.filters, ∀ g, Filter.Part g f → ¬g.Risky) →
      ∃ output t, p.evaluate (r.hooks E) d o s = .ok output t) ∧
    (∀ fault t, p.evaluate (r.hooks E) d o s = .error (.evaluation fault) t →
      ∃ error, fault = .invalidPattern error ∧ ∃ f ∈ p.filters, ∃ g, Filter.Part g f ∧
        ∃ q item, d.Stands q item ∧ g.Unreadable E r item error) ∧
    (∀ stray item f,
      Filter.evaluate { r.hooks E with stray := stray } item f = f.evaluate (r.hooks E) item) ∧
    ∀ e t, p.evaluate (r.hooks E) d o s = .error e t → ¬e.IsLex ∧ ¬e.IsParse := by
  have hwithin (h : ¬p.Exceeds o) : (p.evaluate (r.hooks E) d o).FailsInFilters :=
    evaluate_failsInFilters (not_exceeds_iff.mp h).1 (not_exceeds_iff.mp h).2 r d
  refine ⟨⟨?_, fun h => ?_⟩, fun h hsafe => ?_, fun fault t herror => ?_, fun stray item f =>
    f.evaluate_stray (r.hooks E) stray item, fun e t herror => ?_⟩
  · rintro ⟨e, t, herror, fault, position, rfl⟩
    by_contra h
    obtain ⟨fault', heq⟩ | ⟨fault', heq⟩ := hwithin h _ _ _ herror <;> cases heq
  · obtain ⟨e, hvalidation, herror⟩ := evaluate_of_exceeds h (r.hooks E) d s
    exact ⟨e, s, herror, hvalidation⟩
  · cases hrun : p.evaluate (r.hooks E) d o s with
    | ok output t => exact ⟨output, t, rfl⟩
    | error e t =>
      obtain ⟨⟨f, hf, g, hg, hfaulty⟩, -⟩ | ⟨f, hf, g, hg, q, item, hq, hfails⟩ :=
        errs_evaluate h hs hrun
      · exact absurd hfaulty.risky (hsafe f hf g hg)
      · exact absurd hfails.risky (hsafe f hf g hg)
  · by_cases h : p.Exceeds o
    · obtain ⟨e', ⟨_, _, rfl⟩, herror'⟩ := evaluate_of_exceeds h (r.hooks E) d s
      rw [herror] at herror'
      cases herror'
    · obtain ⟨-, _, heq⟩ | ⟨f, hf, g, hg, q, item, hq, hfails⟩ := errs_evaluate h hs herror
      · cases heq
      · obtain ⟨error, hfault, hunreadable⟩ := hfails.unreadable
        exact ⟨error, hfault, f, hf, g, hg, q, item, hq, hunreadable⟩
  · by_cases h : p.Exceeds o
    · obtain ⟨e', ⟨_, _, rfl⟩, herror'⟩ := evaluate_of_exceeds h (r.hooks E) d s
      rw [herror] at herror'
      cases herror'
      exact ⟨nofun, nofun⟩
    · obtain ⟨fault, rfl⟩ | ⟨fault, rfl⟩ := hwithin h s e t herror <;> exact ⟨nofun, nofun⟩

/-- steps that no reader lets through, on a document that has nothing for them; and a document that
holds half a pattern, for a filter of two levels -/
theorem evaluate_fails_half_pattern :
    let unclosed := "regex parse error:\n    (\n    ^\nerror: unclosed group"
    let E : RegexEngine := { Pattern.engine with
      compile := fun text x =>
        if text = "(" then (.error unclosed, x) else Pattern.engine.compile text x }
    let H := Registry.empty.hooks E
    let p := ofSteps [.index 7, .property "", .slice ⟨none, none, some 0⟩, .root,
      .filter (.reference ["a"])]
    let q := ofSteps [.filter (.binary (.known .pattern) (.reference ["a"]) (.reference ["b"]))]
    let d := Document.list [.map [("a", .text "x"), ("b", .text "(")]]
    (∃ output t, p.evaluate H d {} .fresh = .ok output t) ∧
    (∃ f ∈ q.filters, ∃ g, Filter.Part g f ∧
      ∃ place item, d.Stands place item ∧ g.Unreadable E .empty item unclosed) ∧
    ∃ e t, q.evaluate H d { maxFilterDepth := 1 } .fresh = .error e t ∧ e.IsValidation := by
  intro unclosed E H p q d
  have hE : E.Deterministic := ⟨fun _ _ => rfl, fun _ _ _ => rfl⟩
  have hsound : (Session.fresh : Session E).Sound := Session.sound_fresh
  have hwithin : ¬p.Exceeds {} := by
    refine not_exceeds_iff.mpr ⟨by decide, fun f hf => ?_⟩
    rw [List.mem_singleton.mp (show f ∈ [_] from hf)]
    decide +kernel
  refine ⟨(evaluate_fails p {} .empty d .fresh hsound).2.1 hwithin ?_, ?_, ?_⟩
  · intro f hf g hg
    obtain rfl : f = .reference ["a"] := List.mem_singleton.mp hf
    obtain rfl | ⟨h, hmem, -⟩ := Filter.part_iff.mp hg
    · rintro ⟨hname, hdenied⟩
      rw [List.mem_singleton.mp hname] at hdenied
      exact absurd hdenied (by decide)
    · cases hmem
  · obtain ⟨t, ht⟩ : ∃ t, q.evaluate H d {} .fresh
        = .error (.evaluation (.invalidPattern unclosed)) t := fresh_eq_error (by decide +kernel)
    obtain ⟨error, heq, hin⟩ := (evaluate_fails q {} .empty d .fresh hsound).2.2.1 _ t ht
    cases heq
    exact hin
  · refine (evaluate_fails q { maxFilterDepth := 1 } .empty d .fresh hsound).1.mpr (.inr ?_)
    exact ⟨_, List.mem_singleton_self _, by decide⟩

end Path
end PathQuery
