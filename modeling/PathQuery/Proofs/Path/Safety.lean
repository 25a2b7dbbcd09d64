import PathQuery.Pattern.Engine
import PathQuery.Proofs.Filter.Safety
import PathQuery.Proofs.Path.Evaluation
import PathQuery.Proofs.Path.Reach

/-!
# Which paths are refused with a security error

A path with a security fault in a filter is refused before any document is seen. One without can
only be refused for a pattern that comes out of the document.

* `Path.HasFault`          a filter has a fault somewhere;
* `Path.allow_of_fault`    such a path is refused, always for the same fault;
* `errs_followSteps`       where the errors come from in which following steps ends;
* `Path.security_static`   both, for whole evaluations.
-/

namespace PathQuery
open Stateful
variable {E : RegexEngine}

/-- one of the filters has a part with a fault -/
def Path.HasFault (p : Path) : Prop := ∃ f ∈ p.filters, ∃ g, Filter.Part g f ∧ g.Faulty

/-! ## while a path is followed -/

/-- a pattern in one of the filters is refused for an element of the document -/
def RefusedIn (E : RegexEngine) (r : Registry) (d : Document) (filters : List Filter)
    (fault : SecurityFault) : Prop :=
  ∃ f ∈ filters, ∃ g, Filter.Part g f ∧ ∃ q item, d.Stands q item ∧ g.Refused E r item fault

section
variable [E.Deterministic] {r : Registry} {d : Document} {m : ℕ} {P : PathError → Prop}

theorem errs_kept {f : Filter}
    (hf : ∀ q item, d.Stands q item → Errs P (f.evaluate (r.hooks E) item))
    {items : List Document} (hitems : ∀ item ∈ items, ∃ q, d.Stands q item) :
    Errs P (Step.kept (r.hooks E) f items) := by
  induction items with
  | nil => exact errs_pure _
  | cons item items ih =>
    obtain ⟨q, hq⟩ := hitems item List.mem_cons_self
    have hsteady := f.steady_evaluate (E := E) r item
    refine ((hf q item hq).map hsteady _).bind (hsteady.map _) fun _ _ => ?_
    refine Errs.bind (Step.steady_kept r f items) (ih fun item' hitem' => ?_) fun _ _ =>
      errs_pure _
    exact hitems item' (List.mem_cons_of_mem item hitem')

theorem errs_follow {s : Step}
    (hs : ∀ f, s.filter? = some f →
      ∀ q item, d.Stands q item → Errs P (f.evaluate (r.hooks E) item))
    {done : List Step} {q : List Place} {c : Cursor} (hc : Reached d m done q c) :
    Errs P (s.follow (r.hooks E) c) := by
  cases s with
  | filter f =>
    rw [Step.follow_filter]
    cases c.scope.child? with
    | none => exact errs_pure _
    | some inner =>
      refine Errs.map (Step.steady_kept r f _) (errs_kept (hs f rfl) fun item hitem => ?_) _
      obtain ⟨i, hi⟩ := List.mem_iff_getElem?.mp hitem
      exact ⟨_, hc.stands.append (.of_items hi)⟩
  | index i =>
    rw [Step.follow_index]
    exact errs_pure _
  | slice s =>
    rw [Step.follow_slice]
    exact errs_pure _
  | wildcard =>
    rw [Step.follow]
    cases c.scope.child? <;> exact errs_pure _
  | _ => exact errs_pure _

theorem errs_followAll {s : Step}
    (hs : ∀ f, s.filter? = some f →
      ∀ q item, d.Stands q item → Errs P (f.evaluate (r.hooks E) item))
    {done : List Step} {cs : List Cursor} (hcs : AllReached d m done cs) :
    Errs P (s.followAll (r.hooks E) cs) := by
  induction cs with
  | nil => exact errs_pure _
  | cons c cs ih =>
    obtain ⟨q, hq⟩ := hcs c List.mem_cons_self
    refine Errs.bind (Step.steady_follow r c s) (errs_follow hs hq) fun _ _ => ?_
    refine Errs.bind (Step.steady_followAll r s cs) (ih fun c' hc' => ?_) fun _ _ => errs_pure _
    exact hcs c' (List.mem_cons_of_mem c hc')

/-- the errors of a path are those of its filters, for what stands in the document -/
theorem errs_followSteps {steps : List Step}
    (hsteps : ∀ s ∈ steps, ∀ f, s.filter? = some f →
      ∀ q item, d.Stands q item → Errs P (f.evaluate (r.hooks E) item))
    {done : List Step} {cs : List Cursor} (hcs : AllReached d m done cs) :
    Errs P (followSteps (r.hooks E) steps cs) := by
  induction steps generalizing done cs with
  | nil => exact errs_pure _
  | cons s steps ih =>
    refine Errs.bind (Step.steady_followAll r s cs)
      (errs_followAll (hsteps s List.mem_cons_self) hcs) fun next hnext => ?_
    obtain ⟨t, hrun⟩ := alone_eq_ok.mp hnext
    exact ih (fun s' hs' => hsteps s' (List.mem_cons_of_mem s hs')) (hcs.followAll hrun)

end

namespace Path

theorem hasFault_iff (p : Path) : ¬p.HasFault ↔ ∀ f ∈ p.filters, f.Clean := by
  constructor
  · intro h f hf g hg hfaulty
    exact h ⟨f, hf, g, hg, hfaulty⟩
  · rintro h ⟨f, hf, g, hg, hfaulty⟩
    exact h f hf g hg hfaulty

/-- within the ceilings the scan of the filters decides -/
theorem allow_eq_scan {p : Path} {o : EvaluateOptions}
    (hdescents : (p.steps.filter Step.isDescendants).length ≤ o.maxDescents)
    (hdepth : ∀ f ∈ p.filters, f.depth ≤ o.maxFilterDepth) :
    p.allow o = p.filters.forM Filter.scan := by
  rw [allow, (p.checkDescents_iff _).mpr hdescents, (p.checkFilterDepth_iff _).mpr hdepth]
  rfl

theorem allow_of_fault {p : Path} {o : EvaluateOptions}
    (hdescents : (p.steps.filter Step.isDescendants).length ≤ o.maxDescents)
    (hdepth : ∀ f ∈ p.filters, f.depth ≤ o.maxFilterDepth) (h : p.HasFault) :
    ∃ fault, p.allow o = .error (.security fault) := by
  rw [allow_eq_scan hdescents hdepth]
  rcases Filter.forM_scan_cases p.filters with hok | herror
  · have hclean : ∀ f ∈ p.filters, f.Clean := fun f hf =>
      f.scan_iff.mp ((forM_scan_iff p.filters).mp hok f hf)
    exact absurd h (p.hasFault_iff.mpr hclean)
  · exact herror

/-- **Whether a path is safe does not depend on the document.** With a fault anywhere in a filter it
is refused for one and the same fault, whatever the document holds. Without one it can only be
refused for a pattern that is no string literal, and no name that it looks up is denied. -/
theorem security_static [E.Deterministic] (p : Path) (o : EvaluateOptions)
    (hdescents : (p.steps.filter Step.isDescendants).length ≤ o.maxDescents)
    (hdepth : ∀ f ∈ p.filters, f.depth ≤ o.maxFilterDepth) :
    (p.HasFault → ∃ fault, ∀ {ω : Type} (H : Hooks ω) d s,
      p.evaluate H d o s = .error (.security fault) s) ∧
    (¬p.HasFault →
      (∀ r d (s t : Session E) fault, s.Sound →
        p.evaluate (r.hooks E) d o s = .error (.security fault) t →
          RefusedIn E r d p.filters fault) ∧
      ∀ f ∈ p.filters, ∀ names, Filter.Part (.reference names) f →
        ∀ item, ∃ v, Filter.resolve item names = .ok v) := by
  constructor
  · intro h
    obtain ⟨fault, hallow⟩ := allow_of_fault hdescents hdepth h
    refine ⟨fault, fun H d s => ?_⟩
    rw [evaluate, hallow]
    rfl
  · intro h
    have hclean := p.hasFault_iff.mp h
    constructor
    · intro r d s t fault hs herror
      have hallow : p.allow o = .ok () := by
        rw [allow_eq_scan hdescents hdepth, forM_scan_iff]
        exact fun f hf => f.scan_iff.mpr (hclean f hf)
      rw [evaluate, hallow] at herror
      have herrs : Errs (fun e => ∀ fault, e = .security fault → RefusedIn E r d p.filters fault)
          (p.follow (r.hooks E) d o.maxDepth) := by
        refine errs_followSteps (fun s hs f hf q item hq => ?_) (allReached_start d o.maxDepth)
        have hmem : f ∈ p.filters := List.mem_filterMap.mpr ⟨s, hs, hf⟩
        refine Filter.errs_evaluate fun g e hg hfails fault heq => ⟨f, hmem, g, hg, q, item, hq, ?_⟩
        subst heq
        exact ((hclean f hmem).part hg).refused_of_fails hfails
      exact (herrs.bind (steady_followSteps r p.steps _) fun _ _ => errs_pure _) hs herror fault rfl
    · intro f hf names hpart item
      exact Filter.resolve_ok (hclean f hf _ hpart) item

/-- a denied name in an argument of a call that is never made, and a pattern that comes out of the
document -/
theorem security_static_unreached :
    let H := Registry.empty.hooks Pattern.engine
    let call : Filter := .negation (.call "f" [.reference ["a", "constructor"]])
    let p := Path.ofSteps [.property "x", .filter (.binary (.known .and) (.literal .null) call)]
    let search : Filter := .binary (.known .pattern) (.reference ["a"]) (.reference ["b"])
    let q := Path.ofSteps [.filter search]
    let d := Document.list [.map [("a", .text "x"), ("b", .text "(a+)+")]]
    (p.HasFault ∧ ∃ fault, ∀ {ω : Type} (H : Hooks ω) d s,
      p.evaluate H d ⟨0, 0, 4⟩ s = .error (.security fault) s) ∧
    ¬q.HasFault ∧ (∃ t, q.evaluate H d {} .fresh
      = .error (.security (.pattern .nestedRepetition)) t) ∧
      RefusedIn Pattern.engine .empty d q.filters (.pattern .nestedRepetition) := by
  intro H call p search q d
  have hdepth : (∀ f ∈ p.filters, f.depth ≤ 4) ∧ ∀ f ∈ q.filters, f.depth ≤ 64 := by
    constructor <;> intro f hf <;> rw [List.mem_singleton.mp (show f ∈ [_] from hf)] <;>
      decide +kernel
  have hfault : p.HasFault := by
    refine ⟨_, List.mem_singleton_self _, .reference ["a", "constructor"], ?_,
      .name (List.mem_cons_of_mem "a" List.mem_cons_self) (by decide)⟩
    exact .inside (List.mem_cons_of_mem _ (List.mem_singleton_self call)) <|
      .inside (List.mem_singleton_self _) <| .inside (List.mem_singleton_self _) (.self _)
  have hsafe : ¬q.HasFault := by
    refine q.hasFault_iff.mpr fun f hf => f.scan_iff.mp ?_
    rw [List.mem_singleton.mp (show f ∈ [_] from hf)]
    decide +kernel
  obtain ⟨t, ht⟩ : ∃ t, q.evaluate H d {} .fresh
      = .error (.security (.pattern .nestedRepetition)) t := fresh_eq_error (by decide +kernel)
  refine ⟨⟨hfault, ?_⟩, hsafe, ⟨t, ht⟩, ?_⟩
  · exact (@security_static Pattern.engine _ p ⟨0, 0, 4⟩ (by decide) hdepth.1).1 hfault
  · exact ((@security_static Pattern.engine _ q {} (by decide) hdepth.2).2 hsafe).1 _ d _ t _
      Session.sound_fresh ht

end Path
end PathQuery
