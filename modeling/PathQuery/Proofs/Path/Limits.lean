import PathQuery.Evaluation.Basic
import Mathlib.Data.List.Basic

/-!
# What is refused before a path is followed

Validation, the ceilings and the scan of the filters report a fault with its position. Whether there
is one depends on the steps behind a leading `$` only.

* `Path.validate_iff`   when validation finds no fault;
* `Path.allow_iff`      when a path may be evaluated.
-/

namespace PathQuery

/-- the error is a fault that is found in a whole path -/
def PathError.IsValidation (e : PathError) : Prop :=
  ∃ fault position, e = .validation fault position

namespace Path

theorem refuseFirst_iff (fault? : Segment → Option ValidationFault) (segments : List Segment) :
    refuseFirst fault? segments = .ok () ↔ ∀ s ∈ segments, fault? s = none := by
  have hnone : segments.findSome? (fun s => (fault? s).map (·, s.position)) = none
      ↔ ∀ s ∈ segments, fault? s = none := by
    rw [List.findSome?_eq_none_iff]
    constructor
    · intro h s hs
      exact Option.map_eq_none_iff.mp (h s hs)
    · intro h s hs
      exact Option.map_eq_none_iff.mpr (h s hs)
  rw [← hnone, refuseFirst]
  cases segments.findSome? (fun s => (fault? s).map (·, s.position)) with
  | none => exact ⟨fun _ => rfl, fun _ => rfl⟩
  | some p => exact ⟨nofun, nofun⟩

/-- what is refused is refused for the fault of a segment, at its position -/
theorem refuseFirst_error {fault? : Segment → Option ValidationFault} {segments : List Segment}
    {e : PathError} (h : refuseFirst fault? segments = .error e) :
    ∃ s ∈ segments, ∃ fault, fault? s = some fault ∧ e = .validation fault (some s.position) := by
  unfold refuseFirst at h
  split at h
  · rename_i fault position hfound
    cases h
    obtain ⟨s, hs, hmap⟩ := List.exists_of_findSome?_eq_some hfound
    obtain ⟨own, hown, hpair⟩ := Option.map_eq_some_iff.mp hmap
    cases hpair
    exact ⟨s, hs, _, hown, rfl⟩
  · cases h

theorem checkDescents_error {p : Path} {limit : ℕ} {e : PathError}
    (h : p.checkDescents limit = .error e) :
    ∃ position, e = .validation (.descents limit) position := by
  unfold checkDescents at h
  split at h
  · cases h
    exact ⟨_, rfl⟩
  · cases h

theorem checkDescents_iff (p : Path) (limit : ℕ) :
    p.checkDescents limit = .ok () ↔ (p.steps.filter Step.isDescendants).length ≤ limit := by
  have hlen : (p.steps.filter Step.isDescendants).length
      = (p.segments.filter fun s => s.step.isDescendants).length := by
    rw [steps, List.filter_map, List.length_map]
    rfl
  rw [hlen, ← List.getElem?_eq_none_iff, checkDescents]
  cases (p.segments.filter fun s => s.step.isDescendants)[limit]? with
  | none => exact ⟨fun _ => rfl, fun _ => rfl⟩
  | some s => exact ⟨nofun, nofun⟩

/-- a path has its steps behind a leading `$`, or it has no leading `$` -/
theorem steps_eq (p : Path) : p.steps = p.normalized ∨ p.steps = .root :: p.normalized := by
  unfold normalized
  split
  · exact .inr ‹_›
  · exact .inl rfl

theorem mem_filters_iff (p : Path) (f : Filter) :
    f ∈ p.filters ↔ ∃ step ∈ p.normalized, step.filter? = some f := by
  rw [filters]
  obtain h | h := p.steps_eq
  · rw [h, List.mem_filterMap]
  · rw [h, List.filterMap_cons_none rfl, List.mem_filterMap]

theorem filter_descendants (p : Path) :
    p.steps.filter Step.isDescendants = p.normalized.filter Step.isDescendants := by
  obtain h | h := p.steps_eq
  · rw [h]
  · rw [h, List.filter_cons_of_neg Bool.false_ne_true]

theorem checkFilterDepth_iff (p : Path) (limit : ℕ) :
    p.checkFilterDepth limit = .ok () ↔ ∀ f ∈ p.filters, f.depth ≤ limit := by
  rw [checkFilterDepth, refuseFirst_iff]
  constructor
  · intro h f hf
    obtain ⟨step, hstep, hfilter⟩ := List.mem_filterMap.mp hf
    obtain ⟨s, hs, rfl⟩ := List.mem_map.mp hstep
    have hfault := h s hs
    rw [hfilter, Option.bind_some] at hfault
    by_contra hdeep
    rw [if_pos (by omega)] at hfault
    cases hfault
  · intro h s hs
    cases hfilter : s.step.filter? with
    | none => rfl
    | some f =>
      have hf : f ∈ p.filters := List.mem_filterMap.mpr ⟨s.step, List.mem_map_of_mem hs, hfilter⟩
      have hdepth := h f hf
      rw [Option.bind_some, if_neg (by omega)]

theorem checkFilterDepth_error {p : Path} {limit : ℕ} {e : PathError}
    (h : p.checkFilterDepth limit = .error e) :
    ∃ f ∈ p.filters, ∃ position, e = .validation (.filterDepth f.depth limit) (some position) := by
  obtain ⟨s, hs, fault, hfault, rfl⟩ := refuseFirst_error h
  obtain ⟨f, hfilter, hdeep⟩ := Option.bind_eq_some_iff.mp hfault
  split at hdeep
  · cases hdeep
    have hf : f ∈ p.filters := List.mem_filterMap.mpr ⟨s.step, List.mem_map_of_mem hs, hfilter⟩
    exact ⟨f, hf, s.position, rfl⟩
  · cases hdeep

theorem forM_scan_iff (fs : List Filter) :
    fs.forM Filter.scan = .ok () ↔ ∀ f ∈ fs, f.scan = .ok () := by
  induction fs with
  | nil => exact ⟨fun _ => nofun, fun _ => rfl⟩
  | cons f fs ih =>
    rw [List.forall_mem_cons, ← ih, List.forM]
    cases f.scan with
    | error e => exact ⟨nofun, fun h => nomatch h.1⟩
    | ok u => exact ⟨fun h => ⟨rfl, h⟩, fun h => h.2⟩

/-- validation looks at the steps behind a leading `$` only -/
theorem validate_iff (p : Path) (limit : ℕ) :
    p.validate limit = .ok () ↔ (∀ step ∈ p.normalized, step.fault? = none) ∧
      (p.normalized.filter Step.isDescendants).length ≤ limit := by
  have hsteps : (∀ s ∈ p.segments, s.step.fault? = none)
      ↔ ∀ step ∈ p.normalized, step.fault? = none := by
    have hmap : (∀ s ∈ p.segments, s.step.fault? = none) ↔ ∀ step ∈ p.steps, step.fault? = none := by
      rw [steps, List.forall_mem_map]
    rw [hmap]
    obtain h | h := p.steps_eq
    · rw [h]
    · rw [h, List.forall_mem_cons]
      exact ⟨fun h => h.2, fun h => ⟨rfl, h⟩⟩
  rw [← hsteps, ← refuseFirst_iff (·.step.fault?), ← filter_descendants, ← checkDescents_iff,
    validate]
  cases refuseFirst (fun s => s.step.fault?) p.segments with
  | error e => exact ⟨nofun, fun h => nomatch h.1⟩
  | ok u => exact ⟨fun h => ⟨rfl, h⟩, fun h => h.2⟩

theorem validate_error {p : Path} {limit : ℕ} {e : PathError} (h : p.validate limit = .error e) :
    e.IsValidation := by
  unfold validate at h
  cases hfirst : refuseFirst (fun s => s.step.fault?) p.segments with
  | error e' =>
    rw [hfirst] at h
    cases h
    obtain ⟨s, -, fault, -, rfl⟩ := refuseFirst_error hfirst
    exact ⟨_, _, rfl⟩
  | ok u =>
    rw [hfirst] at h
    obtain ⟨position, rfl⟩ := checkDescents_error h
    exact ⟨_, _, rfl⟩

theorem allow_iff_filters (p : Path) (o : EvaluateOptions) :
    p.allow o = .ok () ↔ (p.steps.filter Step.isDescendants).length ≤ o.maxDescents ∧
      ∀ f ∈ p.filters, f.depth ≤ o.maxFilterDepth ∧ f.scan = .ok () := by
  have hfilters : (∀ f ∈ p.filters, f.depth ≤ o.maxFilterDepth ∧ f.scan = .ok ())
      ↔ (∀ f ∈ p.filters, f.depth ≤ o.maxFilterDepth) ∧ ∀ f ∈ p.filters, f.scan = .ok () :=
    forall₂_and
  rw [hfilters, ← checkDescents_iff, ← checkFilterDepth_iff, ← forM_scan_iff, allow]
  cases p.checkDescents o.maxDescents with
  | error e => exact ⟨nofun, fun h => nomatch h.1⟩
  | ok u =>
    cases p.checkFilterDepth o.maxFilterDepth with
    | error e => exact ⟨nofun, fun h => nomatch h.2.1⟩
    | ok u => exact ⟨fun h => ⟨rfl, rfl, h⟩, fun h => h.2.2⟩

/-- whether a path may be evaluated is seen from the steps behind a leading `$`, too -/
theorem allow_iff (p : Path) (o : EvaluateOptions) :
    p.allow o = .ok () ↔ (p.normalized.filter Step.isDescendants).length ≤ o.maxDescents ∧
      ∀ step ∈ p.normalized, ∀ f, step.filter? = some f →
        f.depth ≤ o.maxFilterDepth ∧ f.scan = .ok () := by
  rw [allow_iff_filters, filter_descendants]
  refine and_congr_right fun _ => ⟨fun h step hstep f hfilter => ?_, fun h f hf => ?_⟩
  · exact h f ((p.mem_filters_iff f).mpr ⟨step, hstep, hfilter⟩)
  · obtain ⟨step, hstep, hfilter⟩ := (p.mem_filters_iff f).mp hf
    exact h step hstep f hfilter

end Path
end PathQuery
