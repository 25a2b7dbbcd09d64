import PathQuery.Proofs.Filter.PreOrder
import PathQuery.Proofs.Path.Limits

/-!
# The fault that is reported

The scan of a filter and the validation of a path see the expressions of a filter one after the
other and report the first fault that they meet. That is the fault of the expression that stands
first in the filter.

* `validate_skip`       a filter without a fault makes no difference to validation;
* `validate_first`      one with a fault is reported at its position, if nothing before it is;
* `traversals_agree`    going through expressions with a list of those still to be seen.
-/

namespace PathQuery

namespace Path
variable {before after : List Segment} {s : Segment}

theorem refuseFirst_skip {fault? : Segment → Option ValidationFault} (h : fault? s = none) :
    refuseFirst fault? (before ++ s :: after) = refuseFirst fault? (before ++ after) := by
  rw [refuseFirst, refuseFirst, List.findSome?_append, List.findSome?_append,
    List.findSome?_cons_of_isNone (by rw [h]; rfl)]

theorem refuseFirst_first {fault? : Segment → Option ValidationFault} {fault : ValidationFault}
    (hbefore : ∀ t ∈ before, fault? t = none) (h : fault? s = some fault) :
    refuseFirst fault? (before ++ s :: after) = .error (.validation fault (some s.position)) := by
  have hnone : before.findSome? (fun t => (fault? t).map (·, t.position)) = none :=
    List.findSome?_eq_none_iff.mpr fun t ht => Option.map_eq_none_iff.mpr (hbefore t ht)
  rw [refuseFirst, List.findSome?_append, hnone, Option.none_or,
    List.findSome?_cons_of_isSome (by rw [h]; rfl), h]
  rfl

/-- a segment that has no fault and is no `..` makes no difference -/
theorem validate_skip (hfault : s.step.fault? = none) (hstep : s.step.isDescendants = false)
    (limit : ℕ) : validate ⟨before ++ s :: after⟩ limit = validate ⟨before ++ after⟩ limit := by
  have hcheck : checkDescents ⟨before ++ s :: after⟩ limit
      = checkDescents ⟨before ++ after⟩ limit := by
    rw [checkDescents, checkDescents, List.filter_append, List.filter_append,
      List.filter_cons_of_neg (by rw [hstep]; exact Bool.false_ne_true)]
  rw [validate, validate, refuseFirst_skip hfault, hcheck]

theorem validate_first {fault : ValidationFault} (hbefore : ∀ t ∈ before, t.step.fault? = none)
    (hfault : s.step.fault? = some fault) (limit : ℕ) :
    validate ⟨before ++ s :: after⟩ limit = .error (.validation fault (some s.position)) := by
  rw [validate, refuseFirst_first hbefore hfault]
  rfl

end Path

namespace Filter

theorem scan_error (f : Filter) (e : PathError) :
    f.scan = .error e ↔ ∃ fault, e = .security fault ∧ f.FirstAt ownSecurityFault? fault := by
  simp only [← findSome_walk]
  rw [scan, securityFault?]
  cases f.walk.findSome? ownSecurityFault? with
  | none =>
    constructor
    · intro h
      cases h
    · rintro ⟨_, -, h⟩
      cases h
  | some fault =>
    constructor
    · intro h
      cases h
      exact ⟨fault, rfl, rfl⟩
    · rintro ⟨_, rfl, h⟩
      cases h
      rfl

theorem scan_ok (f : Filter) : f.scan = .ok () ↔ f.NoneAt ownSecurityFault? := by
  rw [← findSome_walk_none, scan, securityFault?]
  cases f.walk.findSome? ownSecurityFault? with
  | none => exact ⟨fun _ => rfl, fun _ => rfl⟩
  | some fault =>
    constructor <;> intro h <;> cases h

/-- **Going through an expression is recursion on it.** With a list of the expressions still to be
seen, all are seen that recursion finds: what stands at each place, once, in the order of places.
The number of levels found on the way is the height of the expression. So the scan reports the fault
of the first expression in that order that has one, and so does the validation of a path with the
filter, at the position of the filter and unless there is a fault in front of it. -/
theorem traversals_agree (f : Filter) :
    f.walk = f.preorder ∧
    (f.places.Pairwise (· < ·) ∧ (∀ place, place ∈ f.places ↔ (f.part? place).isSome) ∧
      f.walk.map some = f.places.map f.part?) ∧
    f.depth = f.height ∧
    ((f.scan = .ok () ↔ f.NoneAt ownSecurityFault?) ∧ ∀ e, f.scan = .error e ↔
      ∃ fault, e = .security fault ∧ f.FirstAt ownSecurityFault? fault) ∧
    ∀ (before after : List Segment) (position limit : ℕ),
      (f.NoneAt ownFault? → Path.validate ⟨before ++ ⟨.filter f, position⟩ :: after⟩ limit
        = Path.validate ⟨before ++ after⟩ limit) ∧
      ∀ fault, (∀ s ∈ before, s.step.fault? = none) → f.FirstAt ownFault? fault →
        Path.validate ⟨before ++ ⟨.filter f, position⟩ :: after⟩ limit
          = .error (.validation fault (some position)) := by
  refine ⟨f.walk_eq_preorder, ⟨f.places_pairwise, fun _ => mem_places, f.walk_places⟩,
    f.depth_eq_height, ⟨f.scan_ok, f.scan_error⟩, fun before after position limit => ⟨?_, ?_⟩⟩
  · intro hnone
    have hfault : (Step.filter f).fault? = none := findSome_walk_none.mpr hnone
    exact Path.validate_skip hfault rfl limit
  · intro fault hbefore hfirst
    have hfault : (Step.filter f).fault? = some fault := findSome_walk.mpr hfirst
    exact Path.validate_first hbefore hfault limit

/-- two faults in one filter, and one behind it; and a filter that is only unsafe -/
theorem traversals_agree_two_faults :
    let f := binary (.known .and) (negation (call "length" [])) (reference ["a", ""])
    let g := binary (.known .or) (reference ["a", "__proto__"]) (reference ["constructor"])
    (∀ s ∈ [Segment.mk .root 0], s.step.fault? = none) ∧
    f.FirstAt ownFault? (.arity "length" 1 0) ∧
    Path.validate ⟨[⟨.root, 0⟩] ++ ⟨.filter f, 1⟩ :: [⟨.property "", 9⟩]⟩ 10
      = .error (.validation (.arity "length" 1 0) (some 1)) ∧
    g.NoneAt ownFault? ∧
    Path.validate ⟨[⟨.root, 0⟩] ++ ⟨.filter g, 1⟩ :: [⟨.property "", 9⟩]⟩ 10
      = Path.validate ⟨[⟨.root, 0⟩] ++ [⟨.property "", 9⟩]⟩ 10 ∧
    g.scan = .error (.security (.deniedName "__proto__")) := by
  intro f g
  have hroot : ∀ s ∈ [Segment.mk .root 0], s.step.fault? = none := by
    intro s hs
    rw [List.mem_singleton.mp hs]
    rfl
  have hf : f.FirstAt ownFault? (.arity "length" 1 0) :=
    findSome_walk.mp (by rw [walk_eq_preorder]; decide)
  have hg : g.NoneAt ownFault? := findSome_walk_none.mp (by rw [walk_eq_preorder]; decide)
  have hdenied : g.FirstAt ownSecurityFault? (.deniedName "__proto__") :=
    findSome_walk.mp (by rw [walk_eq_preorder]; decide)
  obtain ⟨-, -, -, -, hvalidate⟩ := traversals_agree f
  obtain ⟨-, -, -, ⟨-, hscan⟩, hvalidate'⟩ := traversals_agree g
  exact ⟨hroot, hf, (hvalidate _ _ _ _).2 _ hroot hf, hg, (hvalidate' _ _ _ _).1 hg,
    (hscan _).mpr ⟨_, rfl, hdenied⟩⟩

end Filter
end PathQuery
