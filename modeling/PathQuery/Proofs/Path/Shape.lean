import PathQuery.Pattern.Engine
import PathQuery.Proofs.Path.Reach

/-!
# Lists and single values

A deterministic path, without wildcards, `..`, slices and filters, leads to one value at most. So
its output holds all values that are reached, as the list does that is the output of any other path.

* `isDeterministic_iff`   when the profile of a path tells so;
* `length_followSteps`    steps of other kinds never multiply what has been reached;
* `followWhileAny`        a row of steps that is not followed further once nothing is left;
* `toList_ofList`         an output holds all that it is made of;
* `Path.evaluate_shape`   the kinds of steps tell a list from a single value.
-/

namespace PathQuery
open Stateful
variable {ω : Type}

theorem Path.isDeterministic_iff (p : Path) :
    p.profile.isDeterministic = true ↔ ∀ s ∈ p.steps, s.isMultiplying = false := by
  have hstep (s : Step) : s.isMultiplying
      = (s.isWildcard || s.isDescendants || s.filter?.isSome || s.isSlice) := by
    cases s <;> rfl
  have hany : (p.steps.any Step.isWildcard || p.steps.any Step.isDescendants
      || p.steps.any (·.filter?.isSome) || p.steps.any Step.isSlice)
        = p.steps.any Step.isMultiplying := by
    rw [funext hstep]
    induction p.steps with
    | nil => rfl
    | cons s steps ih =>
      simp only [List.any_cons, ← ih]
      simp only [Bool.or_assoc, Bool.or_comm, Bool.or_left_comm]
  show (!(_ || _ || _ || _)) = true ↔ _
  rw [Path.profile]
  dsimp only
  rw [hany, Bool.not_eq_true', List.any_eq_false]
  simp only [Bool.not_eq_true]

namespace Step

variable {H : Hooks ω} {σ τ : ω}

theorem length_toList_le {α : Type} (a : Option α) : a.toList.length ≤ 1 := by
  cases a <;> simp

/-- a step that does not multiply leads to one cursor at most -/
theorem length_follow {s : Step} (hs : s.isMultiplying = false) {c : Cursor} {cs : List Cursor}
    (h : s.follow H c σ = .ok cs τ) : cs.length ≤ 1 := by
  cases s with
  | root =>
    cases h
    exact Nat.le_refl 1
  | property name =>
    cases h
    rw [List.length_map]
    exact length_toList_le _
  | index i =>
    rw [follow_index] at h
    cases h
    rw [List.length_map]
    exact length_toList_le _
  | _ => cases hs

theorem length_followAll {s : Step} (hs : s.isMultiplying = false) {cs cs' : List Cursor}
    (h : s.followAll H cs σ = .ok cs' τ) : cs'.length ≤ cs.length := by
  induction cs generalizing cs' σ with
  | nil =>
    cases h
    exact Nat.le_refl 0
  | cons c cs ih =>
    obtain ⟨here, υ, hhere, h⟩ := bind_eq_ok.mp h
    obtain ⟨there, υ', hthere, h⟩ := bind_eq_ok.mp h
    cases h
    have hone := length_follow hs hhere
    have hmore := ih hthere
    rw [List.length_append, List.length_cons]
    omega

end Step

theorem length_followSteps {steps : List Step} (hsteps : ∀ s ∈ steps, s.isMultiplying = false)
    {H : Hooks ω} {σ τ : ω} {cs cs' : List Cursor}
    (h : followSteps H steps cs σ = .ok cs' τ) : cs'.length ≤ cs.length := by
  induction steps generalizing cs σ with
  | nil =>
    cases h
    exact Nat.le_refl _
  | cons s steps ih =>
    obtain ⟨next, υ, hnext, h⟩ := bind_eq_ok.mp h
    have hone := Step.length_followAll (hsteps s List.mem_cons_self) hnext
    exact Nat.le_trans (ih (fun s' hs' => hsteps s' (List.mem_cons_of_mem s hs')) h) hone

/-! ## rows of steps in parts -/

section
variable {H : Hooks ω}

theorem followSteps_append (steps more : List Step) (cs : List Cursor) :
    followSteps H (steps ++ more) cs
      = followSteps H steps cs >>= fun mid => followSteps H more mid := by
  induction steps generalizing cs with
  | nil => exact (pure_bind cs fun mid => followSteps H more mid).symm
  | cons s steps ih =>
    rw [List.cons_append, followSteps, followSteps, bind_assoc]
    simp only [ih]

theorem followSteps_nil (steps : List Step) : followSteps H steps [] = pure [] := by
  induction steps with
  | nil => rfl
  | cons s steps ih => rw [followSteps, Step.followAll, pure_bind, ih]

/-- where a row of steps leads, not followed further once nothing is left -/
def followWhileAny (H : Hooks ω) : List Step → List Cursor → Stateful ω (List Cursor)
  | [], cs => pure cs
  | s :: rest, cs => do
    let next ← s.followAll H cs
    if next.isEmpty then pure next else followWhileAny H rest next

/-- once nothing is left, it makes no difference whether the steps that remain are followed -/
theorem followWhileAny_eq (steps : List Step) (cs : List Cursor) :
    followWhileAny H steps cs = followSteps H steps cs := by
  induction steps generalizing cs with
  | nil => rfl
  | cons s steps ih =>
    rw [followWhileAny, followSteps]
    refine bind_congr fun σ next τ _ => ?_
    cases next with
    | nil => exact (followSteps_nil steps).symm
    | cons c next => exact ih (c :: next)

theorem followSteps_take {steps : List Step} {cs cs' : List Cursor} {σ τ : ω}
    (h : followSteps H steps cs σ = .ok cs' τ) (n : ℕ) : ∃ mid υ,
      followSteps H (steps.take n) cs σ = .ok mid υ ∧
        followSteps H (steps.drop n) mid υ = .ok cs' τ := by
  rw [← List.take_append_drop n steps, followSteps_append] at h
  exact bind_eq_ok.mp h

end

/-! ## outputs -/

/-- an output holds all that it is made of, if there is one value at most where there is no list -/
theorem Output.toList_ofList {isList : Bool} {vs : List Document}
    (h : isList = false → vs.length ≤ 1) : (Output.ofList isList vs).toList = vs := by
  cases isList with
  | true => rfl
  | false =>
    match vs, h rfl with
    | [], _ => rfl
    | [v], _ => rfl

theorem Output.ofList_many {isList : Bool} {vs : List Document} :
    (∃ ws, Output.ofList isList vs = .many ws) ↔ isList = true := by
  cases isList with
  | true => exact ⟨fun _ => rfl, fun _ => ⟨vs, rfl⟩⟩
  | false => cases vs <;> simp [Output.ofList]

theorem Output.ofList_single {vs : List Document} (h : vs.length ≤ 1) (v : Document) :
    Output.ofList false vs = .single v ↔ vs = [v] := by
  match vs, h with
  | [], _ => simp [Output.ofList]
  | [w], _ => simp [Output.ofList]

theorem Output.ofList_absent {vs : List Document} :
    Output.ofList false vs = .absent ↔ vs = [] := by
  cases vs <;> simp [Output.ofList]

namespace Path

theorem isDeterministic_eq_false {p : Path} :
    p.profile.isDeterministic = false ↔ ∃ s ∈ p.steps, s.isMultiplying = true := by
  rw [← Bool.not_eq_true, isDeterministic_iff]
  simp

/-- where no list is made there is one value at most -/
theorem length_follow {p : Path} {H : Hooks ω} {d : Document} {maxDepth : ℕ} {σ τ : ω}
    {cs : List Cursor} (h : p.follow H d maxDepth σ = .ok cs τ)
    (hsingle : (!p.profile.isDeterministic) = false) : (cs.map Cursor.value).length ≤ 1 := by
  rw [Bool.not_eq_false'] at hsingle
  rw [List.length_map]
  exact length_followSteps (p.isDeterministic_iff.mp hsingle) h

/-- an evaluation that ends well has followed all steps, and made an output of what was reached -/
theorem evaluate_eq_run {p : Path} {H : Hooks ω} {d : Document} {o : EvaluateOptions}
    {σ τ : ω} {out : Output} (h : p.evaluate H d o σ = .ok out τ) :
    ∃ cs, p.follow H d o.maxDepth σ = .ok cs τ ∧
      out = .ofList (!p.profile.isDeterministic) (cs.map Cursor.value) := by
  obtain ⟨u, υ, hallow, h⟩ := bind_eq_ok.mp h
  have hυ : υ = σ := by
    cases hp : p.allow o with
    | ok u =>
      rw [hp] at hallow
      cases hallow
      rfl
    | error e =>
      rw [hp] at hallow
      cases hallow
  obtain ⟨cs, υ', hfollow, h⟩ := bind_eq_ok.mp h
  cases h
  exact ⟨cs, hυ ▸ hfollow, rfl⟩

/-- **The kinds of the steps tell the shape of the output, and nothing is lost.** An evaluation that
ends well gives a list if some step can multiply, which is what the profile tells, and no list
otherwise. It gives all values that have been reached, whether or not the steps are followed further
once nothing is left; and nothing is what it then gives. Without a step that can multiply there is
one cursor at most after every step, so that a single value is the only one, and the output is
absent just when there is none. -/
theorem evaluate_shape (p : Path) (H : Hooks ω) (d : Document) (o : EvaluateOptions)
    (σ τ : ω) (out : Output) (h : p.evaluate H d o σ = .ok out τ) :
    let start : List Cursor := [⟨d, .ofDocument d o.maxDepth⟩]
    ((∃ vs, out = .many vs) ↔ ∃ s ∈ p.steps, s.isMultiplying = true) ∧
    (p.profile.isDeterministic = false ↔ ∃ s ∈ p.steps, s.isMultiplying = true) ∧
    (∀ n υ, followSteps H (p.steps.take n) start σ = .ok [] υ → out.toList = []) ∧
    ∃ cs, followWhileAny H p.steps start σ = .ok cs τ ∧ out.toList = cs.map Cursor.value ∧
      (p.profile.isDeterministic = true →
        (∀ n, ∃ mid υ, followSteps H (p.steps.take n) start σ = .ok mid υ ∧ mid.length ≤ 1) ∧
        (∀ v, out = .single v ↔ cs.map Cursor.value = [v]) ∧ (out = .absent ↔ cs = [])) := by
  intro start
  obtain ⟨cs, hfollow, rfl⟩ := evaluate_eq_run h
  have hone (hdet : p.profile.isDeterministic = true) (n : ℕ) {mid : List Cursor} {υ : ω}
      (hmid : followSteps H (p.steps.take n) start σ = .ok mid υ) : mid.length ≤ 1 :=
    length_followSteps (fun s hs => p.isDeterministic_iff.mp hdet s (List.mem_of_mem_take hs)) hmid
  have hvalues := length_follow hfollow
  have hlist := Output.toList_ofList hvalues
  refine ⟨?_, isDeterministic_eq_false, fun n υ hempty => ?_, cs, ?_, hlist,
    fun hdet => ⟨fun n => ?_, fun v => ?_, ?_⟩⟩
  · rw [Output.ofList_many, Bool.not_eq_true', isDeterministic_eq_false]
  · obtain ⟨mid, υ', hmid, hrest⟩ := followSteps_take hfollow n
    rw [hempty] at hmid
    cases hmid
    rw [followSteps_nil] at hrest
    cases hrest
    exact hlist
  · rw [followWhileAny_eq]
    exact hfollow
  · obtain ⟨mid, υ, hmid, -⟩ := followSteps_take hfollow n
    exact ⟨mid, υ, hmid, hone hdet n hmid⟩
  · rw [hdet]
    exact Output.ofList_single (hvalues (by rw [hdet]; rfl)) v
  · rw [hdet]
    exact Output.ofList_absent.trans List.map_eq_nil_iff

/-- a list that is emptied in front of its last two steps, and a value that is not there -/
theorem evaluate_shape_emptied :
    let H := Registry.empty.hooks Pattern.engine
    let d := Document.map [("a", .integer 1)]
    let p := Path.ofSteps [.root, .property "b", .wildcard, .property "c"]
    let q := Path.ofSteps [.root, .property "b", .property "c"]
    p.evaluate H d {} .fresh = .ok (.many []) .fresh ∧
      (∃ s ∈ p.steps, s.isMultiplying = true) ∧
      q.evaluate H d {} .fresh = .ok .absent .fresh ∧
      ¬∃ s ∈ q.steps, s.isMultiplying = true := by
  intro H d p q
  have hp : p.evaluate H d {} .fresh = .ok (.many []) .fresh := rfl
  have hq : q.evaluate H d {} .fresh = .ok .absent .fresh := rfl
  exact ⟨hp, (evaluate_shape p H d {} _ _ _ hp).1.mp ⟨[], rfl⟩, hq,
    (evaluate_shape q H d {} _ _ _ hq).1.not.mp nofun⟩

end Path
end PathQuery
