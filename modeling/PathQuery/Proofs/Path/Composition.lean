import PathQuery.Pattern.Engine
import PathQuery.Proofs.Path.MaxDepth

/-!
# Paths one after the other

A path is followed step by step from all values at once. That comes to the same as following each
value to the end before the next one is looked at: what two paths lead to, one after the other, is
what the second leads to from each value that the first leads to, in the order of these values.

* `Cursor.moved`          a cursor as it is further down in another document;
* `followSteps_alike`     what is reached below a value depends on that value alone;
* `valuesFrom_cursors`    a row of steps followed from some cursors, or from each of them;
* `Path.values_append`    the values that two paths lead to;
* `Path.evaluate_append`  the same for whole evaluations.
-/

namespace PathQuery
open Stateful
variable {E : RegexEngine}

/-! ## further down in another document -/

def Scope.moved (root : Document) (k : ℕ) (s : Scope) : Scope :=
  ⟨root, s.depth + k, s.maxDepth + k⟩

/-- a cursor as it is further down in another document, with as much room below it -/
def Cursor.moved (root : Document) (k : ℕ) (c : Cursor) : Cursor := ⟨c.value, c.scope.moved root k⟩

theorem Scope.child_moved (root : Document) (k : ℕ) (s : Scope) :
    (s.moved root k).child? = s.child?.map (Scope.moved root k) := by
  cases hinner : s.child? with
  | none =>
    have hle := Scope.child_eq_none.mp hinner
    exact Scope.child_eq_none.mpr (Nat.add_le_add_right hle k)
  | some inner =>
    obtain ⟨hlt, rfl⟩ := Scope.child_eq_some.mp hinner
    refine Scope.child_eq_some.mpr ⟨Nat.add_lt_add_right hlt k, ?_⟩
    rw [moved, moved, Nat.add_right_comm]

section
variable {root : Document} {k : ℕ} {ω : Type}

theorem map_moved (vs : List Document) (s : Scope) :
    (vs.map (⟨·, s⟩ : Document → Cursor)).map (Cursor.moved root k)
      = vs.map (⟨·, s.moved root k⟩) := by
  rw [List.map_map]
  rfl

mutual
theorem descend_moved (sought : Option String) (s : Scope) (d : Document) :
    descend sought (s.moved root k) d = (descend sought s d).map (Cursor.moved root k) := by
  cases d with
  | list items =>
    rw [descend, descend, Scope.child_moved]
    cases s.child? with
    | none => rfl
    | some inner => exact descendItems_moved sought inner items
  | map entries =>
    rw [descend, descend, Scope.child_moved]
    cases s.child? with
    | none => rfl
    | some inner => exact descendEntries_moved sought inner entries
  | _ => simp [descend]

theorem descendItems_moved (sought : Option String) (s : Scope) (items : List Document) :
    descendItems sought (s.moved root k) items
      = (descendItems sought s items).map (Cursor.moved root k) := by
  cases items with
  | nil => rfl
  | cons d rest =>
    rw [descendItems, descendItems, List.map_append, List.map_append, descend_moved sought s d,
      descendItems_moved sought s rest]
    split <;> rfl

theorem descendEntries_moved (sought : Option String) (s : Scope)
    (entries : List (String × Document)) :
    descendEntries sought (s.moved root k) entries
      = (descendEntries sought s entries).map (Cursor.moved root k) := by
  cases entries with
  | nil => rfl
  | cons e rest =>
    obtain ⟨key, d⟩ := e
    rw [descendEntries, descendEntries, List.map_append, List.map_append, descend_moved sought s d,
      descendEntries_moved sought s rest]
    split <;> rfl
end

/-- a step that does not lead back to the document does not tell one document from another -/
theorem Step.follow_moved {s : Step} (hs : s ≠ .root) (H : Hooks ω) (c : Cursor) :
    s.follow H (c.moved root k) = List.map (Cursor.moved root k) <$> s.follow H c := by
  have hscope : (c.moved root k).scope.child? = c.scope.child?.map (Scope.moved root k) :=
    Scope.child_moved root k c.scope
  cases s with
  | root => exact absurd rfl hs
  | property name =>
    rw [follow, follow, map_pure, map_moved]
    rfl
  | index i =>
    rw [follow_index, follow_index, map_pure, map_moved]
    rfl
  | slice s =>
    rw [follow_slice, follow_slice, map_pure, map_moved]
    rfl
  | descendants sought =>
    rw [follow, follow, map_pure, ← descend_moved]
    rfl
  | wildcard =>
    rw [follow, follow, hscope]
    cases c.scope.child? with
    | none => rfl
    | some inner =>
      show pure _ = List.map _ <$> pure _
      rw [map_pure, map_moved]
      rfl
  | filter f =>
    rw [follow_filter, follow_filter, hscope]
    cases c.scope.child? with
    | none => rfl
    | some inner =>
      show List.map _ <$> kept H f c.value.items = List.map _ <$> List.map _ <$> _
      rw [Functor.map_map]
      congr 1
      funext ds
      exact (map_moved ds inner).symm

theorem Step.followAll_moved {s : Step} (hs : s ≠ .root) (H : Hooks ω) (cs : List Cursor) :
    s.followAll H (cs.map (Cursor.moved root k))
      = List.map (Cursor.moved root k) <$> s.followAll H cs := by
  induction cs with
  | nil => rfl
  | cons c cs ih =>
    rw [List.map_cons, followAll, followAll, follow_moved hs, ih]
    simp only [map_bind, bind_map_left, map_pure, List.map_append]

theorem followSteps_moved {steps : List Step} (hsteps : ∀ s ∈ steps, s ≠ .root) (H : Hooks ω)
    (cs : List Cursor) : followSteps H steps (cs.map (Cursor.moved root k))
      = List.map (Cursor.moved root k) <$> followSteps H steps cs := by
  induction steps generalizing cs with
  | nil => rfl
  | cons s steps ih =>
    obtain ⟨hs, hrest⟩ := List.forall_mem_cons.mp hsteps
    rw [followSteps, followSteps, Step.followAll_moved hs, map_bind, bind_map_left]
    exact Stateful.bind_congr fun _ next _ _ => ih hrest next

end

/-- **What is reached below a value depends on that value alone,** as long as there is room below
it and no step leads back to the document. -/
theorem followSteps_alike {ω : Type} {c : Cursor}
    (hroom : c.scope.depth + c.value.height ≤ c.scope.maxDepth) {steps : List Step}
    (hsteps : ∀ s ∈ steps, s ≠ .root) (H : Hooks ω) :
    List.map Cursor.value <$> followSteps H steps [c] = List.map Cursor.value <$>
      followSteps H steps [⟨c.value, .ofDocument c.value c.scope.maxDepth⟩] := by
  obtain ⟨v, root, depth, limit⟩ := c
  have hroom' : depth + v.height ≤ limit := hroom
  -- both are reached from the value with just the room that is left
  let near : Cursor := ⟨v, .ofDocument v (limit - depth)⟩
  have hmoved : [(⟨v, root, depth, limit⟩ : Cursor)] = [near].map (Cursor.moved root depth) := by
    show [_] = [(⟨v, root, 0 + depth, limit - depth + depth⟩ : Cursor)]
    rw [Nat.zero_add, Nat.sub_add_cancel (by omega)]
  have hroot : ∀ s ∈ ([] ++ steps).tail, s ≠ .root :=
    fun s hs => hsteps s (List.mem_of_mem_tail hs)
  have hlimit := followSteps_withLimit (m := limit) (by omega) (Nat.sub_le limit depth) hroot
    (allReached_start v (limit - depth)) H
  show _ = List.map Cursor.value <$> followSteps H steps ([near].map (Cursor.withLimit limit))
  rw [hmoved, followSteps_moved hsteps, hlimit, Functor.map_map, Functor.map_map]
  simp only [List.map_map]
  rfl

/-! ## from all cursors at once, or from each -/

section
variable {r : Registry}

theorem joined_eq_ok {x y : Except PathError (List Cursor)} {out : List Cursor} :
    (do let a ← x; let b ← y; pure (a ++ b)) = Except.ok out ↔
      ∃ a b, x = .ok a ∧ y = .ok b ∧ a ++ b = out := by
  cases x with
  | error e => exact ⟨nofun, fun ⟨_, _, h, _⟩ => nomatch h⟩
  | ok a =>
    cases y with
    | error e => exact ⟨nofun, fun ⟨_, _, _, h, _⟩ => nomatch h⟩
    | ok b =>
      constructor
      · intro h
        exact ⟨a, b, rfl, rfl, Except.ok.inj h⟩
      · rintro ⟨a', b', ha, hb, rfl⟩
        cases ha
        cases hb
        rfl

theorem bind_alone_eq_ok {α β : Type} {x : Except PathError α} {f : α → Except PathError β}
    {b : β} : x >>= f = .ok b ↔ ∃ a, x = .ok a ∧ f a = .ok b := by
  cases x with
  | error e => exact ⟨nofun, fun ⟨_, h, _⟩ => nomatch h⟩
  | ok a => exact ⟨fun h => ⟨a, rfl, h⟩, fun ⟨_, ha, h⟩ => by cases ha; exact h⟩

theorem exists_forall₂_iff {α β : Type} {R : α → β → Prop} {as : List α} :
    (∃ bs, List.Forall₂ R as bs) ↔ ∀ a ∈ as, ∃ b, R a b := by
  induction as with
  | nil => exact ⟨fun _ => nofun, fun _ => ⟨[], .nil⟩⟩
  | cons a as ih =>
    rw [List.forall_mem_cons, ← ih]
    constructor
    · rintro ⟨_, hab⟩
      cases hab with
      | cons h hrest => exact ⟨⟨_, h⟩, _, hrest⟩
    · rintro ⟨⟨b, h⟩, bs, hrest⟩
      exact ⟨b :: bs, .cons h hrest⟩

/-- the values that a row of steps leads to -/
def valuesFrom (E : RegexEngine) (r : Registry) (steps : List Step) (cs : List Cursor) :
    Except PathError (List Document) :=
  List.map Cursor.value <$> (followSteps (r.hooks E) steps cs).alone

theorem valuesFrom_eq_ok {steps : List Step} {cs : List Cursor} {vs : List Document} :
    valuesFrom E r steps cs = .ok vs ↔
      ∃ out, (followSteps (r.hooks E) steps cs).alone = .ok out ∧ out.map Cursor.value = vs := by
  rw [valuesFrom, map_eq_pure_bind, bind_alone_eq_ok]
  exact exists_congr fun out => and_congr_right fun _ => ⟨Except.ok.inj, congrArg Except.ok⟩

variable [E.Deterministic]

theorem Step.alone_followAll_append {s : Step} {cs ds out : List Cursor} :
    (s.followAll (r.hooks E) (cs ++ ds)).alone = .ok out ↔
      ∃ a b, (s.followAll (r.hooks E) cs).alone = .ok a ∧
        (s.followAll (r.hooks E) ds).alone = .ok b ∧ a ++ b = out := by
  induction cs generalizing out with
  | nil =>
    constructor
    · exact fun h => ⟨[], out, rfl, h, rfl⟩
    · rintro ⟨a, b, ha, hb, rfl⟩
      cases ha
      exact hb
  | cons c cs ih =>
    rw [List.cons_append, alone_followAll_cons, alone_followAll_cons, joined_eq_ok]
    constructor
    · rintro ⟨here, there, hhere, hthere, rfl⟩
      obtain ⟨a, b, ha, hb, rfl⟩ := ih.mp hthere
      exact ⟨here ++ a, b, joined_eq_ok.mpr ⟨here, a, hhere, ha, rfl⟩, hb, List.append_assoc _ _ _⟩
    · rintro ⟨ha, b, h, hb, rfl⟩
      obtain ⟨here, a, hhere, ha, rfl⟩ := joined_eq_ok.mp h
      exact ⟨here, a ++ b, hhere, ih.mpr ⟨a, b, ha, hb, rfl⟩, (List.append_assoc _ _ _).symm⟩

theorem alone_followSteps_cons (s : Step) (steps : List Step) (cs : List Cursor) :
    (followSteps (r.hooks E) (s :: steps) cs).alone
      = (s.followAll (r.hooks E) cs).alone >>= fun next =>
        (followSteps (r.hooks E) steps next).alone :=
  (s.steady_followAll r cs).alone_bind fun next => steady_followSteps r steps next

theorem alone_followSteps_append (steps more : List Step) (cs : List Cursor) :
    (followSteps (r.hooks E) (steps ++ more) cs).alone
      = (followSteps (r.hooks E) steps cs).alone >>= fun mid =>
        (followSteps (r.hooks E) more mid).alone := by
  rw [followSteps_append]
  exact (steady_followSteps r steps cs).alone_bind fun mid => steady_followSteps r more mid

/-- the steps are followed without a fault from some cursors and some more, if they are from both -/
theorem alone_followSteps_cursors {steps : List Step} {cs ds out : List Cursor} :
    (followSteps (r.hooks E) steps (cs ++ ds)).alone = .ok out ↔
      ∃ a b, (followSteps (r.hooks E) steps cs).alone = .ok a ∧
        (followSteps (r.hooks E) steps ds).alone = .ok b ∧ a ++ b = out := by
  induction steps generalizing cs ds with
  | nil =>
    constructor
    · intro h
      exact ⟨cs, ds, rfl, rfl, Except.ok.inj h⟩
    · rintro ⟨a, b, ha, hb, rfl⟩
      cases ha
      cases hb
      rfl
  | cons s steps ih =>
    simp only [alone_followSteps_cons, bind_alone_eq_ok]
    constructor
    · rintro ⟨next, hnext, h⟩
      obtain ⟨a, b, ha, hb, rfl⟩ := Step.alone_followAll_append.mp hnext
      obtain ⟨a', b', ha', hb', rfl⟩ := ih.mp h
      exact ⟨a', b', ⟨a, ha, ha'⟩, ⟨b, hb, hb'⟩, rfl⟩
    · rintro ⟨a', b', ⟨a, ha, ha'⟩, ⟨b, hb, hb'⟩, rfl⟩
      exact ⟨a ++ b, Step.alone_followAll_append.mpr ⟨a, b, ha, hb, rfl⟩,
        ih.mpr ⟨a', b', ha', hb', rfl⟩⟩

/-- **A row of steps can be followed from each cursor by itself.** -/
theorem valuesFrom_cursors {steps : List Step} {cs : List Cursor} {vs : List Document} :
    valuesFrom E r steps cs = .ok vs ↔ ∃ outs,
      List.Forall₂ (fun c out => valuesFrom E r steps [c] = .ok out) cs outs ∧
        outs.flatten = vs := by
  induction cs generalizing vs with
  | nil =>
    rw [valuesFrom, followSteps_nil]
    constructor
    · intro h
      exact ⟨[], .nil, Except.ok.inj h⟩
    · rintro ⟨outs, houts, rfl⟩
      cases houts
      rfl
  | cons c cs ih =>
    rw [← List.singleton_append, valuesFrom_eq_ok]
    constructor
    · rintro ⟨out, hout, rfl⟩
      obtain ⟨here, there, hhere, hthere, rfl⟩ := alone_followSteps_cursors.mp hout
      obtain ⟨outs, houts, hflat⟩ := ih.mp (valuesFrom_eq_ok.mpr ⟨there, hthere, rfl⟩)
      refine ⟨_ :: outs, .cons (valuesFrom_eq_ok.mpr ⟨here, hhere, rfl⟩) houts, ?_⟩
      rw [List.flatten_cons, hflat, List.map_append]
    · rintro ⟨outs, houts, rfl⟩
      cases houts with
      | cons hfirst houts =>
        obtain ⟨here, hhere, rfl⟩ := valuesFrom_eq_ok.mp hfirst
        obtain ⟨there, hthere, hflat⟩ := valuesFrom_eq_ok.mp (ih.mpr ⟨_, houts, rfl⟩)
        refine ⟨here ++ there, alone_followSteps_cursors.mpr ⟨here, there, hhere, hthere, rfl⟩, ?_⟩
        rw [List.map_append, hflat, List.flatten_cons]

end

/-! ## paths -/

namespace Path

/-- one path after the other -/
instance : Append Path := ⟨fun p q => ⟨p.segments ++ q.segments⟩⟩

@[simp] theorem steps_append (p q : Path) : (p ++ q).steps = p.steps ++ q.steps :=
  List.map_append

theorem filters_append (p q : Path) : (p ++ q).filters = p.filters ++ q.filters := by
  rw [filters, steps_append, List.filterMap_append]
  rfl

theorem allow_of_append {p q : Path} {o : EvaluateOptions} (h : (p ++ q).allow o = .ok ()) :
    p.allow o = .ok () ∧ q.allow o = .ok () := by
  obtain ⟨hdescents, hfilters⟩ := (allow_iff_filters _ o).mp h
  rw [steps_append, List.filter_append, List.length_append] at hdescents
  rw [filters_append, List.forall_mem_append] at hfilters
  exact ⟨(allow_iff_filters p o).mpr ⟨by omega, hfilters.1⟩,
    (allow_iff_filters q o).mpr ⟨by omega, hfilters.2⟩⟩

def values (E : RegexEngine) (r : Registry) (d : Document) (p : Path) (maxDepth : ℕ) :
    Except PathError (List Document) :=
  valuesFrom E r p.steps [⟨d, .ofDocument d maxDepth⟩]

section
variable {p q : Path} [E.Deterministic] {r : Registry} {d : Document}

theorem evaluate_eq_ok {o : EvaluateOptions} {vs : List Document} :
    (∃ out, (p.evaluate (r.hooks E) d o).alone = .ok out ∧ out.toList = vs) ↔
      p.allow o = .ok () ∧ p.values E r d o.maxDepth = .ok vs := by
  have hlist {cs : List Cursor} (hcs : (p.follow (r.hooks E) d o.maxDepth).alone = .ok cs) :
      (Output.ofList (!p.profile.isDeterministic) (cs.map Cursor.value)).toList
        = cs.map Cursor.value := by
    obtain ⟨τ, hrun⟩ := alone_eq_ok.mp hcs
    exact Output.toList_ofList (length_follow hrun)
  rw [values, valuesFrom_eq_ok]
  constructor
  · rintro ⟨out, hout, rfl⟩
    obtain ⟨hallow, cs, hcs, rfl⟩ := alone_evaluate_eq_ok.mp hout
    exact ⟨hallow, cs, hcs, (hlist hcs).symm⟩
  · rintro ⟨hallow, cs, hcs, rfl⟩
    exact ⟨_, alone_evaluate_eq_ok.mpr ⟨hallow, cs, hcs, rfl⟩, hlist hcs⟩

/-- **Two paths lead where the second leads to from each value that the first leads to.** -/
theorem values_append (hp : ∀ s ∈ p.steps.tail, s ≠ .root) (hq : ∀ s ∈ q.steps, s ≠ .root)
    {m : ℕ} (hd : d.height ≤ m) {vs : List Document} :
    (p ++ q).values E r d m = .ok vs ↔ ∃ mid, p.values E r d m = .ok mid ∧ ∃ outs,
      List.Forall₂ (fun x out => q.values E r x m = .ok out) mid outs ∧ outs.flatten = vs := by
  have hbelow {cs : List Cursor} (hcs : (p.follow (r.hooks E) d m).alone = .ok cs) : ∀ c ∈ cs,
      valuesFrom E r q.steps [c] = q.values E r c.value m := by
    intro c hc
    obtain ⟨τ, hrun⟩ := alone_eq_ok.mp hcs
    obtain ⟨place, hreached⟩ := (allReached_start d m).followSteps hrun c hc
    have halike := congrArg Stateful.alone (followSteps_alike (hreached.room hd hp) hq (r.hooks E))
    rw [(steady_followSteps r _ _).alone_map, (steady_followSteps r _ _).alone_map,
      hreached.maxDepth] at halike
    exact halike
  have hvalues : (p ++ q).values E r d m
      = (p.follow (r.hooks E) d m).alone >>= fun cs => valuesFrom E r q.steps cs := by
    rw [values, valuesFrom, steps_append, alone_followSteps_append]
    exact map_bind _ _ _
  have heach {cs : List Cursor} (hcs : (p.follow (r.hooks E) d m).alone = .ok cs)
      (outs : List (List Document)) :
      List.Forall₂ (fun c out => valuesFrom E r q.steps [c] = .ok out) cs outs ↔
        List.Forall₂ (fun x out => q.values E r x m = .ok out) (cs.map Cursor.value) outs := by
    rw [List.forall₂_map_left_iff, List.forall₂_iff_get, List.forall₂_iff_get]
    simp only [List.get_eq_getElem, hbelow hcs _ (List.getElem_mem _)]
  rw [hvalues, bind_alone_eq_ok]
  constructor
  · rintro ⟨cs, hcs, hvs⟩
    obtain ⟨outs, houts, rfl⟩ := valuesFrom_cursors.mp hvs
    exact ⟨_, valuesFrom_eq_ok.mpr ⟨cs, hcs, rfl⟩, outs, (heach hcs outs).mp houts, rfl⟩
  · rintro ⟨mid, hmid, outs, houts, rfl⟩
    obtain ⟨cs, hcs, rfl⟩ := valuesFrom_eq_ok.mp hmid
    exact ⟨cs, hcs, valuesFrom_cursors.mpr ⟨outs, (heach hcs outs).mpr houts, rfl⟩⟩

end

/-- **Paths compose.** As long as no step but the first is `$`, the limits allow
it and the depth limit is not below the height of the document, one path after the other ends
well if the first does and the second does from each value that the first leads to; and then it
leads to what the second leads to from these, in their order. -/
theorem evaluate_append [E.Deterministic] {p q : Path} (hp : ∀ s ∈ p.steps.tail, s ≠ .root)
    (hq : ∀ s ∈ q.steps, s ≠ .root) (r : Registry) {d : Document} {o : EvaluateOptions}
    (hallow : (p ++ q).allow o = .ok ()) (hd : d.height ≤ o.maxDepth) :
    ((∃ out, ((p ++ q).evaluate (r.hooks E) d o).alone = .ok out) ↔
      ∃ mid, (p.evaluate (r.hooks E) d o).alone = .ok mid ∧
        ∀ x ∈ mid.toList, ∃ out, (q.evaluate (r.hooks E) x o).alone = .ok out) ∧
    ∀ out mid outs, ((p ++ q).evaluate (r.hooks E) d o).alone = .ok out →
      (p.evaluate (r.hooks E) d o).alone = .ok mid →
      List.Forall₂ (fun x out => (q.evaluate (r.hooks E) x o).alone = .ok out) mid.toList outs →
      out.toList = outs.flatMap Output.toList := by
  obtain ⟨hallowp, hallowq⟩ := allow_of_append hallow
  have hvalues {p : Path} {x : Document} {out : Output}
      (h : (p.evaluate (r.hooks E) x o).alone = .ok out) :
      p.values E r x o.maxDepth = .ok out.toList := (evaluate_eq_ok.mp ⟨out, h, rfl⟩).2
  refine ⟨⟨?_, ?_⟩, fun out mid outs hout hmid houts => ?_⟩
  · rintro ⟨out, hout⟩
    obtain ⟨vs, hvs, outs, houts, -⟩ := (values_append hp hq hd).mp (hvalues hout)
    obtain ⟨mid, hmid, rfl⟩ := evaluate_eq_ok.mpr ⟨hallowp, hvs⟩
    refine ⟨mid, hmid, fun x hx => ?_⟩
    obtain ⟨ws, hws⟩ := exists_forall₂_iff.mp ⟨outs, houts⟩ x hx
    obtain ⟨out, hout, -⟩ := evaluate_eq_ok.mpr ⟨hallowq, hws⟩
    exact ⟨out, hout⟩
  · rintro ⟨mid, hmid, hall⟩
    have hall' : ∀ x ∈ mid.toList, ∃ ws, q.values E r x o.maxDepth = .ok ws :=
      fun x hx => (hall x hx).imp' Output.toList fun _ h => hvalues h
    obtain ⟨outs, houts⟩ := exists_forall₂_iff.mpr hall'
    have hvs := (values_append hp hq hd).mpr ⟨_, hvalues hmid, outs, houts, rfl⟩
    obtain ⟨out, hout, -⟩ := evaluate_eq_ok.mpr ⟨hallow, hvs⟩
    exact ⟨out, hout⟩
  · have hall : List.Forall₂ (fun x vs => q.values E r x o.maxDepth = .ok vs) mid.toList
        (outs.map Output.toList) := by
      rw [List.forall₂_map_right_iff]
      exact houts.imp fun _ _ h => hvalues h
    have hvs := (values_append hp hq hd).mpr ⟨_, hvalues hmid, _, hall, rfl⟩
    rw [hvalues hout] at hvs
    exact Except.ok.inj hvs

/-- the numbers above one in the lists of a list -/
theorem evaluate_append_rows :
    let H := Registry.empty.hooks Pattern.engine
    let p := Path.ofSteps [.root, .wildcard]
    let q := Path.ofSteps [.filter
      (.binary (.known (.comparison .greater)) (.reference []) (.literal (.integer 1)))]
    let rows : List Document := [.list [.integer 1, .integer 2], .list [.integer 3]]
    (∀ s ∈ p.steps.tail, s ≠ .root) ∧ (∀ s ∈ q.steps, s ≠ .root) ∧
      (p ++ q).allow {} = .ok () ∧ (Document.list rows).height ≤ ({} : EvaluateOptions).maxDepth ∧
      (p.evaluate H (.list rows) {}).alone = .ok (.many rows) ∧
      List.Forall₂ (fun x out => (q.evaluate H x {}).alone = .ok out) rows
        [.many [.integer 2], .many [.integer 3]] ∧
      ∃ out, ((p ++ q).evaluate H (.list rows) {}).alone = .ok out ∧
        out.toList = [.integer 2, .integer 3] := by
  intro H p q rows
  have hp : ∀ s ∈ p.steps.tail, s ≠ .root := by
    intro s hs
    rw [List.mem_singleton.mp hs]
    exact nofun
  have hq : ∀ s ∈ q.steps, s ≠ .root := by
    intro s hs
    rw [List.mem_singleton.mp hs]
    exact nofun
  have hallow : (p ++ q).allow {} = .ok () := by decide +kernel
  have hheight : (Document.list rows).height ≤ ({} : EvaluateOptions).maxDepth := by decide
  have hmid : (p.evaluate H (.list rows) {}).alone = .ok (.many rows) := rfl
  have hallowq := (allow_of_append hallow).2
  have heach : List.Forall₂ (fun x out => (q.evaluate H x {}).alone = .ok out) rows
      [.many [.integer 2], .many [.integer 3]] :=
    .cons (alone_evaluate_eq_ok.mpr ⟨hallowq, _, rfl, rfl⟩)
      (.cons (alone_evaluate_eq_ok.mpr ⟨hallowq, _, rfl, rfl⟩) .nil)
  obtain ⟨hiff, hvalues⟩ := @evaluate_append Pattern.engine _ _ _ hp hq .empty _ _ hallow hheight
  obtain ⟨out, hout⟩ := hiff.mpr ⟨_, hmid, exists_forall₂_iff.mp ⟨_, heach⟩⟩
  exact ⟨hp, hq, hallow, hheight, hmid, heach, out, hout, hvalues out _ _ hout hmid heach⟩

end Path
end PathQuery
