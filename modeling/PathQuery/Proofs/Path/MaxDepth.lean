import PathQuery.Pattern.Engine
import PathQuery.Proofs.Path.Evaluation
import PathQuery.Proofs.Path.Shape

/-!
# The depth limit only cuts off

With a smaller limit a path leads to fewer values, in the same order, and to no others. A limit
that is not below the height of the document changes nothing at all.

* `Cursor.withLimit`            a cursor under another limit;
* `followSteps_truncated`       under a smaller limit values are left out;
* `followSteps_withLimit`       under one that is high enough none are;
* `Path.evaluate_truncated`     both, for whole evaluations.
-/

namespace PathQuery
open Stateful
variable {E : RegexEngine} [E.Deterministic]

def Scope.withLimit (s : Scope) (m : ℕ) : Scope := { s with maxDepth := m }

def Cursor.withLimit (m : ℕ) (c : Cursor) : Cursor := ⟨c.value, c.scope.withLimit m⟩

@[simp] theorem Cursor.withLimit_mk (m : ℕ) (v : Document) (s : Scope) :
    Cursor.withLimit m ⟨v, s⟩ = ⟨v, s.withLimit m⟩ := rfl

theorem map_withLimit (m : ℕ) (vs : List Document) (s : Scope) :
    (vs.map (⟨·, s⟩ : Document → Cursor)).map (Cursor.withLimit m)
      = vs.map (⟨·, s.withLimit m⟩) := by
  rw [List.map_map]
  rfl

theorem map_value_withLimit (m : ℕ) (cs : List Cursor) :
    (cs.map (Cursor.withLimit m)).map Cursor.value = cs.map Cursor.value := by
  rw [List.map_map]
  rfl

theorem Scope.child_withLimit {s inner : Scope} {m : ℕ} (h : s.child? = some inner)
    (hm : s.maxDepth ≤ m) : (s.withLimit m).child? = some (inner.withLimit m) := by
  obtain ⟨hlt, rfl⟩ := Scope.child_eq_some.mp h
  exact Scope.child_eq_some.mpr ⟨hlt.trans_le hm, rfl⟩

theorem Scope.child_eq_none {s : Scope} : s.child? = none ↔ s.maxDepth ≤ s.depth := by
  unfold Scope.child?
  split
  · rename_i h
    simp [h]
  · rename_i h
    simp [Nat.not_lt.mp h]

theorem Scope.maxDepth_child {s inner : Scope} (h : s.child? = some inner) :
    inner.maxDepth = s.maxDepth := by
  obtain ⟨-, rfl⟩ := Scope.child_eq_some.mp h
  rfl

theorem Scope.depth_child {s inner : Scope} (h : s.child? = some inner) :
    inner.depth = s.depth + 1 := by
  obtain ⟨-, rfl⟩ := Scope.child_eq_some.mp h
  rfl

/-! ## a smaller limit -/

section
variable {m : ℕ}

mutual
theorem descend_truncated (sought : Option String) {scope : Scope} (h : scope.maxDepth ≤ m)
    (d : Document) : ((descend sought scope d).map (Cursor.withLimit m)).Sublist
      (descend sought (scope.withLimit m) d) := by
  cases d with
  | list items =>
    rw [descend, descend]
    cases hinner : scope.child? with
    | none => exact List.nil_sublist _
    | some inner =>
      rw [Scope.child_withLimit hinner h]
      exact descendItems_truncated sought ((Scope.maxDepth_child hinner).trans_le h) items
  | map entries =>
    rw [descend, descend]
    cases hinner : scope.child? with
    | none => exact List.nil_sublist _
    | some inner =>
      rw [Scope.child_withLimit hinner h]
      exact descendEntries_truncated sought ((Scope.maxDepth_child hinner).trans_le h) entries
  | _ => simp [descend]

theorem descendItems_truncated (sought : Option String) {scope : Scope} (h : scope.maxDepth ≤ m)
    (items : List Document) : ((descendItems sought scope items).map (Cursor.withLimit m)).Sublist
      (descendItems sought (scope.withLimit m) items) := by
  cases items with
  | nil => exact List.nil_sublist _
  | cons d rest =>
    rw [descendItems, descendItems, List.map_append, List.map_append]
    refine (List.Sublist.append ?_ (descend_truncated sought h d)).append
      (descendItems_truncated sought h rest)
    split <;> simp

theorem descendEntries_truncated (sought : Option String) {scope : Scope}
    (h : scope.maxDepth ≤ m) (entries : List (String × Document)) :
    ((descendEntries sought scope entries).map (Cursor.withLimit m)).Sublist
      (descendEntries sought (scope.withLimit m) entries) := by
  cases entries with
  | nil => exact List.nil_sublist _
  | cons e rest =>
    obtain ⟨key, d⟩ := e
    rw [descendEntries, descendEntries, List.map_append, List.map_append]
    refine (List.Sublist.append ?_ (descend_truncated sought h d)).append
      (descendEntries_truncated sought h rest)
    split <;> simp
end

/-- what `cs` lacks of `cs'` has been cut off by a limit that is not above `m` -/
structure Truncated (m : ℕ) (cs cs' : List Cursor) : Prop where
  sublist : (cs.map (Cursor.withLimit m)).Sublist cs'
  limit : ∀ c ∈ cs, c.scope.maxDepth ≤ m

theorem Truncated.refl {m : ℕ} {s : Scope} (h : s.maxDepth ≤ m) (vs : List Document) :
    Truncated m (vs.map (⟨·, s⟩)) (vs.map (⟨·, s.withLimit m⟩)) := by
  refine ⟨?_, fun c hc => ?_⟩
  · rw [map_withLimit]
  · obtain ⟨v, -, rfl⟩ := List.mem_map.mp hc
    exact h

theorem Truncated.nil (m : ℕ) (cs : List Cursor) : Truncated m [] cs :=
  ⟨List.nil_sublist cs, nofun⟩

theorem Truncated.append {m : ℕ} {cs cs' ds ds' : List Cursor} (h : Truncated m cs cs')
    (h' : Truncated m ds ds') : Truncated m (cs ++ ds) (cs' ++ ds') := by
  refine ⟨?_, List.forall_mem_append.mpr ⟨h.limit, h'.limit⟩⟩
  rw [List.map_append]
  exact h.sublist.append h'.sublist

namespace Step

theorem follow_truncated {s : Step} {r : Registry} {c : Cursor} {cs' : List Cursor}
    (hc : c.scope.maxDepth ≤ m) (h : (s.follow (r.hooks E) (c.withLimit m)).alone = .ok cs') :
    ∃ cs, (s.follow (r.hooks E) c).alone = .ok cs ∧ Truncated m cs cs' := by
  cases s with
  | root =>
    cases h
    exact ⟨_, rfl, .refl hc [c.scope.root]⟩
  | property name =>
    cases h
    exact ⟨_, rfl, .refl hc _⟩
  | index i =>
    rw [follow_index] at h ⊢
    cases h
    exact ⟨_, rfl, .refl hc _⟩
  | slice s =>
    rw [follow_slice] at h ⊢
    cases h
    exact ⟨_, rfl, .refl hc _⟩
  | descendants sought =>
    cases h
    refine ⟨_, rfl, descend_truncated sought hc c.value, fun c' hc' => ?_⟩
    obtain ⟨below, -, hbelow⟩ := descend_below sought c.scope c.value c' hc'
    exact hbelow.maxDepth.trans_le hc
  | wildcard =>
    rw [follow] at h ⊢
    cases hinner : c.scope.child? with
    | none => exact ⟨[], rfl, .nil m cs'⟩
    | some inner =>
      rw [show (c.withLimit m).scope.child? = _ from Scope.child_withLimit hinner hc] at h
      cases h
      exact ⟨_, rfl, .refl ((Scope.maxDepth_child hinner).trans_le hc) _⟩
  | filter f =>
    rw [follow_filter] at h ⊢
    cases hinner : c.scope.child? with
    | none => exact ⟨[], rfl, .nil m cs'⟩
    | some inner =>
      rw [show (c.withLimit m).scope.child? = _ from Scope.child_withLimit hinner hc] at h
      dsimp only at h ⊢
      rw [(steady_kept r f _).alone_map] at h ⊢
      cases hkept : (kept (r.hooks E) f c.value.items).alone with
      | error e =>
        rw [show (c.withLimit m).value = c.value from rfl, hkept] at h
        cases h
      | ok ds =>
        rw [show (c.withLimit m).value = c.value from rfl, hkept] at h
        cases h
        exact ⟨_, rfl, .refl ((Scope.maxDepth_child hinner).trans_le hc) ds⟩

theorem alone_followAll_cons (s : Step) (r : Registry) (c : Cursor) (cs : List Cursor) :
    (s.followAll (r.hooks E) (c :: cs)).alone = (do
      let here ← (s.follow (r.hooks E) c).alone
      let there ← (s.followAll (r.hooks E) cs).alone
      pure (here ++ there)) := by
  rw [followAll, (s.steady_follow r c).alone_bind fun _ =>
    (s.steady_followAll r cs).bind fun _ => steady_pure _]
  congr 1
  funext here
  rw [(s.steady_followAll r cs).alone_bind fun _ => steady_pure _]
  rfl

theorem followAll_truncated {s : Step} {r : Registry} {cs cs' out' : List Cursor}
    (hcs : Truncated m cs cs') (h : (s.followAll (r.hooks E) cs').alone = .ok out') :
    ∃ out, (s.followAll (r.hooks E) cs).alone = .ok out ∧ Truncated m out out' := by
  induction cs' generalizing cs out' with
  | nil =>
    have hnil : cs = [] := List.map_eq_nil_iff.mp (List.sublist_nil.mp hcs.sublist)
    rw [hnil]
    exact ⟨[], rfl, .nil m out'⟩
  | cons c' cs' ih =>
    rw [alone_followAll_cons] at h
    cases hhere : (s.follow (r.hooks E) c').alone with
    | error e =>
      rw [hhere] at h
      cases h
    | ok here' =>
      cases hthere : (s.followAll (r.hooks E) cs').alone with
      | error e =>
        rw [hhere, hthere] at h
        cases h
      | ok there' =>
        rw [hhere, hthere] at h
        cases h
        rcases List.sublist_cons_iff.mp hcs.sublist with hskip | ⟨rest, hcons, hrest⟩
        · obtain ⟨out, hout, htrunc⟩ := ih ⟨hskip, hcs.limit⟩ hthere
          exact ⟨out, hout, (Truncated.nil m here').append htrunc⟩
        · obtain ⟨c, cs, rfl, rfl, rfl⟩ := List.map_eq_cons_iff.mp hcons
          obtain ⟨hc, hmore⟩ := List.forall_mem_cons.mp hcs.limit
          obtain ⟨here, hfollow, htrunc⟩ := follow_truncated hc hhere
          obtain ⟨there, hall, htrunc'⟩ := ih ⟨hrest, hmore⟩ hthere
          refine ⟨here ++ there, ?_, htrunc.append htrunc'⟩
          rw [alone_followAll_cons, hfollow, hall]
          rfl

end Step

/-- **Under a smaller limit a row of steps leads to fewer values, and to no others.** -/
theorem followSteps_truncated {steps : List Step} {r : Registry} {cs cs' out' : List Cursor}
    (hcs : Truncated m cs cs') (h : (followSteps (r.hooks E) steps cs').alone = .ok out') :
    ∃ out, (followSteps (r.hooks E) steps cs).alone = .ok out ∧ Truncated m out out' := by
  induction steps generalizing cs cs' with
  | nil =>
    cases h
    exact ⟨cs, rfl, hcs⟩
  | cons s steps ih =>
    rw [followSteps, (s.steady_followAll r _).alone_bind fun _ => steady_followSteps r steps _]
      at h ⊢
    cases hnext : (s.followAll (r.hooks E) cs').alone with
    | error e =>
      rw [hnext] at h
      cases h
    | ok next' =>
      rw [hnext] at h
      obtain ⟨next, hall, htrunc⟩ := Step.followAll_truncated hcs hnext
      obtain ⟨out, hout, hrest⟩ := ih htrunc h
      refine ⟨out, ?_, hrest⟩
      rw [hall]
      exact hout

end

/-! ## a limit that is high enough -/

section
variable {m : ℕ} {ω : Type}

mutual
theorem descend_withLimit (sought : Option String) {s : Scope} (hm : s.maxDepth ≤ m)
    {d : Document} (hd : s.depth + d.height ≤ s.maxDepth) :
    descend sought (s.withLimit m) d = (descend sought s d).map (Cursor.withLimit m) := by
  cases d with
  | list items =>
    have hroom : s.depth + Document.itemLevels items ≤ s.maxDepth := hd
    rw [descend, descend]
    cases hinner : s.child? with
    | none =>
      have hnone := Scope.child_eq_none.mp hinner
      obtain rfl : items = [] := Document.itemLevels_eq_zero.mp (by omega)
      cases (s.withLimit m).child? <;> rfl
    | some inner =>
      rw [Scope.child_withLimit hinner hm]
      have hmax := Scope.maxDepth_child hinner
      have hdepth := Scope.depth_child hinner
      exact descendItems_withLimit sought (hmax.trans_le hm) (by omega)
  | map entries =>
    have hroom : s.depth + Document.entryLevels entries ≤ s.maxDepth := hd
    rw [descend, descend]
    cases hinner : s.child? with
    | none =>
      have hnone := Scope.child_eq_none.mp hinner
      obtain rfl : entries = [] := Document.entryLevels_eq_zero.mp (by omega)
      cases (s.withLimit m).child? <;> rfl
    | some inner =>
      rw [Scope.child_withLimit hinner hm]
      have hmax := Scope.maxDepth_child hinner
      have hdepth := Scope.depth_child hinner
      exact descendEntries_withLimit sought (hmax.trans_le hm) (by omega)
  | _ => simp [descend]

theorem descendItems_withLimit (sought : Option String) {s : Scope} (hm : s.maxDepth ≤ m)
    {items : List Document} (h : s.depth + Document.itemLevels items ≤ s.maxDepth + 1) :
    descendItems sought (s.withLimit m) items
      = (descendItems sought s items).map (Cursor.withLimit m) := by
  cases items with
  | nil => rfl
  | cons d rest =>
    rw [Document.itemLevels] at h
    rw [descendItems, descendItems, List.map_append, List.map_append,
      descend_withLimit sought hm (by omega), descendItems_withLimit sought hm (by omega)]
    split <;> rfl

theorem descendEntries_withLimit (sought : Option String) {s : Scope} (hm : s.maxDepth ≤ m)
    {entries : List (String × Document)}
    (h : s.depth + Document.entryLevels entries ≤ s.maxDepth + 1) :
    descendEntries sought (s.withLimit m) entries
      = (descendEntries sought s entries).map (Cursor.withLimit m) := by
  cases entries with
  | nil => rfl
  | cons e rest =>
    obtain ⟨key, d⟩ := e
    rw [Document.entryLevels] at h
    rw [descendEntries, descendEntries, List.map_append, List.map_append,
      descend_withLimit sought hm (by omega), descendEntries_withLimit sought hm (by omega)]
    split <;> rfl
end

namespace Step

/-- where there is room below a value, a higher limit makes no difference -/
theorem follow_withLimit {c : Cursor} (hm : c.scope.maxDepth ≤ m)
    (hroom : c.scope.depth + c.value.height ≤ c.scope.maxDepth) (s : Step) (H : Hooks ω) :
    s.follow H (c.withLimit m) = List.map (Cursor.withLimit m) <$> s.follow H c := by
  have hchild (hnone : c.scope.child? = none) : c.value.height = 0 := by
    have := Scope.child_eq_none.mp hnone
    omega
  cases s with
  | root => rfl
  | property name =>
    rw [follow, follow, map_pure, map_withLimit]
    rfl
  | index i =>
    rw [follow_index, follow_index, map_pure, map_withLimit]
    rfl
  | slice s =>
    rw [follow_slice, follow_slice, map_pure, map_withLimit]
    rfl
  | descendants sought =>
    rw [follow, follow, map_pure, ← descend_withLimit sought hm hroom]
    rfl
  | wildcard =>
    rw [follow, follow]
    cases hinner : c.scope.child? with
    | none =>
      rw [show (c.withLimit m).value = c.value from rfl, Document.children_eq_nil (hchild hinner)]
      cases (c.withLimit m).scope.child? <;> rfl
    | some inner =>
      rw [show (c.withLimit m).scope.child? = _ from Scope.child_withLimit hinner hm]
      dsimp only
      rw [map_pure, map_withLimit]
      rfl
  | filter f =>
    rw [follow_filter, follow_filter]
    cases hinner : c.scope.child? with
    | none =>
      rw [show (c.withLimit m).value = c.value from rfl, Document.items_eq_nil (hchild hinner)]
      cases (c.withLimit m).scope.child? <;> rfl
    | some inner =>
      rw [show (c.withLimit m).scope.child? = _ from Scope.child_withLimit hinner hm]
      dsimp only
      rw [Functor.map_map]
      congr 1
      funext ds
      exact (map_withLimit m ds inner).symm

theorem followAll_withLimit {cs : List Cursor}
    (h : ∀ c ∈ cs, c.scope.maxDepth ≤ m ∧ c.scope.depth + c.value.height ≤ c.scope.maxDepth)
    (s : Step) (H : Hooks ω) :
    s.followAll H (cs.map (Cursor.withLimit m))
      = List.map (Cursor.withLimit m) <$> s.followAll H cs := by
  induction cs with
  | nil => rfl
  | cons c cs ih =>
    obtain ⟨hm, hroom⟩ := h c List.mem_cons_self
    rw [List.map_cons, followAll, followAll, follow_withLimit hm hroom,
      ih fun c' hc' => h c' (List.mem_cons_of_mem c hc')]
    simp only [map_bind, bind_map_left, map_pure, List.map_append]

end Step

/-- a cursor that has been reached has room below it, if no step led back to the document -/
theorem Reached.room {d : Document} {n : ℕ} {done : List Step} {q : List Place} {c : Cursor}
    (hc : Reached d n done q c) (hn : d.height ≤ n) (hroot : ∀ s ∈ done.tail, s ≠ .root) :
    c.scope.depth + c.value.height ≤ c.scope.maxDepth := by
  have hcharged := hc.charged hroot
  have hheight := hc.stands.height_le
  rw [hc.maxDepth]
  omega

/-- **A limit that is not below the height of the document may be raised.** -/
theorem followSteps_withLimit {d : Document} {n : ℕ} (hn : d.height ≤ n) (hm : n ≤ m)
    {done steps : List Step} (hroot : ∀ s ∈ (done ++ steps).tail, s ≠ .root) {cs : List Cursor}
    (hcs : AllReached d n done cs) (H : Hooks ω) :
    followSteps H steps (cs.map (Cursor.withLimit m))
      = List.map (Cursor.withLimit m) <$> followSteps H steps cs := by
  induction steps generalizing done cs with
  | nil => rfl
  | cons s steps ih =>
    have hdone : ∀ s' ∈ done.tail, s' ≠ .root := by
      intro s' hs'
      cases done with
      | nil => cases hs'
      | cons first done => exact hroot s' (List.mem_append_left _ hs')
    rw [followSteps, followSteps, Step.followAll_withLimit ?_ s H]
    · rw [map_bind, bind_map_left]
      refine Stateful.bind_congr fun σ next τ hnext => ?_
      refine ih ?_ (hcs.followAll hnext)
      rwa [List.append_assoc]
    · intro c hc
      obtain ⟨q, hq⟩ := hcs c hc
      exact ⟨hq.maxDepth.trans_le hm, hq.room hn hdone⟩

end

/-! ## evaluation -/

theorem toList_ofList_sublist {isList : Bool} {vs vs' : List Document} (h : vs.Sublist vs')
    (hsingle : isList = false → vs'.length ≤ 1) :
    (Output.ofList isList vs).toList.Sublist (Output.ofList isList vs').toList := by
  cases isList with
  | true => exact h
  | false =>
    have hle := hsingle rfl
    cases vs with
    | nil => exact List.nil_sublist _
    | cons v vs =>
      have hlen := h.length_le
      rw [List.length_cons] at hlen
      obtain rfl : vs = [] := List.length_eq_zero_iff.mp (by omega)
      obtain ⟨w, rfl⟩ := List.length_eq_one_iff.mp (by omega : vs'.length = 1)
      exact h

namespace Path

theorem alone_evaluate_eq_ok {p : Path} {r : Registry} {d : Document} {o : EvaluateOptions}
    {out : Output} : (p.evaluate (r.hooks E) d o).alone = .ok out ↔ p.allow o = .ok () ∧
      ∃ cs, (p.follow (r.hooks E) d o.maxDepth).alone = .ok cs ∧
        out = .ofList (!p.profile.isDeterministic) (cs.map Cursor.value) := by
  have hfollow : Steady (p.follow (r.hooks E) d o.maxDepth) := steady_followSteps r p.steps _
  rw [evaluate, (steady_ofExcept _).alone_bind fun _ => hfollow.bind fun _ => steady_pure _,
    alone_ofExcept]
  cases p.allow o with
  | error e => exact ⟨nofun, fun h => nomatch h.1⟩
  | ok _ =>
    show (p.follow (r.hooks E) d o.maxDepth >>= _).alone = _ ↔ _
    rw [hfollow.alone_bind fun _ => steady_pure _]
    cases (p.follow (r.hooks E) d o.maxDepth).alone with
    | error e => exact ⟨nofun, fun ⟨_, _, h, _⟩ => nomatch h⟩
    | ok cs =>
      constructor
      · intro h
        cases h
        exact ⟨rfl, cs, rfl, rfl⟩
      · rintro ⟨-, cs', h, rfl⟩
        cases h
        rfl

/-- **Under a smaller limit an evaluation ends well too, with fewer values.** -/
theorem evaluate_truncated {p : Path} {r : Registry} {d : Document} {o : EvaluateOptions}
    {m m' : ℕ} (h : m ≤ m') {out' : Output}
    (hout : (p.evaluate (r.hooks E) d { o with maxDepth := m' }).alone = .ok out') :
    ∃ out, (p.evaluate (r.hooks E) d { o with maxDepth := m }).alone = .ok out ∧
      out.toList.Sublist out'.toList := by
  obtain ⟨hallow, cs', hfollow, rfl⟩ := alone_evaluate_eq_ok.mp hout
  have hstart : Truncated m' [⟨d, .ofDocument d m⟩] [⟨d, .ofDocument d m'⟩] := .refl h [d]
  obtain ⟨cs, hcs, htrunc⟩ := followSteps_truncated hstart hfollow
  refine ⟨_, alone_evaluate_eq_ok.mpr ⟨hallow, cs, hcs, rfl⟩, ?_⟩
  rw [← map_value_withLimit m' cs]
  refine toList_ofList_sublist (htrunc.sublist.map Cursor.value) fun hsingle => ?_
  obtain ⟨τ, hrun⟩ := alone_eq_ok.mp hfollow
  exact length_follow hrun hsingle

/-- **A limit that is not below the height of the document makes no difference.** -/
theorem evaluate_withLimit {p : Path} (hroot : ∀ s ∈ p.steps.tail, s ≠ .root) {ω : Type}
    (H : Hooks ω) {d : Document} (o : EvaluateOptions) {m m' : ℕ} (hd : d.height ≤ m)
    (h : m ≤ m') :
    p.evaluate H d { o with maxDepth := m } = p.evaluate H d { o with maxDepth := m' } := by
  have hfollow : p.follow H d m' = List.map (Cursor.withLimit m') <$> p.follow H d m := by
    have hroot' : ∀ s ∈ ([] ++ p.steps).tail, s ≠ .root := hroot
    exact followSteps_withLimit hd h hroot' (allReached_start d m) H
  have hallow : p.allow { o with maxDepth := m } = p.allow { o with maxDepth := m' } := rfl
  rw [evaluate, evaluate, hallow, hfollow]
  simp only [bind_map_left, map_value_withLimit]

/-- **The depth limit only cuts off.** Where an evaluation ends well, it also does under a
smaller limit, and the values are some of the same, in their order. Above the height of the document
the limit makes no difference at all. No cursor is charged for more levels than the limit has, nor
for more than it stands deep. -/
theorem maxDepth_cuts_off (p : Path) (hroot : ∀ s ∈ p.steps.tail, s ≠ .root) (r : Registry)
    (d : Document) (o : EvaluateOptions) {m m' : ℕ} (h : m ≤ m') :
    (∀ (σ' τ' : Session E) (out' : Output), σ'.Sound →
      p.evaluate (r.hooks E) d { o with maxDepth := m' } σ' = .ok out' τ' →
        ∀ σ : Session E, σ.Sound → ∃ out τ,
          p.evaluate (r.hooks E) d { o with maxDepth := m } σ = .ok out τ ∧
            out.toList.Sublist out'.toList) ∧
    (d.height ≤ m → ∀ σ, p.evaluate (r.hooks E) d { o with maxDepth := m } σ
      = p.evaluate (r.hooks E) d { o with maxDepth := m' } σ) ∧
    ∀ (n : ℕ) (done : List Step) (c : Cursor), done <+: p.steps → Met (r.hooks E) d n done c →
      c.scope.depth ≤ n ∧ ∃ q, Leads done q ∧ d.Stands q c.value ∧ c.scope.depth ≤ q.length := by
  refine ⟨fun σ' τ' out' hσ' hout' σ hσ => ?_, fun hd σ => ?_, fun n done c hdone hmet => ?_⟩
  · obtain ⟨υ', -, hrun'⟩ := (p.steady_evaluate r d _).run hσ'
    have halone : (p.evaluate (r.hooks E) d { o with maxDepth := m' }).alone = .ok out' :=
      eq_ok_of_ending (hrun'.symm.trans hout')
    obtain ⟨out, hout, hsub⟩ := evaluate_truncated h halone
    obtain ⟨υ, -, hrun⟩ := (p.steady_evaluate r d { o with maxDepth := m }).run hσ
    exact ⟨out, υ, by rw [hrun, hout]; rfl, hsub⟩
  · exact congrFun (evaluate_withLimit hroot (r.hooks E) o hd h) σ
  · obtain ⟨q, hq⟩ := hmet.reached
    obtain ⟨rest, hrest⟩ := hdone
    refine ⟨hq.depth_le, q, hq.leads, hq.stands, hq.charged fun s hs => hroot s ?_⟩
    rw [← hrest]
    cases done with
    | nil => cases hs
    | cons first done => exact List.mem_append_left rest hs

/-- a list in a list, under limits of one level and of two -/
theorem maxDepth_cuts_off_nested :
    let H := Registry.empty.hooks Pattern.engine
    let p := Path.ofSteps [.root, .descendants none]
    let d := Document.list [.list [.integer 1], .integer 2]
    (∀ s ∈ p.steps.tail, s ≠ .root) ∧ 1 ≤ 2 ∧
      p.evaluate H d { maxDepth := 2 } .fresh
        = .ok (.many [.list [.integer 1], .integer 1, .integer 2]) .fresh ∧
      ∃ out τ, p.evaluate H d { maxDepth := 1 } .fresh = .ok out τ ∧
        out.toList.Sublist [.list [.integer 1], .integer 1, .integer 2] := by
  intro H p d
  have hroot : ∀ s ∈ p.steps.tail, s ≠ .root := by
    intro s hs
    rw [List.mem_singleton.mp hs]
    exact nofun
  have hrun : p.evaluate H d { maxDepth := 2 } .fresh
      = .ok (.many [.list [.integer 1], .integer 1, .integer 2]) .fresh := rfl
  have hcut := @maxDepth_cuts_off Pattern.engine _ p hroot .empty d {} 1 2 (by decide)
  exact ⟨hroot, by decide, hrun,
    hcut.1 .fresh .fresh _ Session.sound_fresh hrun .fresh Session.sound_fresh⟩

end Path
end PathQuery
