import PathQuery.Proofs.Cache.Runs

/-!
# Caches of different capacities

Of two caches that are asked the same things, the larger one has forgotten nothing that the smaller
one still knows. It may know more, and by looking up what only it knows it may put that in front;
so the smaller list is not the front of the larger one, but a part of it in the same order.

* `Recent.Covers`              a list holds what a bounded one holds, in the same order;
* `Covers.get`, `Covers.set`   it still does after both have been asked the same;
* `larger_remembers`           the same of two caches, for whole runs.
-/

namespace PathQuery

variable {V : Type}

namespace Recent

variable {capacity larger : ℕ} {l m : Recent V} {key : CacheKey} {v w : V}

/-- `m` has the pairs of `l` in their order. As long as `l` has room, nothing has been forgotten
in either, and `m` has no others. -/
structure Covers (capacity : ℕ) (l m : Recent V) : Prop where
  sublist : l.Sublist m
  room : l.length ≤ capacity
  same : l.length < capacity → l = m

theorem lookup_of_sublist (h : l.Sublist m) (hm : (m.map Prod.fst).Nodup)
    (hl : l.lookup key = some v) : m.lookup key = some v := by
  obtain ⟨before, after, rfl, -⟩ := List.lookup_eq_some_iff.mp hl
  obtain ⟨xs, ys, rfl⟩ := List.append_of_mem (h.subset List.mem_append_cons_self)
  rw [List.map_append, List.map_cons] at hm
  have hxs : key ∉ xs.map Prod.fst := fun hk =>
    (List.nodup_cons.mp (List.nodup_middle.mp hm)).1 (List.mem_append_left _ hk)
  exact lookup_split hxs v

theorem length_without (hl : (l.map Prod.fst).Nodup) (h : l.lookup key = some v) :
    (l.without key).length + 1 = l.length := by
  obtain ⟨before, after, rfl, -⟩ := List.lookup_eq_some_iff.mp h
  rw [without_split hl, List.length_append, List.length_append, List.length_cons]
  omega

theorem dropLast_sublist_dropLast (h : l.Sublist m) : l.dropLast.Sublist m.dropLast := by
  have htail := h.reverse.tail
  rwa [List.tail_reverse, List.tail_reverse, List.reverse_sublist] at htail

/-! ## one thing asked of both -/

/-- only the larger list has the key, so the other one is full -/
theorem Covers.full_of_lookup (h : Covers capacity l m) (hl : l.lookup key = none)
    (hm : m.lookup key = some v) : l.length = capacity := by
  refine Nat.le_antisymm h.room (Nat.not_lt.mp fun hlt => ?_)
  rw [h.same hlt, hm] at hl
  cases hl

theorem Covers.move (h : Covers capacity l m) (hm : (m.map Prod.fst).Nodup)
    (hl : l.lookup key = some v) (w : V) :
    Covers capacity ((key, w) :: l.without key) ((key, w) :: m.without key) := by
  have hlen := length_without (hm.sublist (h.sublist.map Prod.fst)) hl
  refine ⟨(h.sublist.filter _).cons_cons _, ?_, fun hlt => ?_⟩
  · rw [List.length_cons, hlen]
    exact h.room
  · rw [List.length_cons, hlen] at hlt
    rw [h.same hlt]

/-- where the larger list has a key of its own does not matter to the smaller one -/
theorem Covers.sublist_without (h : Covers capacity l m) (hl : l.lookup key = none) :
    l.Sublist (m.without key) := by
  have hsub : (l.without key).Sublist (m.without key) := h.sublist.filter _
  rwa [without_of_not_mem ((lookup_eq_none l key).mp hl)] at hsub

theorem Covers.evict (hfull : l.length = capacity) (hcapacity : capacity ≠ 0)
    (h : l.dropLast.Sublist m) (e : CacheKey × V) : Covers capacity (e :: l.dropLast) (e :: m) := by
  have hlen : (e :: l.dropLast).length = capacity := by
    rw [List.length_cons, List.length_dropLast]
    omega
  exact ⟨h.cons_cons e, Nat.le_of_eq hlen, fun hlt => absurd hlen (Nat.ne_of_lt hlt)⟩

theorem Covers.get (h : Covers capacity l m) (hm : (m.map Prod.fst).Nodup) (key : CacheKey) :
    (∀ v, (get l key).1 = some v → (get m key).1 = some v) ∧
      Covers capacity (get l key).2 (get m key).2 := by
  rw [Recent.get, Recent.get]
  cases hl : l.lookup key with
  | some v =>
    rw [lookup_of_sublist h.sublist hm hl]
    exact ⟨fun _ hv => hv, h.move hm hl v⟩
  | none =>
    refine ⟨fun v hv => by (cases hv), ?_⟩
    cases hk : m.lookup key with
    | none => exact h
    | some v =>
      have hfull := h.full_of_lookup hl hk
      exact ⟨(h.sublist_without hl).cons _, h.room, fun hlt => absurd hfull (Nat.ne_of_lt hlt)⟩

theorem Covers.set (h : Covers capacity l m) (hm : (m.map Prod.fst).Nodup)
    (hle : capacity ≤ larger) (key : CacheKey) (v : V) :
    Covers capacity (set capacity l key v) (set larger m key v) := by
  by_cases hzero : capacity = 0
  · -- nothing is stored, and the empty list is part of every list
    subst hzero
    obtain rfl : l = [] := List.length_eq_zero_iff.mp (Nat.le_zero.mp h.room)
    exact ⟨List.nil_sublist _, Nat.le_refl 0, nofun⟩
  have hlarger : larger ≠ 0 := by omega
  cases hl : l.lookup key with
  | some w =>
    rw [set_of_lookup hzero hl, set_of_lookup hlarger (lookup_of_sublist h.sublist hm hl)]
    exact h.move hm hl v
  | none =>
    rw [set_of_lookup_none hzero hl]
    cases hk : m.lookup key with
    | some w =>
      have hfull := h.full_of_lookup hl hk
      rw [set_of_lookup hlarger hk, if_pos hfull]
      exact Covers.evict hfull hzero ((List.dropLast_sublist l).trans (h.sublist_without hl)) _
    | none =>
      rw [set_of_lookup_none hlarger hk]
      by_cases hfull : l.length = capacity
      · rw [if_pos hfull]
        refine Covers.evict hfull hzero ?_ _
        -- the pair that the larger list puts out is no other, or it is one that only that list has
        split
        · exact dropLast_sublist_dropLast h.sublist
        · exact (List.dropLast_sublist l).trans h.sublist
      · -- neither list has ever been full
        have hlt := Nat.lt_of_le_of_ne h.room hfull
        rw [← h.same hlt, if_neg hfull, if_neg (by omega)]
        exact ⟨List.Sublist.refl _, hlt, fun _ => rfl⟩

end Recent

namespace ResultCache

/-! ## runs -/

/-- what the one list finds, the other finds, too -/
theorem covers_step {l m : Recent V} {small large : ℕ} (h : Recent.Covers small l m)
    (hm : (m.map Prod.fst).Nodup) (hle : small ≤ large) (op : CacheOp V) :
    (∀ v : V, (Recent.step small l op).1 = CacheAnswer.found (some v) →
        (Recent.step large m op).1 = CacheAnswer.found (some v)) ∧
      Recent.Covers small (Recent.step small l op).2 (Recent.step large m op).2 := by
  cases op with
  | get key =>
    obtain ⟨hfound, hcovers⟩ := h.get hm key
    exact ⟨fun v hv => congrArg _ (hfound v (CacheAnswer.found.inj hv)), hcovers⟩
  | set key value => exact ⟨nofun, h.set hm hle key value⟩
  | contains key => exact ⟨nofun, h⟩
  | clear => exact ⟨nofun, List.Sublist.refl [], Nat.zero_le small, fun _ => rfl⟩

theorem covers_answers {small large : ℕ} (hle : small ≤ large) {c d : ResultCache V}
    {is js : List Nat} {l m : Recent V} (hc : c.Holds is l) (hd : d.Holds js m)
    (hsmall : c.capacity = small) (hlarge : d.capacity = large) (h : Recent.Covers small l m)
    (ops : List (CacheOp V)) :
    (∀ (i : ℕ) (v : V), (answers step c ops).1[i]? = some (CacheAnswer.found (some v)) →
        (answers step d ops).1[i]? = some (CacheAnswer.found (some v))) ∧
      (answers step c ops).2.recent.Sublist (answers step d ops).2.recent := by
  induction ops generalizing c d is js l m with
  | nil =>
    refine ⟨fun i v hv => hv, ?_⟩
    show c.recent.Sublist d.recent
    rw [hc.recent, hd.recent]
    exact h.sublist
  | cons op ops ih =>
    obtain ⟨ha, is₁, hc₁⟩ := hc.step op
    obtain ⟨hb, js₁, hd₁⟩ := hd.step op
    obtain ⟨hfound, hcovers⟩ := covers_step h hd.keys_nodup hle op
    rw [hsmall] at ha hc₁
    rw [hlarge] at hb hd₁
    obtain ⟨hmore, hrecent⟩ := ih hc₁ hd₁ ((capacity_step c op).trans hsmall)
      ((capacity_step d op).trans hlarge) hcovers
    refine ⟨fun i v hv => ?_, hrecent⟩
    cases i with
    | zero =>
      have hv : (c.step op).1 = CacheAnswer.found (some v) := Option.some.inj hv
      exact congrArg some (hb.trans (hfound v (ha.symm.trans hv)))
    | succ i => exact hmore i v hv

/-- **A larger cache never forgets more.** Of two new caches that are asked the same things, one
after the other, the larger one holds in the end what the smaller one holds, with the same values
and in the same order of recency; and whatever the smaller one has found on the way, the larger one
has found too. As a run may end anywhere, that is so after each step. -/
theorem larger_remembers {small large : ℕ} (h : small ≤ large) (ops : List (CacheOp V)) :
    let run := answers ResultCache.step (new small) ops
    let run' := answers ResultCache.step (new large) ops
    run.2.keys.Sublist run'.2.keys ∧ run.2.recent.Sublist run'.2.recent ∧
      ∀ (i : ℕ) (v : V), run.1[i]? = some (.found (some v)) → run'.1[i]? = some (.found (some v)) := by
  intro run run'
  have hcovers : Recent.Covers small ([] : Recent V) [] :=
    ⟨List.Sublist.refl [], Nat.zero_le small, fun _ => rfl⟩
  obtain ⟨hfound, hrecent⟩ :=
    covers_answers h (Holds.new small) (Holds.new large) rfl rfl hcovers ops
  have hkeys := hrecent.map Prod.fst
  rw [recent, List.map_map, recent, List.map_map] at hkeys
  exact ⟨hkeys, hrecent, hfound⟩

/-- a key that only the larger cache still knows is looked up, and goes in front of the others -/
theorem larger_remembers_reordered :
    let key (path : String) : CacheKey := ⟨⟨1⟩, path⟩
    let ops : List (CacheOp ℕ) :=
      [.set (key "$.a") 1, .set (key "$.b") 2, .set (key "$.c") 3, .get (key "$.a"),
        .set (key "$.d") 4, .get (key "$.c")]
    let run := answers ResultCache.step (new 2) ops
    let run' := answers ResultCache.step (new 3) ops
    2 ≤ 3 ∧ run.2.keys.Sublist run'.2.keys ∧ run.2.recent.Sublist run'.2.recent ∧
      ∀ (i v : ℕ), run.1[i]? = some (.found (some v)) → run'.1[i]? = some (.found (some v)) := by
  intro key ops run run'
  have h : 2 ≤ 3 := by decide
  exact ⟨h, larger_remembers h ops⟩

end ResultCache
end PathQuery
