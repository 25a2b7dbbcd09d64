import PathQuery.Proofs.Cache.Strict

/-!
# Runs of a cache

Whatever is asked of a cache, one thing after the other, it answers as the list of keys and values
does that is asked the same.

* `CacheOp`, `CacheAnswer`   what can be asked, and what is answered;
* `ResultCache.step`, `ResultCache.Strict.step`, `Recent.step`   one thing asked;
* `answers`, `answersIf`     a run;
* `Holds.answers`            a run of a cache that holds a list.
-/

namespace PathQuery

variable {V : Type}

inductive CacheOp (V : Type) where
  | get (key : CacheKey)
  | set (key : CacheKey) (value : V)
  | contains (key : CacheKey)
  | clear

inductive CacheAnswer (V : Type) where
  | found (value : Option V)
  | held (yes : Bool)
  | done

/-- what is answered one after the other, and the state in the end -/
def answers {S I O : Type} (step : S → I → O × S) : S → List I → List O × S
  | s, [] => ([], s)
  | s, i :: is =>
    let (o, s) := step s i
    let (os, s) := answers step s is
    (o :: os, s)

def answersIf {S I O : Type} (step : S → I → Option (O × S)) : S → List I → Option (List O × S)
  | s, [] => some ([], s)
  | s, i :: is => do
    let (o, s) ← step s i
    let (os, s) ← answersIf step s is
    some (o :: os, s)

def Recent.step (capacity : Nat) (l : Recent V) : CacheOp V → CacheAnswer V × Recent V
  | .get key => let (v, l) := Recent.get l key; (.found v, l)
  | .set key value => (.done, Recent.set capacity l key value)
  | .contains key => (.held (Recent.contains l key), l)
  | .clear => (.done, [])

namespace ResultCache

def step (c : ResultCache V) : CacheOp V → CacheAnswer V × ResultCache V
  | .get key => let (v, c) := c.get key; (.found v, c)
  | .set key value => (.done, c.set key value)
  | .contains key => (.held (c.contains key), c)
  | .clear => (.done, c.clear)

def Strict.step (c : ResultCache V) : CacheOp V → Option (CacheAnswer V × ResultCache V)
  | .get key => do let (v, c) ← Strict.get c key; some (.found v, c)
  | .set key value => do let c ← Strict.set c key value; some (.done, c)
  | .contains key => some (.held (c.contains key), c)
  | .clear => some (.done, c.clear)

theorem capacity_step (c : ResultCache V) (op : CacheOp V) :
    (c.step op).2.capacity = c.capacity := by
  cases op with
  | get key => exact capacity_get c key
  | set key value => exact capacity_set c key value
  | contains key => rfl
  | clear => rfl

theorem Strict.step_eq {c : ResultCache V} {is : List Nat} {l : Recent V} (h : c.Holds is l)
    (op : CacheOp V) : Strict.step c op = some (c.step op) := by
  cases op with
  | get key =>
    show (Strict.get c key).bind _ = _
    rw [Strict.get_eq h]
    rfl
  | set key value =>
    show (Strict.set c key value).bind _ = _
    rw [Strict.set_eq h]
    rfl
  | contains key => rfl
  | clear => rfl

/-- one thing asked of a cache that holds a list -/
theorem Holds.step {c : ResultCache V} {is : List Nat} {l : Recent V} (h : c.Holds is l)
    (op : CacheOp V) :
    (c.step op).1 = (Recent.step c.capacity l op).1 ∧
      ∃ is', (c.step op).2.Holds is' (Recent.step c.capacity l op).2 := by
  cases op with
  | get key =>
    obtain ⟨hv, his⟩ := h.get key
    exact ⟨congrArg CacheAnswer.found hv, his⟩
  | set key value => exact ⟨rfl, h.set key value⟩
  | contains key => exact ⟨congrArg CacheAnswer.held (h.contains key), is, h⟩
  | clear => exact ⟨rfl, [], Holds.new c.capacity⟩

theorem Holds.answers {c : ResultCache V} {is : List Nat} {l : Recent V} (h : c.Holds is l)
    (ops : List (CacheOp V)) :
    answersIf Strict.step c ops = some (PathQuery.answers ResultCache.step c ops) ∧
      (PathQuery.answers ResultCache.step c ops).1 =
        (PathQuery.answers (Recent.step c.capacity) l ops).1 ∧
      (PathQuery.answers ResultCache.step c ops).2.capacity = c.capacity ∧
      ∃ is', (PathQuery.answers ResultCache.step c ops).2.Holds is'
        (PathQuery.answers (Recent.step c.capacity) l ops).2 := by
  induction ops generalizing c is l with
  | nil => exact ⟨rfl, rfl, rfl, is, h⟩
  | cons op ops ih =>
    obtain ⟨ha, is₁, h₁⟩ := h.step op
    obtain ⟨hs, hos, hc, his⟩ := ih h₁
    rw [capacity_step] at hos hc his
    refine ⟨?_, congrArg₂ List.cons ha hos, hc, his⟩
    show (Strict.step c op).bind _ = _
    rw [Strict.step_eq h]
    show (answersIf Strict.step (c.step op).2 ops).bind _ = _
    rw [hs]
    rfl

/-- **The result cache is a list of keys and values, the newest first.** Asked the same things
one after the other, both give the same answers; no slot is asked for that does not exist; and in
the end the walk along the order takes no more steps than there are slots, and meets just the pairs
of the list, each key once. -/
theorem refines_recent (capacity : Nat) (ops : List (CacheOp V)) :
    let run := answers ResultCache.step (new capacity) ops
    let list := answers (Recent.step capacity) [] ops
    run.1 = list.1 ∧
      answersIf Strict.step (new capacity) ops = some run ∧
      (∀ tries, run.2.slots.size ≤ tries →
        ∃ w, Strict.walk run.2 tries run.2.newest = some w ∧
          w.map (fun s => (s.key, s.value)) = list.2) ∧
      run.2.keys = list.2.map Prod.fst ∧
      run.2.keys.Nodup ∧
      run.2.size = list.2.length ∧
      run.2.size ≤ capacity := by
  intro run list
  obtain ⟨hs, ha, hc, is, h⟩ := (Holds.new (V := V) capacity).answers ops
  refine ⟨ha, hs, fun tries ht => ?_, h.keys, ?_, h.size, ?_⟩
  · have hlen : is.length ≤ tries := Nat.le_trans h.order.length_le ht
    have hw := Strict.walk_eq h.order.chain hlen
    rw [← h.order.newest] at hw
    exact ⟨_, hw, h.slotsFrom ht⟩
  · rw [h.keys]
    exact h.keys_nodup
  · have hroom := h.room
    rw [h.size_eq, hc] at hroom
    rw [ResultCache.size, h.size]
    exact hroom

end ResultCache
end PathQuery
