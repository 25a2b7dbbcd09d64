import PathQuery.Proofs.Cache.Recent

/-!
# Every slot that is asked for is there

The operations of a cache pass over a slot that does not exist. The ones here do the same work,
but give up at such a slot. A cache that holds a list never gets there.

* `Strict.get`, `Strict.set`   the operations that give up;
* `Strict.walk`                the walk along the order; it also gives up if it takes too long;
* `Strict.get_eq`, `Strict.set_eq`, `Strict.walk_eq`   they do not give up.
-/

namespace PathQuery
namespace ResultCache
namespace Strict

variable {V : Type}

def modify (c : ResultCache V) (i : Nat) (f : Slot V → Slot V) : Option (ResultCache V) :=
  if i < c.slots.size then some (c.modify i f) else none

def linkNewer (c : ResultCache V) (newer older : Option Nat) : Option (ResultCache V) :=
  match newer with
  | some j => modify c j fun s => { s with older := older }
  | none => some { c with newest := older }

def linkOlder (c : ResultCache V) (newer older : Option Nat) : Option (ResultCache V) :=
  match older with
  | some j => modify c j fun s => { s with newer := newer }
  | none => some { c with oldest := newer }

def unlink (c : ResultCache V) (i : Nat) : Option (ResultCache V) := do
  let s ← c.slots[i]?
  let c ← linkNewer c s.newer s.older
  let c ← linkOlder c s.newer s.older
  modify c i fun s => { s with newer := none, older := none }

def pushNewest (c : ResultCache V) (i : Nat) : Option (ResultCache V) := do
  let former := c.newest
  let c ← modify c i fun s => { s with newer := none, older := former }
  let c ← match former with
    | some j => modify c j fun s => { s with newer := some i }
    | none => some c
  some { c with newest := some i, oldest := c.oldest.or (some i) }

def promote (c : ResultCache V) (i : Nat) : Option (ResultCache V) :=
  if c.newest = some i then some c else (unlink c i).bind (pushNewest · i)

def get (c : ResultCache V) (key : CacheKey) : Option (Option V × ResultCache V) :=
  match c.index[key]? with
  | none => some (none, { c with misses := c.misses + 1 })
  | some i => do
    let c ← promote { c with hits := c.hits + 1 } i
    let s ← c.slots[i]?
    let c ← modify c i fun s => { s with hits := s.hits + 1 }
    some (some s.value, c)

def occupy (c : ResultCache V) (key : CacheKey) (value : V) :
    Option (Option Nat × ResultCache V) :=
  let slot : Slot V := ⟨key, value, 0, none, none⟩
  if c.slots.size < c.capacity then
    some (some c.slots.size, { c with slots := c.slots.push slot })
  else
    match c.oldest with
    | none => some (none, c)
    | some i => do
      let d ← unlink c i
      let victim ← d.slots[i]?
      let d ← modify d i fun _ => slot
      some (some i, { d with index := d.index.erase victim.key, evictions := d.evictions + 1 })

def set (c : ResultCache V) (key : CacheKey) (value : V) : Option (ResultCache V) :=
  if c.capacity = 0 then some c
  else
    match c.index[key]? with
    | some i => do
      let c ← modify c i fun s => { s with value := value }
      promote c i
    | none => do
      let (i, c) ← occupy c key value
      match i with
      | some i => pushNewest { c with index := c.index.insert key i } i
      | none => some c

/-- the slots from the one at `i` on to the end of the order, if that takes `tries` steps at most -/
def walk (c : ResultCache V) : (tries : Nat) → (i : Option Nat) → Option (List (Slot V))
  | _, none => some []
  | 0, some _ => none
  | tries + 1, some i => do
    let s ← c.slots[i]?
    let rest ← walk c tries s.older
    some (s :: rest)

/-! ## in bounds they agree -/

theorem modify_eq {c : ResultCache V} {i : Nat} (h : i < c.slots.size) (f : Slot V → Slot V) :
    modify c i f = some (c.modify i f) := if_pos h

theorem linkNewer_eq {c : ResultCache V} {newer : Option Nat}
    (h : ∀ j, newer = some j → j < c.slots.size) (older : Option Nat) :
    linkNewer c newer older = some (c.linkNewer newer older) := by
  cases newer with
  | none => rfl
  | some j => exact modify_eq (h j rfl) _

theorem linkOlder_eq {c : ResultCache V} {older : Option Nat}
    (h : ∀ j, older = some j → j < c.slots.size) (newer : Option Nat) :
    linkOlder c newer older = some (c.linkOlder newer older) := by
  cases older with
  | none => rfl
  | some j => exact modify_eq (h j rfl) _

theorem unlink_eq {c : ResultCache V} {as bs : List Nat} {i : Nat}
    (h : c.Order (as ++ i :: bs)) : unlink c i = some (c.unlink i) := by
  have hlt : ∀ j ∈ as ++ i :: bs, j < c.slots.size := fun j hj => h.chain.lt_size hj
  obtain ⟨-, hlinks, -⟩ := (chain_append_cons c none none as bs i).mp h.chain
  rw [Option.or_none, Option.or_none] at hlinks
  obtain ⟨s, hs, hsn, hso⟩ := linksAt_eq_some hlinks
  have hnewer : ∀ j, s.newer = some j → j < c.slots.size := by
    intro j hj
    rw [hsn] at hj
    exact hlt j (List.mem_append_left _ (List.mem_of_getLast? hj))
  have holder : ∀ j, s.older = some j → j < c.slots.size := by
    intro j hj
    rw [hso] at hj
    exact hlt j (List.mem_append_right _ (List.mem_cons_of_mem _ (List.mem_of_head? hj)))
  have hsize₁ := (sameEntries_linkNewer c s.newer s.older).size
  have hsize₂ := (sameEntries_linkOlder (c.linkNewer s.newer s.older) s.newer s.older).size
  have hi := hlt i List.mem_append_cons_self
  rw [unlink, ResultCache.unlink, hs]
  show (linkNewer c s.newer s.older).bind _ = _
  rw [linkNewer_eq hnewer]
  show (linkOlder (c.linkNewer s.newer s.older) s.newer s.older).bind _ = _
  rw [linkOlder_eq (hsize₁.symm ▸ holder)]
  exact modify_eq (by rw [hsize₂, hsize₁]; exact hi) _

theorem pushNewest_eq {c : ResultCache V} {is : List Nat} {i : Nat} (h : c.Order is)
    (hi : i < c.slots.size) : pushNewest c i = some (c.pushNewest i) := by
  rw [pushNewest, ResultCache.pushNewest, modify_eq hi]
  have hnewest := h.newest
  cases hn : c.newest with
  | none => rfl
  | some j =>
    have hj : j < c.slots.size := by
      rw [hn] at hnewest
      exact h.chain.lt_size (List.mem_of_head? hnewest.symm)
    show (modify (c.modify i _) j _).bind _ = _
    rw [modify_eq (by rwa [size_modify])]
    rfl

theorem promote_eq {c : ResultCache V} {as bs : List Nat} {i : Nat}
    (h : c.Order (as ++ i :: bs)) : promote c i = some (c.promote i) := by
  rw [promote, ResultCache.promote]
  split_ifs
  · rfl
  · rw [unlink_eq h, Option.bind_some, pushNewest_eq h.unlink]
    rw [(sameEntries_unlink c i).size]
    exact h.chain.lt_size List.mem_append_cons_self

theorem walk_eq {c : ResultCache V} {is : List Nat} {newer : Option Nat}
    (h : c.Chain newer is none) {tries : Nat} (ht : is.length ≤ tries) :
    walk c tries is.head? = some (c.slotsFrom tries is.head?) := by
  induction is generalizing newer tries with
  | nil => cases tries <;> rfl
  | cons i is ih =>
    obtain ⟨s, hs, hso, his⟩ := h.first
    cases tries with
    | zero => exact absurd ht (Nat.not_succ_le_zero _)
    | succ tries =>
      rw [List.length_cons] at ht
      have hrest := ih his (Nat.le_of_succ_le_succ ht)
      rw [List.head?_cons, walk, slotsFrom, hs]
      show (walk c tries s.older).bind _ = some (s :: c.slotsFrom tries s.older)
      rw [hso, hrest]
      rfl

/-! ## the operations -/

theorem get_eq {c : ResultCache V} {is : List Nat} {l : Recent V} (h : c.Holds is l)
    (key : CacheKey) : get c key = some (c.get key) := by
  rw [get, ResultCache.get]
  cases hx : c.index[key]? with
  | none => rfl
  | some i =>
    obtain ⟨as, bs, xs, v, ys, rfl, rfl, hv, -, -⟩ := h.found hx
    set d : ResultCache V := { c with hits := c.hits + 1 } with hd
    have hord : d.Order (as ++ i :: bs) := (h.count (c.hits + 1) c.misses).order
    have he : (d.promote i).entryAt i = some (key, v) := (sameEntries_promote d i).entry i ▸ hv
    obtain ⟨s, hs, -, -⟩ := entryAt_eq_some he
    show (promote d i).bind _ =
      some ((d.promote i).slots[i]?.map Slot.value, (d.promote i).modify i _)
    rw [promote_eq hord, Option.bind_some, hs]
    show (modify (d.promote i) i _).bind _ = _
    rw [modify_eq (entryAt_lt he)]
    rfl

theorem occupy_eq {c : ResultCache V} {is : List Nat} {l : Recent V} (h : c.Holds is l)
    (key : CacheKey) (value : V) : occupy c key value = some (c.occupy key value) := by
  rw [occupy, ResultCache.occupy]
  split_ifs with hroom
  · rfl
  rw [h.order.oldest]
  obtain rfl | ⟨as, i, rfl⟩ := is.eq_nil_or_concat
  · rfl
  · rw [List.concat_eq_append] at h ⊢
    obtain ⟨xs, ⟨k, v⟩, ys, rfl, hi, -, -⟩ := h.split
    have hi' : (c.unlink i).entryAt i = some (k, v) := (sameEntries_unlink c i).entry i ▸ hi
    obtain ⟨s, hs, hk, -⟩ := entryAt_eq_some hi
    obtain ⟨s', hs', hk', -⟩ := entryAt_eq_some hi'
    rw [List.getLast?_concat, Option.bind_some, hs]
    show (unlink c i).bind _ = _
    rw [unlink_eq h.order, Option.bind_some, hs']
    show (modify (c.unlink i) i _).bind _ = _
    rw [modify_eq (entryAt_lt hi'), Option.bind_some, hk', ← hk]
    rfl

theorem set_eq {c : ResultCache V} {is : List Nat} {l : Recent V} (h : c.Holds is l)
    (key : CacheKey) (value : V) : set c key value = some (c.set key value) := by
  rw [set, ResultCache.set]
  by_cases hc : c.capacity = 0
  · rw [if_pos hc, if_pos hc]
  rw [if_neg hc, if_neg hc]
  cases hx : c.index[key]? with
  | some i =>
    obtain ⟨as, bs, xs, v, ys, rfl, rfl, hv, -, -⟩ := h.found hx
    have hi := h.order.chain.lt_size List.mem_append_cons_self
    show (modify c i _).bind _ = _
    rw [modify_eq hi]
    exact promote_eq (h.order.modify i _ (.inr fun _ => rfl))
  | none =>
    obtain ⟨i, d, is', ho, hready⟩ := h.occupy hc ((h.index_none key).mp hx) value
    show (occupy c key value).bind _ = _
    rw [occupy_eq h, ho]
    have hi : i < d.slots.size := entryAt_lt hready.entry
    have hord : { d with index := d.index.insert key i }.Order is' :=
      hready.order.congr (fun _ _ => rfl) rfl rfl
    exact pushNewest_eq hord hi

end Strict
end ResultCache
end PathQuery
