import PathQuery.Proofs.Cache.Runs
import Mathlib.Algebra.BigOperators.Group.List.Basic
import Mathlib.Algebra.GroupWithZero.Nat

/-!
# The statistics of a cache

What a cache counts is what has happened to it since it was made or cleared: the searches that
found nothing and all searches, the keys that came in, and for each key that is there how often it
was found since it came in.

* `CacheEvent`               what came of one thing asked;
* `since`, `hitsOf`          the events after one of a kind, and the finds of a key among them;
* `ResultCache.Accounts`     the counters of a cache are those of some events;
* `Accounts.get`, `Accounts.replace`, `Accounts.enter`   they still are after one thing more;
* `Accounts.totalHits`       the sum over the slots is a sum over the keys;
* `statistics_account`       the statistics of a cache after any run.
-/

namespace PathQuery

variable {V : Type}

/-- what came of one thing that a cache was asked -/
inductive CacheEvent where
  | found (key : CacheKey)
  | missed (key : CacheKey)
  /-- a value was given for a key that was not there -/
  | entered (key : CacheKey)
  /-- a value was given for a key that was there -/
  | replaced (key : CacheKey)
  | looked (key : CacheKey)
  | cleared
  deriving DecidableEq

namespace CacheEvent

def isFound : CacheEvent → Bool
  | found _ => true
  | _ => false

def isMissed : CacheEvent → Bool
  | missed _ => true
  | _ => false

def isSearch (e : CacheEvent) : Bool := e.isFound || e.isMissed

def isEntered : CacheEvent → Bool
  | entered _ => true
  | _ => false

end CacheEvent

/-- the events after the last one that is `mark`; the newest comes first, as in `log` -/
def since (mark : CacheEvent) (log : List CacheEvent) : List CacheEvent := log.takeWhile (· != mark)

/-- how often a key was found since it came in -/
def hitsOf (key : CacheKey) (log : List CacheEvent) : Nat :=
  (since (.entered key) log).count (.found key)

theorem countP_isSearch (log : List CacheEvent) :
    log.countP CacheEvent.isSearch =
      log.countP CacheEvent.isFound + log.countP CacheEvent.isMissed := by
  induction log with
  | nil => rfl
  | cons e log ih =>
    rw [List.countP_cons, List.countP_cons, List.countP_cons, ih]
    cases e <;> simp only [CacheEvent.isSearch, CacheEvent.isFound, CacheEvent.isMissed] <;> grind

/-! ## the finds of a key -/

theorem since_cons_of_ne {mark e : CacheEvent} (h : e ≠ mark) (log : List CacheEvent) :
    since mark (e :: log) = e :: since mark log :=
  List.takeWhile_cons_of_pos (bne_iff_ne.mpr h)

theorem since_cons_self (mark : CacheEvent) (log : List CacheEvent) :
    since mark (mark :: log) = [] :=
  List.takeWhile_cons_of_neg (by simp)

theorem hitsOf_cons (key : CacheKey) (e : CacheEvent) (log : List CacheEvent) :
    hitsOf key (e :: log) =
      if e = .entered key then 0
      else if e = .found key then hitsOf key log + 1 else hitsOf key log := by
  rw [hitsOf]
  split_ifs with hentered hfound
  · rw [hentered, since_cons_self, List.count_nil]
  · rw [since_cons_of_ne hentered, hfound, List.count_cons_self]
    rfl
  · rw [since_cons_of_ne hentered, List.count_cons_of_ne hfound]
    rfl

namespace ResultCache

/-- what comes of one thing that the cache is asked -/
def event (c : ResultCache V) : CacheOp V → CacheEvent
  | .get key => if (c.get key).1.isSome then .found key else .missed key
  | .set key _ => if c.contains key then .replaced key else .entered key
  | .contains key => .looked key
  | .clear => .cleared

def observe (c : ResultCache V) (op : CacheOp V) : CacheEvent × ResultCache V :=
  (c.event op, (c.step op).2)

/-- how often the result in the slot at `i` was found -/
def hitsAt (c : ResultCache V) (i : Nat) : Option Nat := c.slots[i]?.map Slot.hits

/-- the counters of a cache are those of the events `log` -/
structure Accounts (c : ResultCache V) (log : List CacheEvent) : Prop where
  hits : c.hits = log.countP CacheEvent.isFound
  misses : c.misses = log.countP CacheEvent.isMissed
  stored : c.capacity ≠ 0 → c.evictions + c.size = log.countP CacheEvent.isEntered
  each : ∀ key i, c.index[key]? = some i → c.hitsAt i = some (hitsOf key log)

/-! ## linking leaves the counters alone -/

structure SameCounts (c d : ResultCache V) : Prop where
  slot : ∀ i, d.hitsAt i = c.hitsAt i
  hits : d.hits = c.hits
  misses : d.misses = c.misses
  evictions : d.evictions = c.evictions

theorem SameCounts.refl (c : ResultCache V) : SameCounts c c := ⟨fun _ => rfl, rfl, rfl, rfl⟩

theorem SameCounts.trans {b c d : ResultCache V} (h : SameCounts b c) (h' : SameCounts c d) :
    SameCounts b d :=
  ⟨fun i => (h'.slot i).trans (h.slot i), h'.hits.trans h.hits, h'.misses.trans h.misses,
    h'.evictions.trans h.evictions⟩

theorem hitsAt_modify (c : ResultCache V) (i j : Nat) (f : Slot V → Slot V) :
    (c.modify i f).hitsAt j =
      if i = j then c.slots[j]?.map fun s => (f s).hits else c.hitsAt j := by
  rw [hitsAt, slots_modify]
  split
  · rw [Option.map_map]
    rfl
  · rfl

theorem sameCounts_modify (c : ResultCache V) (i : Nat) (f : Slot V → Slot V)
    (hf : ∀ s, (f s).hits = s.hits) : SameCounts c (c.modify i f) := by
  refine ⟨fun j => ?_, rfl, rfl, rfl⟩
  rw [hitsAt_modify, funext hf]
  exact ite_self _

theorem sameCounts_linkNewer (c : ResultCache V) (newer older : Option Nat) :
    SameCounts c (c.linkNewer newer older) := by
  cases newer with
  | none => exact ⟨fun _ => rfl, rfl, rfl, rfl⟩
  | some j => exact sameCounts_modify c j _ fun _ => rfl

theorem sameCounts_linkOlder (c : ResultCache V) (newer older : Option Nat) :
    SameCounts c (c.linkOlder newer older) := by
  cases older with
  | none => exact ⟨fun _ => rfl, rfl, rfl, rfl⟩
  | some j => exact sameCounts_modify c j _ fun _ => rfl

theorem sameCounts_unlink (c : ResultCache V) (i : Nat) : SameCounts c (c.unlink i) := by
  rw [unlink]
  split
  · next s _ =>
    refine (sameCounts_linkNewer c s.newer s.older).trans ?_
    refine (sameCounts_linkOlder _ s.newer s.older).trans ?_
    exact sameCounts_modify _ i _ fun _ => rfl
  · exact SameCounts.refl c

theorem sameCounts_pushNewest (c : ResultCache V) (i : Nat) : SameCounts c (c.pushNewest i) := by
  have h : SameCounts c (c.modify i fun s => { s with newer := none, older := c.newest }) :=
    sameCounts_modify c i _ fun _ => rfl
  refine h.trans ?_
  rw [pushNewest]
  cases c.newest with
  | none => exact ⟨fun _ => rfl, rfl, rfl, rfl⟩
  | some j =>
    obtain ⟨hs, hh, hm, he⟩ := sameCounts_modify
      (c.modify i fun s => { s with newer := none, older := some j }) j
      (fun s => { s with newer := some i }) fun _ => rfl
    exact ⟨hs, hh, hm, he⟩

theorem sameCounts_promote (c : ResultCache V) (i : Nat) : SameCounts c (c.promote i) := by
  rw [promote]
  split_ifs
  · exact SameCounts.refl c
  · exact (sameCounts_unlink c i).trans (sameCounts_pushNewest _ i)

/-! ## one thing asked -/

theorem Holds.isSome_get {c : ResultCache V} {is : List Nat} {l : Recent V} (h : c.Holds is l)
    (key : CacheKey) : (c.get key).1.isSome = c.contains key := by
  rw [(h.get key).1, h.contains key, Recent.get, Recent.contains]
  cases l.lookup key <;> rfl

theorem Linked.key_unique {c : ResultCache V} {is : List Nat} {l : Recent V} (h : c.Linked is l)
    {key key' : CacheKey} {i : Nat} (hi : c.index[key]? = some i) (hi' : c.index[key']? = some i) :
    key = key' := by
  obtain ⟨-, v, hv⟩ := (h.index key i).mp hi
  obtain ⟨-, w, hw⟩ := (h.index key' i).mp hi'
  rw [hv] at hw
  exact congrArg Prod.fst (Option.some.inj hw)

theorem contains_eq_true {c : ResultCache V} {key : CacheKey} {i : Nat}
    (h : c.index[key]? = some i) : c.contains key = true := by
  rw [contains, Std.HashMap.contains_eq_isSome_getElem?, h]
  rfl

theorem contains_eq_false {c : ResultCache V} {key : CacheKey} (h : c.index[key]? = none) :
    c.contains key = false := by
  rw [contains, Std.HashMap.contains_eq_isSome_getElem?, h]
  rfl

theorem get_of_none {c : ResultCache V} {key : CacheKey} (h : c.index[key]? = none) :
    (c.get key).2 = { c with misses := c.misses + 1 } := by
  rw [ResultCache.get, h]

theorem get_of_some {c : ResultCache V} {key : CacheKey} {i : Nat} (h : c.index[key]? = some i) :
    (c.get key).2 = ({ c with hits := c.hits + 1 }.promote i).modify i
      fun s => { s with hits := s.hits + 1 } := by
  rw [ResultCache.get, h]

theorem Accounts.next {c d : ResultCache V} {log : List CacheEvent} (h : c.Accounts log)
    (e : CacheEvent) (hhits : d.hits = c.hits + if e.isFound then 1 else 0)
    (hmisses : d.misses = c.misses + if e.isMissed then 1 else 0)
    (hcapacity : d.capacity = c.capacity)
    (hstored : c.capacity ≠ 0 →
      d.evictions + d.size = c.evictions + c.size + if e.isEntered then 1 else 0)
    (heach : ∀ key i, d.index[key]? = some i → d.hitsAt i = some (hitsOf key (e :: log))) :
    d.Accounts (e :: log) := by
  refine ⟨?_, ?_, fun hd => ?_, heach⟩
  · rw [hhits, h.hits, List.countP_cons]
  · rw [hmisses, h.misses, List.countP_cons]
  · have hc : c.capacity ≠ 0 := hcapacity ▸ hd
    rw [hstored hc, h.stored hc, List.countP_cons]

theorem Accounts.get {c : ResultCache V} {is : List Nat} {l : Recent V} {log : List CacheEvent}
    (h : c.Accounts log) (hc : c.Holds is l) (key : CacheKey) :
    (c.get key).2.Accounts (c.event (.get key) :: log) := by
  rw [event, hc.isSome_get]
  cases hx : c.index[key]? with
  | none =>
    rw [contains_eq_false hx, get_of_none hx]
    refine h.next (.missed key) rfl rfl rfl (fun _ => rfl) fun k i hi => ?_
    have hlog : hitsOf k (.missed key :: log) = hitsOf k log := by simp [hitsOf_cons]
    rw [hlog]
    exact h.each k i hi
  | some i =>
    rw [contains_eq_true hx, get_of_some hx]
    have hs := sameEntries_promote { c with hits := c.hits + 1 } i
    have hn := sameCounts_promote { c with hits := c.hits + 1 } i
    set d := { c with hits := c.hits + 1 }.promote i
    refine h.next (.found key) hn.hits hn.misses hs.capacity (fun _ => ?_) fun k j hj => ?_
    · show d.evictions + d.index.size = _
      rw [hn.evictions, hs.index]
      rfl
    · have hj : c.index[k]? = some j := hs.index ▸ hj
      have hslot : d.hitsAt j = some (hitsOf k log) := (hn.slot j).trans (h.each k j hj)
      rw [hitsAt_modify]
      by_cases hij : i = j
      · subst hij
        obtain rfl := hc.key_unique hx hj
        have hlog : hitsOf key (.found key :: log) = hitsOf key log + 1 := by simp [hitsOf_cons]
        obtain ⟨s, hs, hsh⟩ := Option.map_eq_some_iff.mp hslot
        rw [if_pos rfl, hlog, hs, Option.map_some, hsh]
      · have hne : key ≠ k := by
          rintro rfl
          exact hij (Option.some.inj (hx.symm.trans hj))
        have hlog : hitsOf k (.found key :: log) = hitsOf k log := by simp [hitsOf_cons, hne]
        rw [if_neg hij, hlog]
        exact hslot

/-! ### a value stored -/

theorem set_of_some {c : ResultCache V} {key : CacheKey} {i : Nat} (hcapacity : c.capacity ≠ 0)
    (h : c.index[key]? = some i) (v : V) :
    c.set key v = (c.modify i fun s => { s with value := v }).promote i := by
  rw [ResultCache.set, if_neg hcapacity, h]

theorem set_of_none {c d : ResultCache V} {key : CacheKey} {v : V} {i : Nat}
    (hcapacity : c.capacity ≠ 0) (h : c.index[key]? = none)
    (ho : c.occupy key v = (some i, d)) :
    c.set key v = { d with index := d.index.insert key i }.pushNewest i := by
  rw [ResultCache.set, if_neg hcapacity, h]
  dsimp only
  rw [ho]

/-- a slot for a new key: it has not been found yet, and the other slots and the counters stay as
they are, but for the count of what was put out -/
structure Occupied (c : ResultCache V) (i : Nat) (d : ResultCache V) : Prop where
  fresh : d.hitsAt i = some 0
  others : ∀ j, j ≠ i → d.hitsAt j = c.hitsAt j
  index : ∀ (key : CacheKey) (j : Nat), d.index[key]? = some j → c.index[key]? = some j
  hits : d.hits = c.hits
  misses : d.misses = c.misses
  capacity : d.capacity = c.capacity
  evictions : d.evictions = c.evictions + if c.slots.size < c.capacity then 0 else 1

theorem occupied {c d : ResultCache V} {key : CacheKey} {v : V} {i : Nat}
    (h : c.occupy key v = (some i, d)) : Occupied c i d := by
  rw [occupy] at h
  split_ifs at h with hroom
  · cases h
    refine ⟨?_, fun j hj => ?_, fun _ _ hj => hj, rfl, rfl, rfl, ?_⟩
    · rw [hitsAt, Array.getElem?_push_size]
      rfl
    · rw [hitsAt, Array.getElem?_push, if_neg hj]
      rfl
    · rw [if_pos hroom]
      rfl
  · split at h
    · cases h
    · next i' victim hvictim =>
      cases h
      obtain ⟨j, -, hs⟩ := Option.bind_eq_some_iff.mp hvictim
      obtain ⟨s, hs, heq⟩ := Option.map_eq_some_iff.mp hs
      cases heq
      have hsame := sameEntries_unlink c i
      have hn := sameCounts_unlink c i
      have hlt : i < (c.unlink i).slots.size := by
        rw [hsame.size]
        exact (Array.getElem?_eq_some_iff.mp hs).1
      refine ⟨?_, fun j hj => ?_, fun k j hj => ?_, hn.hits, hn.misses, hsame.capacity, ?_⟩
      · show ((c.unlink i).modify i fun _ => _).hitsAt i = _
        rw [hitsAt_modify, if_pos rfl, Array.getElem?_eq_getElem hlt]
        rfl
      · show ((c.unlink i).modify i fun _ => _).hitsAt j = _
        rw [hitsAt_modify, if_neg (Ne.symm hj)]
        exact hn.slot j
      · have hj : ((c.unlink i).index.erase victim.key)[k]? = some j := hj
        rw [hsame.index, Std.HashMap.getElem?_erase] at hj
        split_ifs at hj
        exact hj
      · rw [if_neg hroom]
        exact congrArg Nat.succ hn.evictions

section
variable {c : ResultCache V} {is : List Nat} {l : Recent V} {log : List CacheEvent}
  {key : CacheKey}

theorem Holds.index_of_noRoom (hc : c.Holds is l) (hcapacity : c.capacity = 0) (key : CacheKey) :
    c.index[key]? = none := by
  have hroom := hc.room
  rw [hc.size_eq, hcapacity] at hroom
  rw [hc.index_none, List.length_eq_zero_iff.mp (Nat.le_zero.mp hroom)]
  exact List.not_mem_nil

/-- either a key is put out for a new one, or there is one key more -/
theorem Holds.evictions_enter (hc : c.Holds is l) (hcapacity : c.capacity ≠ 0)
    (hx : c.index[key]? = none) (v : V) :
    (c.set key v).evictions + (c.set key v).size = c.evictions + c.size + 1 := by
  have hk := (hc.index_none key).mp hx
  obtain ⟨i, d, -, ho, -⟩ := hc.occupy hcapacity hk v
  have hevictions : (c.set key v).evictions
      = c.evictions + if c.slots.size < c.capacity then 0 else 1 := by
    rw [set_of_none hcapacity hx ho, (sameCounts_pushNewest _ i).evictions]
    exact (occupied ho).evictions
  obtain ⟨is', hnew⟩ := hc.set key v
  have hlen := hnew.size
  rw [Recent.set_of_lookup_none hcapacity ((Recent.lookup_eq_none l key).mpr hk),
    List.length_cons] at hlen
  have hroom := hc.room
  rw [hc.size_eq] at hevictions hroom
  show (c.set key v).evictions + (c.set key v).index.size = c.evictions + c.index.size + 1
  rw [hevictions, hlen, hc.size]
  by_cases hfull : l.length = c.capacity
  · rw [if_neg (by omega), if_pos hfull, List.length_dropLast]
    omega
  · rw [if_pos (by omega), if_neg hfull]
    omega

theorem Accounts.replace {i : Nat} (h : c.Accounts log) (hcapacity : c.capacity ≠ 0)
    (hx : c.index[key]? = some i) (v : V) : (c.set key v).Accounts (.replaced key :: log) := by
  rw [set_of_some hcapacity hx]
  have hs := sameEntries_promote (c.modify i fun s => { s with value := v }) i
  have hn := (sameCounts_modify c i (fun s => { s with value := v }) fun _ => rfl).trans
    (sameCounts_promote _ i)
  refine h.next (.replaced key) hn.hits hn.misses hs.capacity (fun _ => ?_) fun k j hj => ?_
  · rw [size, hn.evictions, hs.index]
    rfl
  · have hlog : hitsOf k (.replaced key :: log) = hitsOf k log := by simp [hitsOf_cons]
    rw [hlog, hn.slot]
    exact h.each k j (hs.index ▸ hj)

theorem Accounts.enter (h : c.Accounts log) (hc : c.Holds is l) (hcapacity : c.capacity ≠ 0)
    (hx : c.index[key]? = none) (v : V) : (c.set key v).Accounts (.entered key :: log) := by
  obtain ⟨i, d, is', ho, hready⟩ := hc.occupy hcapacity ((hc.index_none key).mp hx) v
  have hd := occupied ho
  have hs := sameEntries_pushNewest { d with index := d.index.insert key i } i
  have hn := sameCounts_pushNewest { d with index := d.index.insert key i } i
  have hset := set_of_none hcapacity hx ho
  refine h.next (.entered key) ?_ ?_ (capacity_set c key v)
    (fun _ => hc.evictions_enter hcapacity hx v) fun k j hj => ?_
  · rw [hset, hn.hits]
    exact hd.hits
  · rw [hset, hn.misses]
    exact hd.misses
  · rw [hset] at hj ⊢
    rw [hs.index, Std.HashMap.getElem?_insert] at hj
    rw [hn.slot]
    show d.hitsAt j = _
    by_cases hkk : key = k
    · subst hkk
      rw [beq_self_eq_true, if_pos rfl] at hj
      obtain rfl := Option.some.inj hj
      rw [hd.fresh, hitsOf_cons, if_pos rfl]
    · rw [if_neg (by simpa using hkk)] at hj
      have hne : j ≠ i := by
        rintro rfl
        exact hready.free ((hready.index k j).mp hj).1
      have hlog : hitsOf k (.entered key :: log) = hitsOf k log := by simp [hitsOf_cons, hkk]
      rw [hd.others j hne, hlog]
      exact h.each k j (hd.index k j hj)

theorem Accounts.set (h : c.Accounts log) (hc : c.Holds is l) (key : CacheKey) (v : V) :
    (c.set key v).Accounts (c.event (.set key v) :: log) := by
  rw [event]
  by_cases hcapacity : c.capacity = 0
  · have hindex := hc.index_of_noRoom hcapacity
    have hset : c.set key v = c := by rw [ResultCache.set, if_pos hcapacity]
    rw [hset, contains_eq_false (hindex key)]
    refine h.next (.entered key) rfl rfl rfl (fun hne => absurd hcapacity hne) fun k i hi => ?_
    rw [hindex k] at hi
    cases hi
  cases hx : c.index[key]? with
  | some i =>
    rw [contains_eq_true hx]
    exact h.replace hcapacity hx v
  | none =>
    rw [contains_eq_false hx]
    exact h.enter hc hcapacity hx v

end

/-! ## all that is there -/

/-- the slots hold the finds of the keys that the order meets, and there are no others -/
theorem Accounts.totalHits {c : ResultCache V} {is : List Nat} {l : Recent V}
    {log : List CacheEvent} (h : c.Accounts log) (hc : c.Holds is l) :
    c.stats.totalHits = (c.keys.map fun key => hitsOf key log).sum := by
  have hslots : (List.range c.slots.size).map (fun i => (c.hitsAt i).getD 0)
      = c.slots.toList.map Slot.hits := by
    refine List.ext_getElem (by simp) fun i hi hi' => ?_
    have hlt : i < c.slots.size := by simpa using hi
    simp [hitsAt, hlt]
  have hperm : is.Perm (List.range c.slots.size) := by
    refine (List.perm_ext_iff_of_nodup hc.order.nodup List.nodup_range).mpr fun i => ?_
    rw [List.mem_range]
    exact ⟨hc.order.chain.lt_size, hc.every i⟩
  have hkeys : is.map (fun i => (c.hitsAt i).getD 0) = l.map fun e => hitsOf e.1 log := by
    have hentries := congrArg (List.map fun e? => (e?.map fun e => hitsOf e.1 log).getD 0) hc.entries
    rw [List.map_map, List.map_map] at hentries
    refine Eq.trans (List.map_congr_left fun i hi => ?_) hentries
    obtain ⟨s, hs⟩ : ∃ s, c.slots[i]? = some s :=
      ⟨_, Array.getElem?_eq_getElem (hc.order.chain.lt_size hi)⟩
    have hentry : c.entryAt i = some (s.key, s.value) := by rw [entryAt, hs, Option.map_some]
    have hindex := (hc.index s.key i).mpr ⟨hi, s.value, hentry⟩
    show (c.hitsAt i).getD 0 = ((c.entryAt i).map fun e => hitsOf e.1 log).getD 0
    rw [h.each s.key i hindex, hentry]
    rfl
  have htotal : c.stats.totalHits = (c.slots.toList.map Slot.hits).sum := by
    rw [List.sum_eq_foldl, List.foldl_map, Array.foldl_toList]
    rfl
  rw [htotal, ← hslots, ← (hperm.map _).sum_eq, hkeys, hc.keys, List.map_map]
  rfl

/-! ## runs -/

theorem accounts_new (capacity : ℕ) : (new capacity : ResultCache V).Accounts [] := by
  have hsize : (∅ : Std.HashMap CacheKey Nat).size = 0 := Std.HashMap.size_empty
  refine ⟨rfl, rfl, fun _ => hsize, fun key i hi => ?_⟩
  have hi : (∅ : Std.HashMap CacheKey Nat)[key]? = some i := hi
  rw [Std.HashMap.getElem?_empty] at hi
  cases hi

/-- the counters keep to the events since the cache was cleared -/
theorem Accounts.step {c : ResultCache V} {is : List Nat} {l : Recent V} {log : List CacheEvent}
    (h : c.Accounts (since .cleared log)) (hc : c.Holds is l) (op : CacheOp V) :
    (c.step op).2.Accounts (since .cleared (c.event op :: log)) := by
  cases op with
  | get key =>
    rw [since_cons_of_ne (by rw [event]; split <;> nofun)]
    exact h.get hc key
  | set key value =>
    rw [since_cons_of_ne (by rw [event]; split <;> nofun)]
    exact h.set hc key value
  | contains key =>
    rw [since_cons_of_ne (by nofun)]
    refine h.next (.looked key) rfl rfl rfl (fun _ => rfl) fun k i hi => ?_
    have hlog : hitsOf k (.looked key :: since .cleared log) = hitsOf k (since .cleared log) := by
      simp [hitsOf_cons]
    rw [hlog]
    exact h.each k i hi
  | clear =>
    rw [event, since_cons_self]
    exact accounts_new c.capacity

theorem Accounts.answers {c : ResultCache V} {is : List Nat} {l : Recent V}
    {log : List CacheEvent} (h : c.Accounts (since .cleared log)) (hc : c.Holds is l)
    (ops : List (CacheOp V)) :
    (PathQuery.answers observe c ops).2.Accounts
      (since .cleared ((PathQuery.answers observe c ops).1.reverse ++ log)) := by
  induction ops generalizing c is l log with
  | nil => exact h
  | cons op ops ih =>
    obtain ⟨-, is', hnext⟩ := hc.step op
    have hmore := ih (h.step hc op) hnext
    show (PathQuery.answers observe (c.step op).2 ops).2.Accounts
      (since .cleared ((c.event op :: (PathQuery.answers observe (c.step op).2 ops).1).reverse ++ log))
    rw [List.reverse_cons, List.append_assoc]
    exact hmore

theorem answers_observe (c : ResultCache V) (ops : List (CacheOp V)) :
    (PathQuery.answers observe c ops).2 = (PathQuery.answers ResultCache.step c ops).2 := by
  induction ops generalizing c with
  | nil => rfl
  | cons op ops ih => exact ih (c.step op).2

/-- **The statistics account for the whole run** since the cache was made or last cleared: `misses`
are the searches that found nothing, with `hits` they are all searches; where there is room at all,
`evictions` and the keys that are there are the values given for keys that were not there; and
`totalHits` is the sum, over the keys that are there, of the finds of the key since it came in. -/
theorem statistics_account (capacity : ℕ) (ops : List (CacheOp V)) :
    let c := (answers ResultCache.step (new capacity) ops).2
    let log := since .cleared (answers observe (new capacity) ops).1.reverse
    c.stats.misses = log.countP CacheEvent.isMissed ∧
      c.hits + c.misses = log.countP CacheEvent.isSearch ∧
      (capacity ≠ 0 → c.stats.evictions + c.size = log.countP CacheEvent.isEntered) ∧
      c.stats.totalHits = (c.keys.map fun key => hitsOf key log).sum := by
  intro c log
  obtain ⟨-, -, hcapacity, is, hc⟩ := (Holds.new (V := V) capacity).answers ops
  have h : c.Accounts log := by
    have hnew : (new capacity : ResultCache V).Accounts (since .cleared []) := accounts_new capacity
    have h := hnew.answers (Holds.new capacity) ops
    rwa [List.append_nil, answers_observe] at h
  refine ⟨h.misses, ?_, fun hne => h.stored (hcapacity.trans_ne hne), h.totalHits hc⟩
  rw [h.hits, h.misses, countP_isSearch]

/-- a key that is put out and comes in again is counted anew, and what was before `clear` is not
counted -/
theorem statistics_account_again :
    let key (path : String) : CacheKey := ⟨⟨1⟩, path⟩
    let ops : List (CacheOp ℕ) :=
      [.get (key "$"), .clear, .set (key "$.a") 1, .get (key "$.a"), .set (key "$.b") 2,
        .get (key "$.a"), .set (key "$.a") 3, .get (key "$.a"), .set (key "$.a") 4]
    let c := (answers ResultCache.step (new 1) ops).2
    let log := since .cleared (answers observe (new 1) ops).1.reverse
    1 ≠ 0 ∧ c.stats.evictions + c.size = log.countP CacheEvent.isEntered := by
  intro key ops c log
  have h : 1 ≠ 0 := by decide
  exact ⟨h, (statistics_account 1 ops).2.2.1 h⟩

end ResultCache
end PathQuery
