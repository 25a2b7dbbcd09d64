import PathQuery.Cache.Key
import Std.Data.HashMap

/-!
# The result cache

A bounded LRU cache. What is looked up or stored is the most recently used from then on; a cache
that is full evicts the least recently used entry.

The entries stand in the slots of a slab. A doubly linked list through the slots orders them by
recency, so that an entry can be promoted without moving the others, and an index finds the slot of
a key.

* `ResultCache.get`, `ResultCache.set`, `ResultCache.contains`, `ResultCache.clear`;
* `ResultCache.keys`    the keys from most to least recently used;
* `ResultCache.stats`   the counters.
-/

namespace PathQuery

/-- an entry of the slab with its neighbours in recency -/
structure Slot (V : Type) where
  key : CacheKey
  value : V
  /-- the hits since the key was inserted -/
  hits : Nat
  newer : Option Nat
  older : Option Nat

structure ResultCache (V : Type) where
  slots : Array (Slot V)
  index : Std.HashMap CacheKey Nat
  newest : Option Nat
  oldest : Option Nat
  capacity : Nat
  /-- lookups that found a key, those that did not, and entries put out for want of room -/
  hits : Nat
  misses : Nat
  evictions : Nat

structure CacheStats where
  size : Nat
  capacity : Nat
  /-- the hits of the entries that are still there -/
  totalHits : Nat
  averageHits : Float
  hitRate : Float
  misses : Nat
  evictions : Nat

namespace ResultCache

variable {V : Type}

/-- an empty cache; a capacity of zero disables it -/
def new (capacity : Nat) : ResultCache V := ⟨#[], ∅, none, none, capacity, 0, 0, 0⟩

def size (c : ResultCache V) : Nat := c.index.size

def isEmpty (c : ResultCache V) : Bool := c.index.isEmpty

/-! ## the recency order -/

def modify (c : ResultCache V) (i : Nat) (f : Slot V → Slot V) : ResultCache V :=
  { c with slots := c.slots.modify i f }

/-- makes `older` what comes after the slot at `newer`, or the front if there is no such slot -/
def linkNewer (c : ResultCache V) (newer older : Option Nat) : ResultCache V :=
  match newer with
  | some j => c.modify j fun s => { s with older := older }
  | none => { c with newest := older }

def linkOlder (c : ResultCache V) (newer older : Option Nat) : ResultCache V :=
  match older with
  | some j => c.modify j fun s => { s with newer := newer }
  | none => { c with oldest := newer }

/-- takes the slot at `i` out of the recency order: its neighbours become neighbours -/
def unlink (c : ResultCache V) (i : Nat) : ResultCache V :=
  match c.slots[i]? with
  | some s =>
    let c := (c.linkNewer s.newer s.older).linkOlder s.newer s.older
    c.modify i fun s => { s with newer := none, older := none }
  | none => c

/-- puts the slot at `i`, which is not in the order, in front -/
def pushNewest (c : ResultCache V) (i : Nat) : ResultCache V :=
  let former := c.newest
  let c := c.modify i fun s => { s with newer := none, older := former }
  let c := match former with
    | some j => c.modify j fun s => { s with newer := some i }
    | none => c
  { c with newest := some i, oldest := c.oldest.or (some i) }

def promote (c : ResultCache V) (i : Nat) : ResultCache V :=
  if c.newest = some i then c else (c.unlink i).pushNewest i

/-! ## operations -/

/-- looks up a key, promoting it on a hit -/
def get (c : ResultCache V) (key : CacheKey) : Option V × ResultCache V :=
  match c.index[key]? with
  | none => (none, { c with misses := c.misses + 1 })
  | some i =>
    let c := { c with hits := c.hits + 1 }.promote i
    (c.slots[i]?.map Slot.value, c.modify i fun s => { s with hits := s.hits + 1 })

/-- a slot for a key that has none: a new one up to the capacity, else that of the least recently
used entry, which is evicted -/
def occupy (c : ResultCache V) (key : CacheKey) (value : V) : Option Nat × ResultCache V :=
  let slot : Slot V := ⟨key, value, 0, none, none⟩
  if c.slots.size < c.capacity then (some c.slots.size, { c with slots := c.slots.push slot })
  else
    match c.oldest.bind fun i => c.slots[i]?.map (i, ·) with
    | none => (none, c)
    | some (i, victim) =>
      let c := (c.unlink i).modify i fun _ => slot
      (some i, { c with index := c.index.erase victim.key, evictions := c.evictions + 1 })

/-- inserts or replaces a key, promoting it -/
def set (c : ResultCache V) (key : CacheKey) (value : V) : ResultCache V :=
  if c.capacity = 0 then c
  else
    match c.index[key]? with
    | some i => (c.modify i fun s => { s with value := value }).promote i
    | none =>
      match c.occupy key value with
      | (some i, c) => { c with index := c.index.insert key i }.pushNewest i
      | (none, c) => c

/-- whether there is an entry under a key, without promoting it -/
def contains (c : ResultCache V) (key : CacheKey) : Bool := c.index.contains key

def clear (c : ResultCache V) : ResultCache V := new c.capacity

/-! ## views -/

/-- the slots from the one at `i` on towards the least recently used, at most `tries` of them -/
def slotsFrom (c : ResultCache V) : (tries : Nat) → (i : Option Nat) → List (Slot V)
  | 0, _ => []
  | _, none => []
  | tries + 1, some i =>
    match c.slots[i]? with
    | some s => s :: c.slotsFrom tries s.older
    | none => []

def keys (c : ResultCache V) : List CacheKey :=
  (c.slotsFrom c.slots.size c.newest).map Slot.key

def ratio (part whole : Nat) : Float :=
  if whole = 0 then 0.0 else Float.ofNat part / Float.ofNat whole

/-- how large a part is of a whole; beyond `2 ^ 53`, where floats have gaps, it is cut off behind
nine digits -/
def rate (part whole : Nat) : Float :=
  if whole ≤ 0x20000000000000 then ratio part whole
  else Float.ofNat (part * 1000000000 / whole) / 1000000000.0

def stats (c : ResultCache V) : CacheStats :=
  let total := c.slots.foldl (fun sum s => sum + s.hits) 0
  { size := c.size
    capacity := c.capacity
    totalHits := total
    averageHits := ratio total c.size
    hitRate := rate c.hits (c.hits + c.misses)
    misses := c.misses
    evictions := c.evictions }

end ResultCache
end PathQuery
