import PathQuery.Proofs.Cache.Order

/-!
# The cache as a list

The result cache does what a plain list of keys and values does, the newest first. The links
say which list it is, and the index finds every key of it.

* `Recent`                  the list, with `Recent.get`, `Recent.set`, `Recent.contains`;
* `ResultCache.Linked`      some slots, in their order, hold the list, and the index finds them;
* `ResultCache.Holds`       no slot is idle besides, and there is room for all of them;
* `ResultCache.Ready`       one slot is still to be put in front;
* `Holds.get`, `Holds.set`, `Holds.contains`   the operations of the cache are those of the list.
-/

namespace PathQuery

/-- what a cache is to hold: keys and values, the newest first -/
abbrev Recent (V : Type) := List (CacheKey × V)

namespace Recent

variable {V : Type}

def without (l : Recent V) (key : CacheKey) : Recent V := l.filter fun e => e.1 != key

/-- a key that is there is the newest from then on -/
def get (l : Recent V) (key : CacheKey) : Option V × Recent V :=
  match l.lookup key with
  | some v => (some v, (key, v) :: l.without key)
  | none => (none, l)

/-- a new key in a full list puts out the oldest one -/
def set (capacity : Nat) (l : Recent V) (key : CacheKey) (value : V) : Recent V :=
  if capacity = 0 then l
  else if (l.lookup key).isSome then (key, value) :: l.without key
  else if l.length = capacity then (key, value) :: l.dropLast
  else (key, value) :: l

def contains (l : Recent V) (key : CacheKey) : Bool := (l.lookup key).isSome

theorem lookup_eq_none (l : Recent V) (key : CacheKey) :
    l.lookup key = none ↔ key ∉ l.map Prod.fst := by
  rw [List.lookup_eq_none_iff]
  constructor
  · intro h hk
    obtain ⟨p, hp, rfl⟩ := List.mem_map.mp hk
    simpa using h p hp
  · intro h p hp
    rw [bne_iff_ne]
    rintro rfl
    exact h (List.mem_map_of_mem hp)

theorem lookup_split {xs ys : Recent V} {key : CacheKey} (h : key ∉ xs.map Prod.fst) (v : V) :
    (xs ++ (key, v) :: ys).lookup key = some v := by
  rw [List.lookup_append, (lookup_eq_none xs key).mpr h, Option.none_or, List.lookup_cons_self]

theorem without_of_not_mem {l : Recent V} {key : CacheKey} (h : key ∉ l.map Prod.fst) :
    l.without key = l := by
  rw [without, List.filter_eq_self]
  intro e he
  rw [bne_iff_ne]
  rintro rfl
  exact h (List.mem_map_of_mem he)

theorem without_split {xs ys : Recent V} {key : CacheKey} {v : V}
    (h : ((xs ++ (key, v) :: ys).map Prod.fst).Nodup) :
    (xs ++ (key, v) :: ys).without key = xs ++ ys := by
  rw [List.map_append, List.map_cons] at h
  have hk := (List.nodup_cons.mp (List.nodup_middle.mp h)).1
  rw [← List.map_append] at hk
  have hw := without_of_not_mem hk
  rw [without, List.filter_append] at hw ⊢
  rw [List.filter_cons_of_neg (by simp), hw]

theorem set_of_lookup {capacity : Nat} (hcapacity : capacity ≠ 0) {l : Recent V} {key : CacheKey}
    {w : V} (h : l.lookup key = some w) (v : V) :
    set capacity l key v = (key, v) :: l.without key := by
  rw [set, if_neg hcapacity, h, Option.isSome_some, if_pos rfl]

/-- a new key comes in front of what there is still room for -/
theorem set_of_lookup_none {capacity : Nat} (hcapacity : capacity ≠ 0) {l : Recent V}
    {key : CacheKey} (h : l.lookup key = none) (v : V) :
    set capacity l key v = (key, v) :: if l.length = capacity then l.dropLast else l := by
  rw [set, if_neg hcapacity, h, Option.isSome_none, if_neg Bool.false_ne_true]
  split <;> rfl

theorem mem_of_get {l : Recent V} {key : CacheKey} {v : V} (h : (l.get key).1 = some v) :
    (key, v) ∈ l := by
  rw [get] at h
  cases hl : l.lookup key with
  | none =>
    rw [hl] at h
    cases h
  | some w =>
    rw [hl] at h
    obtain rfl : w = v := Option.some.inj h
    obtain ⟨before, after, rfl, -⟩ := List.lookup_eq_some_iff.mp hl
    exact List.mem_append_right before List.mem_cons_self

theorem mem_get {l : Recent V} {key : CacheKey} {e : CacheKey × V} (h : e ∈ (l.get key).2) :
    e ∈ l := by
  rw [get] at h
  cases hl : l.lookup key with
  | none => rwa [hl] at h
  | some v =>
    rw [hl] at h
    rcases List.mem_cons.mp h with rfl | h
    · exact mem_of_get (by rw [get, hl])
    · exact List.mem_of_mem_filter h

theorem mem_set {l : Recent V} {capacity : Nat} {key : CacheKey} {v : V} {e : CacheKey × V}
    (h : e ∈ set capacity l key v) : e = (key, v) ∨ e ∈ l := by
  rw [set] at h
  split_ifs at h
  · exact .inr h
  · exact (List.mem_cons.mp h).imp_right List.mem_of_mem_filter
  · exact (List.mem_cons.mp h).imp_right fun h => List.dropLast_subset l h
  · exact List.mem_cons.mp h

end Recent

namespace ResultCache

variable {V : Type}

/-- the keys and values that the walk along the order meets, the newest first -/
def recent (c : ResultCache V) : Recent V :=
  (c.slotsFrom c.slots.size c.newest).map fun s => (s.key, s.value)

/-- the slots `is`, in their order, hold the pairs `l`, and the index finds them -/
structure Linked (c : ResultCache V) (is : List Nat) (l : Recent V) : Prop where
  order : c.Order is
  entries : is.map c.entryAt = l.map some
  index : ∀ key i, c.index[key]? = some i ↔ i ∈ is ∧ ∃ v, c.entryAt i = some (key, v)
  size : c.index.size = l.length

/-- every slot is in use, and there are no more than the cache may have -/
structure Holds (c : ResultCache V) (is : List Nat) (l : Recent V) : Prop
    extends c.Linked is l where
  every : ∀ i, i < c.slots.size → i ∈ is
  room : c.slots.size ≤ c.capacity

/-- the slot `i` holds a pair with a new key, and only has to be put in front -/
structure Ready (c : ResultCache V) (i : Nat) (e : CacheKey × V) (is : List Nat)
    (l : Recent V) : Prop extends c.Linked is l where
  entry : c.entryAt i = some e
  free : i ∉ is
  fresh : e.1 ∉ l.map Prod.fst
  every : ∀ j, j < c.slots.size → j ∈ i :: is
  room : c.slots.size ≤ c.capacity

/-! ## the slots and the list -/

theorem Linked.length_eq {c : ResultCache V} {is : List Nat} {l : Recent V} (h : c.Linked is l) :
    is.length = l.length := by
  have hl := congrArg List.length h.entries
  rwa [List.length_map, List.length_map] at hl

theorem Holds.size_eq {c : ResultCache V} {is : List Nat} {l : Recent V} (h : c.Holds is l) :
    c.slots.size = l.length := by
  rw [← h.length_eq]
  refine Nat.le_antisymm ?_ h.order.length_le
  have hsub : List.range c.slots.size ⊆ is := fun i hi => h.every i (List.mem_range.mp hi)
  have hle := (List.subperm_of_subset List.nodup_range hsub).length_le
  rwa [List.length_range] at hle

theorem Linked.split {c : ResultCache V} {as bs : List Nat} {i : Nat} {l : Recent V}
    (h : c.Linked (as ++ i :: bs) l) :
    ∃ xs e ys, l = xs ++ e :: ys ∧ c.entryAt i = some e ∧ as.map c.entryAt = xs.map some ∧
      bs.map c.entryAt = ys.map some := by
  have he := h.entries
  rw [List.map_append, List.map_cons] at he
  obtain ⟨xs, zs, rfl, hxs, hzs⟩ := List.map_eq_append_iff.mp he.symm
  obtain ⟨e, ys, rfl, he, hys⟩ := List.map_eq_cons_iff.mp hzs
  exact ⟨xs, e, ys, rfl, he.symm, hxs.symm, hys.symm⟩

theorem Linked.mem_iff {c : ResultCache V} {is : List Nat} {l : Recent V} (h : c.Linked is l)
    (e : CacheKey × V) : e ∈ l ↔ ∃ i ∈ is, c.entryAt i = some e := by
  have he : some e ∈ l.map some ↔ ∃ i ∈ is, c.entryAt i = some e := by
    rw [← h.entries, List.mem_map]
  rw [← he]
  simp

theorem Linked.index_none {c : ResultCache V} {is : List Nat} {l : Recent V} (h : c.Linked is l)
    (key : CacheKey) : c.index[key]? = none ↔ key ∉ l.map Prod.fst := by
  constructor
  · intro hn hk
    obtain ⟨⟨k, v⟩, hm, rfl⟩ := List.mem_map.mp hk
    obtain ⟨i, hi, he⟩ := (h.mem_iff _).mp hm
    have hx := (h.index k i).mpr ⟨hi, v, he⟩
    rw [hn] at hx
    cases hx
  · intro hk
    cases hx : c.index[key]? with
    | none => rfl
    | some i =>
      obtain ⟨hi, v, he⟩ := (h.index key i).mp hx
      exact absurd (List.mem_map_of_mem ((h.mem_iff (key, v)).mpr ⟨i, hi, he⟩)) hk

/-- no key stands in two slots: the index would have to find both -/
theorem Linked.keys_nodup {c : ResultCache V} {is : List Nat} {l : Recent V} (h : c.Linked is l) :
    (l.map Prod.fst).Nodup := by
  have hkeys : (l.map Prod.fst).map some = is.map fun i => (c.entryAt i).map Prod.fst := by
    have he := congrArg (List.map (Option.map Prod.fst)) h.entries
    rw [List.map_map, List.map_map] at he
    rw [List.map_map]
    exact he.symm
  refine List.Nodup.of_map some ?_
  rw [hkeys]
  refine List.Nodup.map_on (fun i hi j hj hij => ?_) h.order.nodup
  have hmem : ∀ k ∈ is, ∃ e, c.entryAt k = some e := by
    intro k hk
    have hm : c.entryAt k ∈ l.map some := h.entries ▸ List.mem_map_of_mem hk
    obtain ⟨e, -, he⟩ := List.mem_map.mp hm
    exact ⟨e, he.symm⟩
  obtain ⟨⟨k, v⟩, hv⟩ := hmem i hi
  obtain ⟨⟨k', w⟩, hw⟩ := hmem j hj
  rw [hv, hw] at hij
  obtain rfl : k = k' := Option.some.inj hij
  have hx := (h.index k i).mpr ⟨hi, v, hv⟩
  rw [(h.index k j).mpr ⟨hj, w, hw⟩] at hx
  exact (Option.some.inj hx).symm

/-- what the index finds, and where it stands among the slots and in the list -/
theorem Linked.found {c : ResultCache V} {is : List Nat} {l : Recent V} (h : c.Linked is l)
    {key : CacheKey} {i : Nat} (hi : c.index[key]? = some i) :
    ∃ as bs xs v ys, is = as ++ i :: bs ∧ l = xs ++ (key, v) :: ys ∧
      c.entryAt i = some (key, v) ∧ as.map c.entryAt = xs.map some ∧
      bs.map c.entryAt = ys.map some := by
  obtain ⟨hm, v, hv⟩ := (h.index key i).mp hi
  obtain ⟨as, bs, rfl⟩ := List.append_of_mem hm
  obtain ⟨xs, e, ys, rfl, he, hxs, hys⟩ := h.split
  obtain rfl : e = (key, v) := Option.some.inj (he.symm.trans hv)
  exact ⟨as, bs, xs, v, ys, rfl, rfl, hv, hxs, hys⟩

/-! ## views -/

theorem Holds.slotsFrom {c : ResultCache V} {is : List Nat} {l : Recent V} (h : c.Holds is l)
    {tries : Nat} (ht : c.slots.size ≤ tries) :
    (c.slotsFrom tries c.newest).map (fun s => (s.key, s.value)) = l := by
  have hw := congrArg (List.map (Option.map fun s : Slot V => (s.key, s.value)))
    (h.order.chain.slotsFrom (Nat.le_trans h.order.length_le ht))
  rw [List.map_map, List.map_map, ← h.order.newest] at hw
  refine (List.map_inj_right fun _ _ => Option.some.inj).mp ?_
  rw [← h.entries, List.map_map]
  exact hw

theorem Holds.keys {c : ResultCache V} {is : List Nat} {l : Recent V} (h : c.Holds is l) :
    c.keys = l.map Prod.fst := by
  rw [← h.slotsFrom (Nat.le_refl _), List.map_map]
  rfl

theorem Holds.recent {c : ResultCache V} {is : List Nat} {l : Recent V} (h : c.Holds is l) :
    c.recent = l := h.slotsFrom (Nat.le_refl _)

/-! ## moving -/

theorem Holds.move {c d : ResultCache V} {is is' : List Nat} {l l' : Recent V}
    (h : c.Holds is l) (hs : SameEntries c d) (ho : d.Order is') (hm : ∀ i, i ∈ is' ↔ i ∈ is)
    (he : is'.map c.entryAt = l'.map some) (hl : l'.length = l.length) : d.Holds is' l' := by
  refine ⟨⟨ho, ?_, ?_, ?_⟩, ?_, ?_⟩
  · rw [← he]
    exact List.map_congr_left fun i _ => hs.entry i
  · intro key i
    rw [hs.index, hs.entry, hm]
    exact h.index key i
  · rw [hs.index, hl]
    exact h.size
  · intro i hi
    rw [hs.size] at hi
    exact (hm i).mpr (h.every i hi)
  · rw [hs.size, hs.capacity]
    exact h.room

theorem Holds.promote {c : ResultCache V} {as bs : List Nat} {i : Nat} {xs ys : Recent V}
    {e : CacheKey × V} (h : c.Holds (as ++ i :: bs) (xs ++ e :: ys))
    (hi : c.entryAt i = some e) (hxs : as.map c.entryAt = xs.map some)
    (hys : bs.map c.entryAt = ys.map some) :
    (c.promote i).Holds (i :: (as ++ bs)) (e :: (xs ++ ys)) := by
  refine h.move (sameEntries_promote c i) h.order.promote (fun j => ?_) ?_ ?_
  · rw [List.mem_cons, List.mem_append, List.mem_append, List.mem_cons]
    exact or_left_comm
  · rw [List.map_cons, List.map_append, hi, hxs, hys, List.map_cons, List.map_append]
  · rw [List.length_cons, List.length_append, List.length_append, List.length_cons]
    omega

theorem Holds.count {c : ResultCache V} {is : List Nat} {l : Recent V} (h : c.Holds is l)
    (hits misses : Nat) : { c with hits := hits, misses := misses }.Holds is l :=
  h.move ⟨fun _ => rfl, rfl, rfl, rfl⟩ (h.order.congr (fun _ _ => rfl) rfl rfl)
    (fun _ => Iff.rfl) h.entries rfl

/-! ## putting in and out -/

theorem Linked.congr {c d : ResultCache V} {is : List Nat} {l : Recent V} (h : c.Linked is l)
    (ho : d.Order is) (he : ∀ i ∈ is, d.entryAt i = c.entryAt i) (hx : d.index = c.index) :
    d.Linked is l := by
  refine ⟨ho, ?_, ?_, ?_⟩
  · rw [← h.entries]
    exact List.map_congr_left he
  · intro key i
    rw [hx, h.index]
    constructor
    · rintro ⟨hi, v, hv⟩
      exact ⟨hi, v, (he i hi).trans hv⟩
    · rintro ⟨hi, v, hv⟩
      exact ⟨hi, v, (he i hi).symm.trans hv⟩
  · rw [hx]
    exact h.size

theorem Linked.enter {c : ResultCache V} {is : List Nat} {l : Recent V} {i : Nat}
    {key : CacheKey} {v : V} (h : c.Linked is l) (hi : i ∉ is)
    (he : c.entryAt i = some (key, v)) (hk : key ∉ l.map Prod.fst) :
    ({ c with index := c.index.insert key i }.pushNewest i).Linked (i :: is) ((key, v) :: l) := by
  set d : ResultCache V := { c with index := c.index.insert key i } with hd
  have hs := sameEntries_pushNewest d i
  have hlt : i < d.slots.size := entryAt_lt he
  have ho : d.Order is := h.order.congr (fun _ _ => rfl) rfl rfl
  refine ⟨ho.pushNewest hi hlt, ?_, ?_, ?_⟩
  · rw [List.map_cons, List.map_cons, hs.entry, ← h.entries]
    exact congrArg₂ List.cons he (List.map_congr_left fun j _ => hs.entry j)
  · intro k j
    rw [hs.index, hs.entry, hd, Std.HashMap.getElem?_insert, List.mem_cons]
    show _ ↔ _ ∧ ∃ w, c.entryAt j = some (k, w)
    by_cases hkk : key = k
    · subst hkk
      rw [beq_self_eq_true, if_pos rfl, Option.some_inj]
      constructor
      · rintro rfl
        exact ⟨.inl rfl, v, he⟩
      · rintro ⟨rfl | hj, w, hw⟩
        · rfl
        · exact absurd (List.mem_map_of_mem ((h.mem_iff (key, w)).mpr ⟨j, hj, hw⟩)) hk
    · rw [if_neg (by simpa using hkk), h.index]
      constructor
      · rintro ⟨hj, hw⟩
        exact ⟨.inr hj, hw⟩
      · rintro ⟨rfl | hj, w, hw⟩
        · rw [he, Option.some_inj, Prod.mk.injEq] at hw
          exact absurd hw.1 hkk
        · exact ⟨hj, w, hw⟩
  · rw [hs.index, hd]
    have hnew : key ∉ c.index := by
      rw [Std.HashMap.mem_iff_isSome_getElem?, (h.index_none key).mpr hk]
      nofun
    rw [Std.HashMap.size_insert, if_neg hnew, h.size, List.length_cons]

theorem Linked.leave {c : ResultCache V} {as bs : List Nat} {i : Nat} {xs ys : Recent V}
    {e : CacheKey × V} (h : c.Linked (as ++ i :: bs) (xs ++ e :: ys))
    (hi : c.entryAt i = some e) (hxs : as.map c.entryAt = xs.map some)
    (hys : bs.map c.entryAt = ys.map some) :
    { c.unlink i with index := (c.unlink i).index.erase e.1 }.Linked (as ++ bs) (xs ++ ys) := by
  have hs := sameEntries_unlink c i
  have hn := h.order.not_mem
  have hx : c.index[e.1]? = some i :=
    (h.index e.1 i).mpr ⟨List.mem_append_cons_self, e.2, hi⟩
  refine ⟨h.order.unlink.congr (fun _ _ => rfl) rfl rfl, ?_, ?_, ?_⟩
  · have he : (as ++ bs).map c.entryAt = (xs ++ ys).map some := by
      rw [List.map_append, hxs, hys, List.map_append]
    rw [← he]
    exact List.map_congr_left fun j _ => hs.entry j
  · intro k j
    show ((c.unlink i).index.erase e.1)[k]? = some j ↔
      j ∈ as ++ bs ∧ ∃ w, (c.unlink i).entryAt j = some (k, w)
    rw [hs.index, hs.entry, Std.HashMap.getElem?_erase]
    by_cases hkk : e.1 = k
    · subst hkk
      rw [beq_self_eq_true, if_pos rfl]
      refine ⟨nofun, ?_⟩
      rintro ⟨hj, w, hw⟩
      -- the key stands in one slot, which is not one of those that stay
      have hx' := (h.index e.1 j).mpr
        ⟨List.mem_append.mpr ((List.mem_append.mp hj).imp_right (List.mem_cons_of_mem i)), w, hw⟩
      rw [hx, Option.some_inj] at hx'
      exact absurd (hx' ▸ hj) hn
    · rw [if_neg (by simpa using hkk), h.index, List.mem_append, List.mem_append, List.mem_cons]
      constructor
      · rintro ⟨hj | rfl | hj, w, hw⟩
        · exact ⟨.inl hj, w, hw⟩
        · rw [hi, Option.some_inj] at hw
          exact absurd (congrArg Prod.fst hw) hkk
        · exact ⟨.inr hj, w, hw⟩
      · rintro ⟨hj | hj, hw⟩
        · exact ⟨.inl hj, hw⟩
        · exact ⟨.inr (.inr hj), hw⟩
  · show ((c.unlink i).index.erase e.1).size = _
    have hmem : e.1 ∈ c.index := Std.HashMap.mem_iff_isSome_getElem?.mpr (by rw [hx]; rfl)
    rw [hs.index, Std.HashMap.size_erase, if_pos hmem, h.size, List.length_append,
      List.length_append, List.length_cons]
    omega

/-! ## the operations -/

theorem Holds.new (capacity : Nat) : (new capacity : ResultCache V).Holds [] [] := by
  refine ⟨⟨⟨List.nodup_nil, trivial, rfl, rfl⟩, rfl, ?_, Std.HashMap.size_empty⟩, ?_, ?_⟩
  · intro key i
    show (∅ : Std.HashMap CacheKey Nat)[key]? = some i ↔ _
    rw [Std.HashMap.getElem?_empty]
    exact ⟨nofun, fun h => by cases h.1⟩
  · exact fun i hi => absurd hi (Nat.not_lt_zero i)
  · exact Nat.zero_le capacity

theorem Holds.contains {c : ResultCache V} {is : List Nat} {l : Recent V} (h : c.Holds is l)
    (key : CacheKey) : c.contains key = Recent.contains l key := by
  rw [ResultCache.contains, Recent.contains, Std.HashMap.contains_eq_isSome_getElem?,
    Bool.eq_iff_iff, ← not_iff_not, Bool.not_eq_true, Bool.not_eq_true, Option.isSome_eq_false_iff,
    Option.isSome_eq_false_iff, Option.isNone_iff_eq_none, Option.isNone_iff_eq_none,
    h.index_none, Recent.lookup_eq_none]

theorem Holds.get {c : ResultCache V} {is : List Nat} {l : Recent V} (h : c.Holds is l)
    (key : CacheKey) :
    (c.get key).1 = (Recent.get l key).1 ∧
      ∃ is', (c.get key).2.Holds is' (Recent.get l key).2 := by
  rw [ResultCache.get, Recent.get]
  cases hx : c.index[key]? with
  | none =>
    rw [(Recent.lookup_eq_none l key).mpr ((h.index_none key).mp hx)]
    exact ⟨rfl, is, h.count c.hits (c.misses + 1)⟩
  | some i =>
    obtain ⟨as, bs, xs, v, ys, rfl, rfl, hv, hxs, hys⟩ := h.found hx
    have hn := h.keys_nodup
    have hk : key ∉ xs.map Prod.fst := by
      rw [List.map_append, List.map_cons] at hn
      exact fun hm => (List.nodup_cons.mp (List.nodup_middle.mp hn)).1
        (List.mem_append_left _ hm)
    rw [Recent.lookup_split hk, Recent.without_split hn]
    set d : ResultCache V := { c with hits := c.hits + 1 } with hd
    have hp : (d.promote i).Holds (i :: (as ++ bs)) ((key, v) :: (xs ++ ys)) :=
      (h.count (c.hits + 1) c.misses).promote hv hxs hys
    constructor
    · have he : (d.promote i).entryAt i = some (key, v) := (sameEntries_promote d i).entry i ▸ hv
      obtain ⟨s, hs, -, hsv⟩ := entryAt_eq_some he
      show (d.promote i).slots[i]?.map Slot.value = some v
      rw [hs, Option.map_some, hsv]
    · refine ⟨i :: (as ++ bs), hp.move (sameEntries_modify _ i _ fun _ => rfl)
        (hp.order.modify i _ (.inr fun _ => rfl)) (fun _ => Iff.rfl) hp.entries rfl⟩

theorem Holds.get_none {c : ResultCache V} {is : List Nat} {l : Recent V} (h : c.Holds is l)
    {key : CacheKey} (hg : (c.get key).1 = none) :
    (c.get key).2 = { c with misses := c.misses + 1 } := by
  rw [(h.get key).1] at hg
  have hx : c.index[key]? = none := by
    rw [h.index_none, ← Recent.lookup_eq_none]
    rw [Recent.get] at hg
    cases hl : l.lookup key with
    | none => rfl
    | some v =>
      rw [hl] at hg
      cases hg
  rw [ResultCache.get, hx]

theorem Holds.replace {c : ResultCache V} {is : List Nat} {l : Recent V} (h : c.Holds is l)
    {key : CacheKey} {i : Nat} (hx : c.index[key]? = some i) (v : V) :
    ∃ is', ((c.modify i fun s => { s with value := v }).promote i).Holds is'
      ((key, v) :: l.without key) := by
  obtain ⟨as, bs, xs, w, ys, rfl, rfl, hw, hxs, hys⟩ := h.found hx
  rw [Recent.without_split h.keys_nodup]
  set d := c.modify i fun s => { s with value := v } with hd
  have hn := h.order.not_mem
  have hi : d.entryAt i = some (key, v) := by
    obtain ⟨s, hs, hsk, -⟩ := entryAt_eq_some hw
    rw [hd, entryAt_modify_self, hs, Option.map_some, hsk]
  have hlist : ∀ (js : List Nat) (zs : Recent V), i ∉ js → js.map c.entryAt = zs.map some →
      js.map d.entryAt = zs.map some := by
    intro js zs hj hz
    rw [← hz]
    exact List.map_congr_left fun j hm => entryAt_modify_ne c (fun e : i = j => hj (e ▸ hm)) _
  rw [List.mem_append, not_or] at hn
  have hxs' := hlist as xs hn.1 hxs
  have hys' := hlist bs ys hn.2 hys
  have hd' : d.Holds (as ++ i :: bs) (xs ++ (key, v) :: ys) := by
    refine ⟨⟨h.order.modify i _ (.inr fun _ => rfl), ?_, ?_, ?_⟩, ?_, ?_⟩
    · rw [List.map_append, List.map_cons, hi, hxs', hys', List.map_append, List.map_cons]
    · intro k j
      show c.index[k]? = some j ↔ _
      rw [h.index]
      by_cases hj : i = j
      · subst hj
        rw [hi, hw]
        simp
      · rw [hd, entryAt_modify_ne c hj]
    · show c.index.size = _
      rw [h.size, List.length_append, List.length_append, List.length_cons, List.length_cons]
    · intro j hj
      exact h.every j (by rwa [hd, size_modify] at hj)
    · rw [hd, size_modify]
      exact h.room
  exact ⟨i :: (as ++ bs), hd'.promote hi hxs' hys'⟩

/-- as long as there is room a new key gets a new slot -/
theorem Holds.add {c : ResultCache V} {is : List Nat} {l : Recent V} (h : c.Holds is l)
    {key : CacheKey} (hk : key ∉ l.map Prod.fst) (hroom : c.slots.size < c.capacity)
    {s : Slot V} {v : V} (hs : (s.key, s.value) = (key, v)) :
    { c with slots := c.slots.push s }.Ready c.slots.size (key, v) is l := by
  set d : ResultCache V := { c with slots := c.slots.push s } with hd
  have hslots : ∀ i ∈ is, d.slots[i]? = c.slots[i]? := by
    intro i hi
    have hlt := h.order.chain.lt_size hi
    rw [hd, Array.getElem?_push, if_neg (by omega)]
  have hlinked : d.Linked is l := by
    refine h.toLinked.congr (h.order.congr (fun i hi => ?_) rfl rfl) (fun i hi => ?_) rfl
    · exact congrArg _ (hslots i hi)
    · exact congrArg _ (hslots i hi)
  refine ⟨hlinked, ?_, fun hi => ?_, hk, fun i hi => ?_, ?_⟩
  · rw [entryAt, hd, Array.getElem?_push_size, Option.map_some, hs]
  · exact absurd (h.order.chain.lt_size hi) (by omega)
  · rw [hd, Array.size_push] at hi
    obtain hlt | rfl := Nat.lt_succ_iff_lt_or_eq.mp hi
    · exact List.mem_cons_of_mem _ (h.every i hlt)
    · exact List.mem_cons_self
  · rw [hd, Array.size_push]
    exact hroom

/-- in a full cache a new key gets the slot of the oldest pair, which is gone -/
theorem Holds.evict {c : ResultCache V} {as : List Nat} {i : Nat} {xs : Recent V}
    {e : CacheKey × V} (h : c.Holds (as ++ [i]) (xs ++ [e]))
    {key : CacheKey} (hk : key ∉ (xs ++ [e]).map Prod.fst) {s : Slot V} {v : V}
    (hs : (s.key, s.value) = (key, v)) (hi : c.entryAt i = some e)
    (hxs : as.map c.entryAt = xs.map some) (n : Nat) :
    { (c.unlink i).modify i fun _ => s with
      index := (c.unlink i).index.erase e.1, evictions := n }.Ready i (key, v) as xs := by
  have hun := sameEntries_unlink c i
  have hleave : { c.unlink i with index := (c.unlink i).index.erase e.1 }.Linked
      (as ++ []) (xs ++ []) := h.toLinked.leave hi hxs rfl
  rw [List.append_nil, List.append_nil] at hleave
  have hnot : i ∉ as := by
    have hn := h.order.not_mem
    rwa [List.append_nil] at hn
  have hlt : i < (c.unlink i).slots.size := by
    rw [hun.size]
    exact h.order.chain.lt_size (List.mem_append_right as List.mem_cons_self)
  set d : ResultCache V := { (c.unlink i).modify i fun _ => s with
    index := (c.unlink i).index.erase e.1, evictions := n } with hd
  have hother : ∀ j ∈ as, i ≠ j := fun j hj e => hnot (e ▸ hj)
  have hlinked : d.Linked as xs := by
    refine hleave.congr (hleave.order.congr (fun j hj => ?_) rfl rfl) (fun j hj => ?_) rfl
    · exact linksAt_modify_ne (c.unlink i) (hother j hj) _
    · exact entryAt_modify_ne (c.unlink i) (hother j hj) _
  have hsize : d.slots.size = c.slots.size := by
    show ((c.unlink i).modify i fun _ => s).slots.size = _
    rw [size_modify, hun.size]
  refine ⟨hlinked, ?_, hnot, ?_, fun j hj => ?_, ?_⟩
  · show ((c.unlink i).modify i fun _ => s).entryAt i = _
    rw [entryAt_modify_self, Array.getElem?_eq_getElem hlt]
    exact congrArg some hs
  · rw [List.map_append] at hk
    exact fun hm => hk (List.mem_append_left _ hm)
  · have hm := h.every j (hsize ▸ hj)
    rw [List.mem_append, List.mem_singleton] at hm
    exact List.mem_cons.mpr hm.symm
  · show d.slots.size ≤ (c.unlink i).capacity
    rw [hsize, hun.capacity]
    exact h.room

theorem Holds.occupy {c : ResultCache V} {is : List Nat} {l : Recent V} (h : c.Holds is l)
    (hc : c.capacity ≠ 0) {key : CacheKey} (hk : key ∉ l.map Prod.fst) (value : V) :
    ∃ i d is', c.occupy key value = (some i, d) ∧
      d.Ready i (key, value) is' (if l.length = c.capacity then l.dropLast else l) := by
  rw [ResultCache.occupy]
  by_cases hroom : c.slots.size < c.capacity
  · have hlen : l.length ≠ c.capacity := by
      rw [← h.size_eq]
      omega
    rw [if_pos hroom, if_neg hlen]
    exact ⟨_, _, is, rfl, h.add hk hroom rfl⟩
  · have hlen : l.length = c.capacity := by
      have hle := h.room
      rw [← h.size_eq]
      omega
    rw [if_neg hroom, if_pos hlen, h.order.oldest]
    obtain rfl | ⟨as, i, rfl⟩ := is.eq_nil_or_concat
    · -- a cache with some capacity is not full while it is empty
      have hz := h.length_eq
      rw [List.length_nil] at hz
      omega
    · rw [List.concat_eq_append] at h ⊢
      obtain ⟨xs, e, ys, rfl, hi, hxs, hys⟩ := h.split
      obtain rfl : ys = [] := List.map_eq_nil_iff.mp hys.symm
      obtain ⟨s, hs, rfl⟩ := Option.map_eq_some_iff.mp hi
      rw [List.getLast?_concat, Option.bind_some, hs, Option.map_some, List.dropLast_concat]
      exact ⟨i, _, as, rfl, h.evict hk rfl hi hxs (c.unlink i).evictions.succ⟩

theorem Ready.enter {c : ResultCache V} {i : Nat} {is : List Nat} {l : Recent V}
    {key : CacheKey} {v : V} (h : c.Ready i (key, v) is l) :
    ({ c with index := c.index.insert key i }.pushNewest i).Holds (i :: is) ((key, v) :: l) := by
  have hpush := sameEntries_pushNewest { c with index := c.index.insert key i } i
  refine ⟨h.toLinked.enter h.free h.entry h.fresh, fun j hj => ?_, ?_⟩
  · rw [hpush.size] at hj
    exact h.every j hj
  · rw [hpush.size, hpush.capacity]
    exact h.room

theorem Holds.set {c : ResultCache V} {is : List Nat} {l : Recent V} (h : c.Holds is l)
    (key : CacheKey) (value : V) :
    ∃ is', (c.set key value).Holds is' (Recent.set c.capacity l key value) := by
  rw [ResultCache.set, Recent.set]
  by_cases hc : c.capacity = 0
  · rw [if_pos hc, if_pos hc]
    exact ⟨is, h⟩
  rw [if_neg hc, if_neg hc]
  cases hx : c.index[key]? with
  | some i =>
    have hl : (l.lookup key).isSome := by
      have hcont := h.contains key
      rw [ResultCache.contains, Std.HashMap.contains_eq_isSome_getElem?, hx] at hcont
      exact hcont.symm
    rw [if_pos hl]
    exact h.replace hx value
  | none =>
    have hk := (h.index_none key).mp hx
    obtain ⟨i, d, is', ho, hready⟩ := h.occupy hc hk value
    rw [(Recent.lookup_eq_none l key).mpr hk, if_neg (by nofun), ho]
    refine ⟨i :: is', ?_⟩
    have hd := hready.enter
    split_ifs with hlen
    · rwa [if_pos hlen] at hd
    · rwa [if_neg hlen] at hd

/-! ## the room -/

theorem capacity_get (c : ResultCache V) (key : CacheKey) :
    (c.get key).2.capacity = c.capacity := by
  rw [get]
  cases c.index[key]? with
  | none => rfl
  | some i => exact (sameEntries_promote { c with hits := c.hits + 1 } i).capacity

theorem capacity_occupy (c : ResultCache V) (key : CacheKey) (value : V) :
    (c.occupy key value).2.capacity = c.capacity := by
  rw [occupy]
  split_ifs
  · rfl
  · split
    · rfl
    · next i _ _ => exact (sameEntries_unlink c i).capacity

theorem capacity_set (c : ResultCache V) (key : CacheKey) (value : V) :
    (c.set key value).capacity = c.capacity := by
  rw [set]
  split_ifs
  · rfl
  split
  · next i _ => exact (sameEntries_promote _ i).capacity
  · have hcap := capacity_occupy c key value
    split
    · next i d ho =>
      rw [ho] at hcap
      rw [(sameEntries_pushNewest _ i).capacity]
      exact hcap
    · next d ho =>
      rw [ho] at hcap
      exact hcap

end ResultCache
end PathQuery
