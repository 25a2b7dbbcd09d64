import PathQuery.Cache.Results
import Mathlib.Data.List.Nodup
import Mathlib.Data.List.Perm.Subperm

/-!
# The recency order

The slots of a cache are linked in both directions. This file says which list of slots the links
spell, and what moving a slot does to that list.

* `ResultCache.linksAt`, `ResultCache.entryAt`   the two halves of a slot;
* `ResultCache.Chain`       the links of some slots spell a part of a list, between two neighbours;
* `ResultCache.Order`       the links, the newest and the oldest slot spell a list;
* `Order.unlink`, `Order.pushNewest`, `Order.promote`   how the list changes.
-/

namespace PathQuery
namespace ResultCache

variable {V : Type}

def linksAt (c : ResultCache V) (i : Nat) : Option (Option Nat × Option Nat) :=
  c.slots[i]?.map fun s => (s.newer, s.older)

/-- the key and the value in the slot at `i` -/
def entryAt (c : ResultCache V) (i : Nat) : Option (CacheKey × V) :=
  c.slots[i]?.map fun s => (s.key, s.value)

/-- the slots `is` are linked one after the other, the first to `newer`, the last to `older` -/
def Chain (c : ResultCache V) : (newer : Option Nat) → List Nat → (older : Option Nat) → Prop
  | _, [], _ => True
  | newer, i :: is, older =>
    c.linksAt i = some (newer, is.head?.or older) ∧ c.Chain (some i) is older

/-- the list of slots that the links of a cache spell, the newest first -/
structure Order (c : ResultCache V) (is : List Nat) : Prop where
  nodup : is.Nodup
  chain : c.Chain none is none
  newest : c.newest = is.head?
  oldest : c.oldest = is.getLast?

/-! ## what a change of one slot leaves -/

theorem slots_modify (c : ResultCache V) (i j : Nat) (f : Slot V → Slot V) :
    (c.modify i f).slots[j]? = if i = j then c.slots[j]?.map f else c.slots[j]? := by
  show (c.slots.modify i f)[j]? = _
  rw [Array.getElem?_modify]

@[simp] theorem size_modify (c : ResultCache V) (i : Nat) (f : Slot V → Slot V) :
    (c.modify i f).slots.size = c.slots.size := Array.size_modify

theorem linksAt_modify_ne (c : ResultCache V) {i j : Nat} (h : i ≠ j) (f : Slot V → Slot V) :
    (c.modify i f).linksAt j = c.linksAt j := by
  rw [linksAt, slots_modify, if_neg h]
  rfl

theorem linksAt_modify_self (c : ResultCache V) (i : Nat) (f : Slot V → Slot V) :
    (c.modify i f).linksAt i = c.slots[i]?.map fun s => ((f s).newer, (f s).older) := by
  rw [linksAt, slots_modify, if_pos rfl, Option.map_map]
  rfl

theorem entryAt_modify_ne (c : ResultCache V) {i j : Nat} (h : i ≠ j) (f : Slot V → Slot V) :
    (c.modify i f).entryAt j = c.entryAt j := by
  rw [entryAt, slots_modify, if_neg h]
  rfl

theorem entryAt_modify_self (c : ResultCache V) (i : Nat) (f : Slot V → Slot V) :
    (c.modify i f).entryAt i = c.slots[i]?.map fun s => ((f s).key, (f s).value) := by
  rw [entryAt, slots_modify, if_pos rfl, Option.map_map]
  rfl

theorem entryAt_modify (c : ResultCache V) (i j : Nat) (f : Slot V → Slot V)
    (hf : ∀ s, ((f s).key, (f s).value) = (s.key, s.value)) :
    (c.modify i f).entryAt j = c.entryAt j := by
  by_cases h : i = j
  · subst h
    rw [entryAt_modify_self]
    exact congrArg (fun g => Option.map g c.slots[i]?) (funext hf)
  · exact entryAt_modify_ne c h f

theorem linksAt_eq_some {c : ResultCache V} {i : Nat} {newer older : Option Nat}
    (h : c.linksAt i = some (newer, older)) :
    ∃ s, c.slots[i]? = some s ∧ s.newer = newer ∧ s.older = older := by
  obtain ⟨s, hs, hl⟩ := Option.map_eq_some_iff.mp h
  exact ⟨s, hs, (Prod.mk.injEq ..).mp hl⟩

theorem entryAt_eq_some {c : ResultCache V} {i : Nat} {key : CacheKey} {v : V}
    (h : c.entryAt i = some (key, v)) :
    ∃ s, c.slots[i]? = some s ∧ s.key = key ∧ s.value = v := by
  obtain ⟨s, hs, he⟩ := Option.map_eq_some_iff.mp h
  exact ⟨s, hs, (Prod.mk.injEq ..).mp he⟩

theorem linksAt_lt {c : ResultCache V} {i : Nat} {p : Option Nat × Option Nat}
    (h : c.linksAt i = some p) : i < c.slots.size := by
  by_contra hi
  rw [linksAt, Array.getElem?_eq_none (by omega)] at h
  cases h

theorem entryAt_lt {c : ResultCache V} {i : Nat} {e : CacheKey × V}
    (h : c.entryAt i = some e) : i < c.slots.size := by
  by_contra hi
  rw [entryAt, Array.getElem?_eq_none (by omega)] at h
  cases h

/-! ## chains -/

theorem Chain.congr {c d : ResultCache V} {is : List Nat} {newer older : Option Nat}
    (h : c.Chain newer is older) (hd : ∀ i ∈ is, d.linksAt i = c.linksAt i) :
    d.Chain newer is older := by
  induction is generalizing newer with
  | nil => trivial
  | cons i is ih =>
    obtain ⟨hi, his⟩ := h
    refine ⟨?_, ih his fun j hj => hd j (List.mem_cons_of_mem i hj)⟩
    rw [hd i List.mem_cons_self, hi]

theorem chain_append (c : ResultCache V) (newer older : Option Nat) (as bs : List Nat) :
    c.Chain newer (as ++ bs) older ↔
      c.Chain newer as (bs.head?.or older) ∧ c.Chain (as.getLast?.or newer) bs older := by
  induction as generalizing newer with
  | nil => simp [Chain]
  | cons a as ih =>
    have hhead : ((as ++ bs).head?).or older = as.head?.or (bs.head?.or older) := by
      rw [List.head?_append, Option.or_assoc]
    have hlast : ((a :: as).getLast?).or newer = as.getLast?.or (some a) := by
      cases as <;> simp [List.getLast?_cons]
    rw [List.cons_append, Chain, Chain, ih, hhead, hlast, and_assoc]

theorem chain_append_cons (c : ResultCache V) (newer older : Option Nat) (as bs : List Nat)
    (i : Nat) :
    c.Chain newer (as ++ i :: bs) older ↔
      c.Chain newer as (some i) ∧
        c.linksAt i = some (as.getLast?.or newer, bs.head?.or older) ∧
        c.Chain (some i) bs older := by
  rw [chain_append, Chain]
  rfl

theorem Chain.lt_size {c : ResultCache V} {is : List Nat} {newer older : Option Nat}
    (h : c.Chain newer is older) {i : Nat} (hi : i ∈ is) : i < c.slots.size := by
  obtain ⟨as, bs, rfl⟩ := List.append_of_mem hi
  rw [chain_append_cons] at h
  exact linksAt_lt h.2.1

/-! ## linking two neighbours -/

theorem Chain.linkNewer {c : ResultCache V} {as : List Nat} {newer old : Option Nat}
    (h : c.Chain newer as old) (hn : as.Nodup) (older : Option Nat) :
    (c.linkNewer as.getLast? older).Chain newer as older := by
  obtain rfl | ⟨as, j, rfl⟩ := as.eq_nil_or_concat
  · trivial
  · rw [List.concat_eq_append] at h hn ⊢
    rw [chain_append_cons] at h
    obtain ⟨has, hj, -⟩ := h
    have hj' : j ∉ as := fun hm => List.disjoint_of_nodup_append hn hm List.mem_cons_self
    rw [List.getLast?_concat]
    show (c.modify j fun s => { s with older := older }).Chain newer (as ++ [j]) older
    rw [chain_append_cons]
    refine ⟨has.congr fun i hi => ?_, ?_, trivial⟩
    · exact linksAt_modify_ne c (fun e : j = i => hj' (e ▸ hi)) _
    · rw [linksAt_modify_self]
      obtain ⟨s, hs, hsn, -⟩ := linksAt_eq_some hj
      rw [hs, Option.map_some, hsn]
      rfl

theorem Chain.linkOlder {c : ResultCache V} {bs : List Nat} {old older : Option Nat}
    (h : c.Chain old bs older) (hn : bs.Nodup) (newer : Option Nat) :
    (c.linkOlder newer bs.head?).Chain newer bs older := by
  cases bs with
  | nil => trivial
  | cons j bs =>
    obtain ⟨hj, hbs⟩ := h
    show (c.modify j fun s => { s with newer := newer }).Chain newer (j :: bs) older
    refine ⟨?_, hbs.congr fun i hi => ?_⟩
    · rw [linksAt_modify_self]
      obtain ⟨s, hs, -, hso⟩ := linksAt_eq_some hj
      rw [hs, Option.map_some, hso]
    · exact linksAt_modify_ne c (fun e : j = i => (List.nodup_cons.mp hn).1 (e ▸ hi)) _

theorem linksAt_linkNewer {c : ResultCache V} {newer : Option Nat} {i : Nat} (h : newer ≠ some i)
    (older : Option Nat) : (c.linkNewer newer older).linksAt i = c.linksAt i := by
  cases newer with
  | none => rfl
  | some j => exact linksAt_modify_ne c (fun e : j = i => h (congrArg some e)) _

theorem linksAt_linkOlder {c : ResultCache V} {older : Option Nat} {i : Nat} (h : older ≠ some i)
    (newer : Option Nat) : (c.linkOlder newer older).linksAt i = c.linksAt i := by
  cases older with
  | none => rfl
  | some j => exact linksAt_modify_ne c (fun e : j = i => h (congrArg some e)) _

/-- linking neighbours leaves the keys and values, the room and the index alone -/
structure SameEntries (c d : ResultCache V) : Prop where
  entry : ∀ i, d.entryAt i = c.entryAt i
  size : d.slots.size = c.slots.size
  index : d.index = c.index
  capacity : d.capacity = c.capacity

theorem SameEntries.refl (c : ResultCache V) : SameEntries c c := ⟨fun _ => rfl, rfl, rfl, rfl⟩

theorem SameEntries.trans {b c d : ResultCache V} (h : SameEntries b c) (h' : SameEntries c d) :
    SameEntries b d :=
  ⟨fun i => (h'.entry i).trans (h.entry i), h'.size.trans h.size, h'.index.trans h.index,
    h'.capacity.trans h.capacity⟩

theorem sameEntries_modify (c : ResultCache V) (i : Nat) (f : Slot V → Slot V)
    (hf : ∀ s, ((f s).key, (f s).value) = (s.key, s.value)) : SameEntries c (c.modify i f) :=
  ⟨fun j => entryAt_modify c i j f hf, size_modify c i f, rfl, rfl⟩

theorem sameEntries_linkNewer (c : ResultCache V) (newer older : Option Nat) :
    SameEntries c (c.linkNewer newer older) := by
  cases newer with
  | none => exact ⟨fun _ => rfl, rfl, rfl, rfl⟩
  | some j => exact sameEntries_modify c j _ fun _ => rfl

theorem sameEntries_linkOlder (c : ResultCache V) (newer older : Option Nat) :
    SameEntries c (c.linkOlder newer older) := by
  cases older with
  | none => exact ⟨fun _ => rfl, rfl, rfl, rfl⟩
  | some j => exact sameEntries_modify c j _ fun _ => rfl

theorem sameEntries_unlink (c : ResultCache V) (i : Nat) : SameEntries c (c.unlink i) := by
  rw [unlink]
  split
  · next s _ =>
    refine (sameEntries_linkNewer c s.newer s.older).trans ?_
    refine (sameEntries_linkOlder _ s.newer s.older).trans ?_
    exact sameEntries_modify _ i _ fun _ => rfl
  · exact SameEntries.refl c

theorem sameEntries_pushNewest (c : ResultCache V) (i : Nat) : SameEntries c (c.pushNewest i) := by
  have h : SameEntries c (c.modify i fun s => { s with newer := none, older := c.newest }) :=
    sameEntries_modify c i _ fun _ => rfl
  refine h.trans ?_
  rw [pushNewest]
  cases c.newest with
  | none => exact ⟨fun _ => rfl, rfl, rfl, rfl⟩
  | some j =>
    obtain ⟨he, hs, hx, hc⟩ := sameEntries_modify
      (c.modify i fun s => { s with newer := none, older := some j }) j
      (fun s => { s with newer := some i }) fun _ => rfl
    exact ⟨he, hs, hx, hc⟩

theorem sameEntries_promote (c : ResultCache V) (i : Nat) : SameEntries c (c.promote i) := by
  rw [promote]
  split_ifs
  · exact SameEntries.refl c
  · exact (sameEntries_unlink c i).trans (sameEntries_pushNewest _ i)

/-! ## moving a slot -/

theorem Order.congr {c d : ResultCache V} {is : List Nat} (h : c.Order is)
    (hl : ∀ i ∈ is, d.linksAt i = c.linksAt i) (hn : d.newest = c.newest)
    (ho : d.oldest = c.oldest) : d.Order is :=
  ⟨h.nodup, h.chain.congr hl, hn.trans h.newest, ho.trans h.oldest⟩

theorem Order.not_mem {c : ResultCache V} {as bs : List Nat} {i : Nat}
    (h : c.Order (as ++ i :: bs)) : i ∉ as ++ bs :=
  (List.nodup_cons.mp (List.nodup_middle.mp h.nodup)).1

/-- what is in the slots does not matter, nor what is in a slot that is not linked -/
theorem Order.modify {c : ResultCache V} {is : List Nat} (h : c.Order is) (i : Nat)
    (f : Slot V → Slot V)
    (hf : i ∉ is ∨ ∀ s, ((f s).newer, (f s).older) = (s.newer, s.older)) :
    (c.modify i f).Order is := by
  refine h.congr (fun j hj => ?_) rfl rfl
  by_cases hij : i = j
  · subst hij
    rw [linksAt_modify_self]
    obtain hi | hf := hf
    · exact absurd hj hi
    · exact congrArg (fun g => Option.map g c.slots[i]?) (funext hf)
  · exact linksAt_modify_ne c hij f

/-- the newest slot, once the neighbours of a slot are linked to each other -/
theorem newest_links {c : ResultCache V} {as bs : List Nat} {i : Nat}
    (h : c.newest = (as ++ i :: bs).head?) :
    ((c.linkNewer as.getLast? bs.head?).linkOlder as.getLast? bs.head?).newest =
      (as ++ bs).head? := by
  have hnewest : ((c.linkNewer as.getLast? bs.head?).linkOlder as.getLast? bs.head?).newest =
      (c.linkNewer as.getLast? bs.head?).newest := by
    cases bs <;> rfl
  rw [hnewest]
  obtain rfl | ⟨as, j, rfl⟩ := as.eq_nil_or_concat
  · rfl
  · rw [List.concat_eq_append, List.getLast?_concat]
    show c.newest = _
    rw [h]
    cases as <;> rfl

theorem oldest_links {c : ResultCache V} {as bs : List Nat} {i : Nat}
    (h : c.oldest = (as ++ i :: bs).getLast?) :
    ((c.linkNewer as.getLast? bs.head?).linkOlder as.getLast? bs.head?).oldest =
      (as ++ bs).getLast? := by
  cases bs with
  | nil =>
    rw [List.append_nil]
    rfl
  | cons j bs =>
    have holdest : (c.linkNewer as.getLast? (some j)).oldest = c.oldest := by
      cases as.getLast? <;> rfl
    show (c.linkNewer as.getLast? (some j)).oldest = _
    rw [holdest, h]
    simp [List.getLast?_cons]

/-- an ordered cache without the slot at `i`, which may then hold anything -/
theorem Order.unlink {c : ResultCache V} {as bs : List Nat} {i : Nat}
    (h : c.Order (as ++ i :: bs)) : (c.unlink i).Order (as ++ bs) := by
  have hi := h.not_mem
  obtain ⟨hn, hc, hnew, hold⟩ := h
  have hab : (as ++ bs).Nodup := (List.nodup_cons.mp (List.nodup_middle.mp hn)).2
  obtain ⟨hna, hnb, hdis⟩ := List.nodup_append'.mp hab
  rw [chain_append_cons] at hc
  obtain ⟨has, hlinks, hbs⟩ := hc
  rw [Option.or_none, Option.or_none] at hlinks
  obtain ⟨s, hs, hsn, hso⟩ := linksAt_eq_some hlinks
  -- the neighbours are not on each other's side, so each of the links changes one side only
  have hlast : ∀ k ∈ bs, as.getLast? ≠ some k := fun k hk e =>
    hdis (List.mem_of_getLast? e) hk
  have hfirst : ∀ k ∈ as, bs.head? ≠ some k := fun k hk e =>
    hdis hk (List.mem_of_head? e)
  rw [ResultCache.unlink, hs]
  simp only []
  rw [hsn, hso]
  set d := (c.linkNewer as.getLast? bs.head?).linkOlder as.getLast? bs.head? with hd
  have hchain : d.Chain none (as ++ bs) none := by
    rw [chain_append, Option.or_none, Option.or_none]
    constructor
    · exact (has.linkNewer hna bs.head?).congr fun k hk => linksAt_linkOlder (hfirst k hk) _
    · exact Chain.linkOlder (hbs.congr fun k hk => linksAt_linkNewer (hlast k hk) _) hnb _
  exact ⟨hab, hchain.congr fun k hk => linksAt_modify_ne d (fun e : i = k => hi (e ▸ hk)) _,
    newest_links hnew, oldest_links hold⟩

theorem Order.pushNewest {c : ResultCache V} {is : List Nat} {i : Nat} (h : c.Order is)
    (hi : i ∉ is) (hs : i < c.slots.size) : (c.pushNewest i).Order (i :: is) := by
  obtain ⟨hn, hc, hnew, hold⟩ := h
  set d := c.modify i fun s => { s with newer := none, older := c.newest } with hd
  have hdi : d.linksAt i = some (none, is.head?) := by
    rw [hd, linksAt_modify_self, Array.getElem?_eq_getElem hs, hnew]
    rfl
  have hdc : d.Chain none is none :=
    hc.congr fun k hk => linksAt_modify_ne c (fun e : i = k => hi (e ▸ hk)) _
  have hfirst : is.head? ≠ some i := fun e => hi (List.mem_of_head? e)
  -- the step is the one that links an older neighbour, but for the two ends of the order
  have hlinks : ∀ k, (c.pushNewest i).linksAt k = (d.linkOlder (some i) is.head?).linksAt k := by
    intro k
    rw [ResultCache.pushNewest, hd, hnew]
    cases is <;> rfl
  have hchain : (d.linkOlder (some i) is.head?).Chain none (i :: is) none := by
    refine ⟨?_, hdc.linkOlder hn (some i)⟩
    rw [linksAt_linkOlder hfirst, hdi, Option.or_none]
  refine ⟨List.nodup_cons.mpr ⟨hi, hn⟩, hchain.congr fun k _ => hlinks k, rfl, ?_⟩
  have holdest : (c.pushNewest i).oldest = c.oldest.or (some i) := by
    rw [ResultCache.pushNewest]
    cases c.newest <;> rfl
  rw [holdest, hold]
  cases is <;> simp [List.getLast?_cons]

theorem Order.promote {c : ResultCache V} {as bs : List Nat} {i : Nat}
    (h : c.Order (as ++ i :: bs)) : (c.promote i).Order (i :: (as ++ bs)) := by
  rw [ResultCache.promote]
  split_ifs with hi
  · cases as with
    | nil => exact h
    | cons a as =>
      -- the newest slot is not found a second time behind the first one
      have ha : a = i := Option.some.inj (h.newest.symm.trans hi)
      rw [ha] at h
      exact absurd List.mem_append_cons_self (List.nodup_cons.mp h.nodup).1
  · refine h.unlink.pushNewest h.not_mem ?_
    rw [(sameEntries_unlink c i).size]
    exact h.chain.lt_size List.mem_append_cons_self

/-! ## walking along the order -/

theorem Order.length_le {c : ResultCache V} {is : List Nat} (h : c.Order is) :
    is.length ≤ c.slots.size := by
  have hsub : is ⊆ List.range c.slots.size := fun i hi => List.mem_range.mpr (h.chain.lt_size hi)
  have hle := (List.subperm_of_subset h.nodup hsub).length_le
  rwa [List.length_range] at hle

/-- the first slot of a chain that goes on to the end of the order -/
theorem Chain.first {c : ResultCache V} {is : List Nat} {i : Nat} {newer : Option Nat}
    (h : c.Chain newer (i :: is) none) :
    ∃ s, c.slots[i]? = some s ∧ s.older = is.head? ∧ c.Chain (some i) is none := by
  obtain ⟨hi, his⟩ := h
  rw [Option.or_none] at hi
  obtain ⟨s, hs, -, hso⟩ := linksAt_eq_some hi
  exact ⟨s, hs, hso, his⟩

/-- the walk from there meets the slots of the chain and no others -/
theorem Chain.slotsFrom {c : ResultCache V} {is : List Nat} {newer : Option Nat}
    (h : c.Chain newer is none) {tries : Nat} (ht : is.length ≤ tries) :
    (c.slotsFrom tries is.head?).map some = is.map (c.slots[·]?) := by
  induction is generalizing newer tries with
  | nil => cases tries <;> rfl
  | cons i is ih =>
    obtain ⟨s, hs, hso, his⟩ := h.first
    cases tries with
    | zero => exact absurd ht (Nat.not_succ_le_zero _)
    | succ tries =>
      rw [List.length_cons] at ht
      rw [List.head?_cons, ResultCache.slotsFrom, hs, List.map_cons, List.map_cons, hs, hso,
        ih his (Nat.le_of_succ_le_succ ht)]

end ResultCache
end PathQuery
