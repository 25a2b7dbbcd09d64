import PathQuery.Proofs.Document.Positions
import Mathlib.Data.List.Nodup

/-!
# Document order

The positions below a document can be put in a row: every position before those below it, and what
stands below one child before what stands below the next.

* `placed`              the children of a document, each with its place;
* `descendants`         all that stands below a document, in document order;
* `mem_descendants`           nothing is left out of it, and nothing else is in it;
* `Precedes`            document order by itself;
* `descendants_pairwise`      the row is in that order;
* `Precedes.irrefl`     where no map has a key twice, no position comes before itself.
-/

namespace PathQuery.Document

/-- the children of a document with their places, in document order -/
def placed : Document → List (Place × Document)
  | list items => items.zipIdx.map fun e => (.index e.2, e.1)
  | map entries => entries.map fun e => (.key e.1, e.2)
  | _ => []

/-- a child at its place, in front of what stands below it -/
def standing (place : Place) (d : Document) (below : List (List Place × Document)) :
    List (List Place × Document) :=
  ([place], d) :: below.map fun e => (place :: e.1, e.2)

mutual
def descendants : Document → List (List Place × Document)
  | list items => itemDescendants 0 items
  | map entries => entryDescendants entries
  | _ => []

/-- the elements of a list from the index `i` on, and what stands below them -/
def itemDescendants (i : ℕ) : List Document → List (List Place × Document)
  | [] => []
  | d :: rest => standing (.index i) d d.descendants ++ itemDescendants (i + 1) rest

/-- the values of a map, and what stands below them -/
def entryDescendants : List (String × Document) → List (List Place × Document)
  | [] => []
  | (key, d) :: rest => standing (.key key) d d.descendants ++ entryDescendants rest
end

/-! ## children -/

theorem itemDescendants_eq (i : ℕ) (items : List Document) :
    itemDescendants i items = (items.zipIdx i).flatMap fun e => standing (.index e.2) e.1 e.1.descendants := by
  induction items generalizing i with
  | nil => rfl
  | cons d rest ih => rw [itemDescendants, ih, List.zipIdx_cons, List.flatMap_cons]

theorem entryDescendants_eq (entries : List (String × Document)) :
    entryDescendants entries = entries.flatMap fun e => standing (.key e.1) e.2 e.2.descendants := by
  induction entries with
  | nil => rfl
  | cons e rest ih => rw [entryDescendants, ih, List.flatMap_cons]

/-- lists and maps alike: the children, each in front of what stands below it -/
theorem descendants_eq (d : Document) :
    d.descendants = d.placed.flatMap fun e => standing e.1 e.2 e.2.descendants := by
  cases d with
  | list items => rw [descendants, itemDescendants_eq, placed, List.flatMap_map]
  | map entries => rw [descendants, entryDescendants_eq, placed, List.flatMap_map]
  | _ => rfl

theorem mem_placed_index {items : List Document} {place : Place} {d : Document} :
    (place, d) ∈ (list items).placed ↔ ∃ i, place = .index i ∧ items[i]? = some d := by
  rw [placed, List.mem_map]
  constructor
  · rintro ⟨⟨d, i⟩, h, heq⟩
    cases heq
    exact ⟨i, rfl, List.mem_zipIdx_iff_getElem?.mp h⟩
  · rintro ⟨i, rfl, h⟩
    exact ⟨(d, i), List.mem_zipIdx_iff_getElem?.mpr h, rfl⟩

theorem mem_placed_key {entries : List (String × Document)} {place : Place} {d : Document} :
    (place, d) ∈ (map entries).placed ↔ ∃ key, place = .key key ∧ (key, d) ∈ entries := by
  rw [placed, List.mem_map]
  constructor
  · rintro ⟨⟨key, d⟩, h, heq⟩
    cases heq
    exact ⟨key, rfl, h⟩
  · rintro ⟨key, rfl, h⟩
    exact ⟨(key, d), h, rfl⟩

theorem stands_nil {d v : Document} : d.Stands [] v ↔ v = d := by
  constructor
  · intro h
    cases h
    rfl
  · rintro rfl
    exact .here v

theorem stands_cons {d v : Document} {place : Place} {q : List Place} :
    d.Stands (place :: q) v ↔ ∃ c, (place, c) ∈ d.placed ∧ c.Stands q v := by
  constructor
  · intro h
    cases h with
    | item hc h => exact ⟨_, mem_placed_index.mpr ⟨_, rfl, hc⟩, h⟩
    | entry hc h => exact ⟨_, mem_placed_key.mpr ⟨_, rfl, hc⟩, h⟩
  · rintro ⟨c, hc, h⟩
    cases d with
    | list items =>
      obtain ⟨i, rfl, hi⟩ := mem_placed_index.mp hc
      exact .item hi h
    | map entries =>
      obtain ⟨key, rfl, hkey⟩ := mem_placed_key.mp hc
      exact .entry hkey h
    | _ => cases hc

theorem height_lt_of_placed {d c : Document} {place : Place} (h : (place, c) ∈ d.placed) :
    c.height < d.height := by
  have hstands : d.Stands [place] c := stands_cons.mpr ⟨c, h, .here c⟩
  have hle := hstands.height_le
  rw [List.length_singleton] at hle
  omega

theorem mem_standing {place : Place} {d v : Document} {found : List (List Place × Document)}
    {p : List Place} : (p, v) ∈ standing place d found
      ↔ ∃ q, p = place :: q ∧ (q = [] ∧ v = d ∨ (q, v) ∈ found) := by
  rw [standing, List.mem_cons, List.mem_map]
  constructor
  · rintro (heq | ⟨⟨q, w⟩, hmem, heq⟩)
    · cases heq
      exact ⟨[], rfl, .inl ⟨rfl, rfl⟩⟩
    · cases heq
      exact ⟨q, rfl, .inr hmem⟩
  · rintro ⟨q, rfl, ⟨rfl, rfl⟩ | hmem⟩
    · exact .inl rfl
    · exact .inr ⟨(q, v), hmem, rfl⟩

/-- **What stands below a document is what stands in it, but for the document itself.** -/
theorem mem_descendants {d v : Document} {q : List Place} :
    (q, v) ∈ d.descendants ↔ q ≠ [] ∧ d.Stands q v := by
  rw [descendants_eq, List.mem_flatMap]
  constructor
  · rintro ⟨⟨place, c⟩, hc, hmem⟩
    obtain ⟨r, rfl, ⟨rfl, rfl⟩ | hr⟩ := mem_standing.mp hmem
    · exact ⟨List.cons_ne_nil _ _, stands_cons.mpr ⟨_, hc, .here _⟩⟩
    · have hlt := height_lt_of_placed hc
      exact ⟨List.cons_ne_nil _ _, stands_cons.mpr ⟨c, hc, (mem_descendants.mp hr).2⟩⟩
  · rintro ⟨hq, h⟩
    cases q with
    | nil => exact absurd rfl hq
    | cons place r =>
      obtain ⟨c, hc, h⟩ := stands_cons.mp h
      have hlt := height_lt_of_placed hc
      refine ⟨(place, c), hc, mem_standing.mpr ⟨r, rfl, ?_⟩⟩
      by_cases hr : r = []
      · subst hr
        exact .inl ⟨rfl, stands_nil.mp h⟩
      · exact .inr (mem_descendants.mpr ⟨hr, h⟩)
termination_by d.height

/-! ## order -/

/-- `d.Precedes p q`: in document order the position `p` comes before `q` -/
inductive Precedes : Document → List Place → List Place → Prop
  /-- a value comes before all that stands below it -/
  | above (d : Document) {q : List Place} : q ≠ [] → Precedes d [] q
  /-- what stands in one child comes before what stands in a later one -/
  | beside {d : Document} {place place' : Place} (p q : List Place) :
      [place, place'].Sublist (d.placed.map Prod.fst) → Precedes d (place :: p) (place' :: q)
  /-- inside one child its own order counts -/
  | inside {d c : Document} {place : Place} {p q : List Place} :
      (place, c) ∈ d.placed → Precedes c p q → Precedes d (place :: p) (place :: q)

theorem standing_pairwise {d c : Document} {place : Place} {found : List (List Place × Document)}
    (hc : (place, c) ∈ d.placed) (hne : ∀ e ∈ found, e.1 ≠ [])
    (h : found.Pairwise fun e e' => c.Precedes e.1 e'.1) :
    (standing place c found).Pairwise fun e e' => d.Precedes e.1 e'.1 := by
  rw [standing, List.pairwise_cons, List.pairwise_map]
  constructor
  · intro e he
    obtain ⟨e', he', rfl⟩ := List.mem_map.mp he
    exact .inside hc (.above c (hne e' he'))
  · exact h.imp fun h => .inside hc h

/-- **What stands below a document is in document order.** -/
theorem descendants_pairwise (d : Document) :
    d.descendants.Pairwise fun e e' => d.Precedes e.1 e'.1 := by
  rw [descendants_eq, List.pairwise_flatMap]
  constructor
  · rintro ⟨place, c⟩ hc
    have hlt := height_lt_of_placed hc
    exact standing_pairwise hc (fun e he => (mem_descendants.mp he).1) c.descendants_pairwise
  · rw [List.pairwise_iff_forall_sublist]
    rintro ⟨place, c⟩ ⟨place', c'⟩ hsub ⟨p, v⟩ hmem ⟨p', v'⟩ hmem'
    obtain ⟨q, rfl, -⟩ := mem_standing.mp hmem
    obtain ⟨q', rfl, -⟩ := mem_standing.mp hmem'
    exact .beside q q' (hsub.map Prod.fst)
termination_by d.height

/-- no map in the document has a key twice -/
def KeysOnce (d : Document) : Prop :=
  ∀ q entries, d.Stands q (map entries) → (entries.map Prod.fst).Nodup

theorem keysOnce_leaf {d : Document} (h : d.placed = []) : d.KeysOnce := by
  intro q entries hq
  cases q with
  | nil =>
    obtain rfl := stands_nil.mp hq
    rw [List.map_eq_nil_iff.mp h]
    exact List.nodup_nil
  | cons place q =>
    obtain ⟨c, hc, -⟩ := stands_cons.mp hq
    rw [h] at hc
    cases hc

theorem keysOnce_list {items : List Document} (h : ∀ d ∈ items, d.KeysOnce) :
    (list items).KeysOnce := by
  intro q entries hq
  cases hq with
  | item hd hq => exact h _ (List.mem_of_getElem? hd) _ entries hq

theorem keysOnce_map {entries : List (String × Document)} (hkeys : (entries.map Prod.fst).Nodup)
    (h : ∀ e ∈ entries, e.2.KeysOnce) : (map entries).KeysOnce := by
  intro q entries' hq
  cases hq with
  | here => exact hkeys
  | entry hd hq => exact h _ hd _ entries' hq

theorem KeysOnce.child {d c : Document} {place : Place} (h : d.KeysOnce)
    (hc : (place, c) ∈ d.placed) : c.KeysOnce :=
  fun q entries hq => h (place :: q) entries (stands_cons.mpr ⟨c, hc, hq⟩)

theorem KeysOnce.places {d : Document} (h : d.KeysOnce) : (d.placed.map Prod.fst).Nodup := by
  cases d with
  | list items =>
    have hindex : (list items).placed.map Prod.fst = (items.zipIdx.map Prod.snd).map Place.index := by
      rw [placed, List.map_map, List.map_map]
      rfl
    rw [hindex]
    refine List.Nodup.map (fun i j hij => Place.index.inj hij) ?_
    rw [List.zipIdx_map_snd]
    exact List.nodup_range'
  | map entries =>
    have hkey : (map entries).placed.map Prod.fst = (entries.map Prod.fst).map Place.key := by
      rw [placed, List.map_map, List.map_map]
      rfl
    rw [hkey]
    exact (h [] entries (.here _)).map fun i j hij => Place.key.inj hij
  | _ => exact List.nodup_nil

theorem Precedes.irrefl {d : Document} (hd : d.KeysOnce) (q : List Place) : ¬d.Precedes q q := by
  induction q generalizing d with
  | nil =>
    rintro (⟨_, hne⟩ | _)
    exact hne rfl
  | cons place q ih =>
    intro h
    cases h with
    | beside _ _ hsub =>
      have htwice : [place, place].Nodup := hd.places.sublist hsub
      simp at htwice
    | inside hc h => exact ih (hd.child hc) h

theorem nodup_of_pairwise {d : Document} (hd : d.KeysOnce) {found : List (List Place × Document)}
    (h : found.Pairwise fun e e' => d.Precedes e.1 e'.1) : (found.map Prod.fst).Nodup := by
  rw [List.Nodup, List.pairwise_map]
  refine h.imp fun {e e'} hlt heq => ?_
  rw [heq] at hlt
  exact Precedes.irrefl hd e'.1 hlt

end PathQuery.Document
