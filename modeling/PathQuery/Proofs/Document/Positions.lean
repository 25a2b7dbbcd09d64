import PathQuery.Document.Basic
import Mathlib.Data.List.Basic

/-!
# Positions in documents

Every value in a document stands somewhere: under keys and at indices, one inside the other.

* `Place`, `Stands`   where a value stands below another;
* `height`            how far down a document goes;
* `Stands.height_le`  a value that stands deep leaves little room below it.
-/

namespace PathQuery

/-- one step down in a document -/
inductive Place where
  | key (key : String)
  | index (i : ℕ)
  deriving DecidableEq

namespace Document

/-- `d.Stands q v`: below `d`, at the position `q`, stands `v` -/
inductive Stands : Document → List Place → Document → Prop
  | here (d : Document) : Stands d [] d
  | item {items : List Document} {i : ℕ} {d v : Document} {q : List Place} :
      items[i]? = some d → Stands d q v → Stands (list items) (.index i :: q) v
  | entry {entries : List (String × Document)} {key : String} {d v : Document} {q : List Place} :
      (key, d) ∈ entries → Stands d q v → Stands (map entries) (.key key :: q) v

theorem Stands.append {d v w : Document} {q r : List Place} (h : d.Stands q v)
    (h' : v.Stands r w) : d.Stands (q ++ r) w := by
  induction h with
  | here d => exact h'
  | item hd _ ih => exact .item hd (ih h')
  | entry hd _ ih => exact .entry hd (ih h')

theorem Stands.of_getElem {items : List Document} {i : ℕ} {d : Document}
    (h : items[i]? = some d) : (list items).Stands [.index i] d := .item h (.here d)

theorem Stands.of_mem {items : List Document} {d : Document} (h : d ∈ items) :
    ∃ i, (list items).Stands [.index i] d := by
  obtain ⟨i, hi⟩ := List.mem_iff_getElem?.mp h
  exact ⟨i, .of_getElem hi⟩

/-- the elements of a document, if it is a list -/
def items : Document → List Document
  | list items => items
  | _ => []

theorem Stands.of_items {d v : Document} {i : ℕ} (h : d.items[i]? = some v) :
    d.Stands [.index i] v := by
  cases d with
  | list items => exact .of_getElem h
  | _ => cases h

theorem Stands.of_lookup {d v : Document} {key : String} (h : d.lookup key = some v) :
    d.Stands [.key key] v := by
  cases d with
  | map entries =>
    obtain ⟨e, he, rfl⟩ := Option.map_eq_some_iff.mp h
    have hkey : e.1 = key := by simpa using List.find?_some he
    rw [← hkey]
    exact .entry (List.mem_of_find?_eq_some he) (.here e.2)
  | _ => cases h

theorem Stands.of_child {d v : Document} (h : v ∈ d.children) : ∃ place, d.Stands [place] v := by
  cases d with
  | list items =>
    obtain ⟨i, hi⟩ := Stands.of_mem h
    exact ⟨.index i, hi⟩
  | map entries =>
    obtain ⟨⟨key, v⟩, he, rfl⟩ := List.mem_map.mp h
    exact ⟨.key key, .entry he (.here v)⟩
  | _ => cases h

/-! ## height -/

mutual
/-- the number of steps down on the longest way to a value -/
def height : Document → ℕ
  | list items => itemLevels items
  | map entries => entryLevels entries
  | _ => 0

/-- the number of levels that elements of a list add below it -/
def itemLevels : List Document → ℕ
  | [] => 0
  | d :: rest => max (d.height + 1) (itemLevels rest)

/-- the number of levels that entries of a map add below it -/
def entryLevels : List (String × Document) → ℕ
  | [] => 0
  | (_, d) :: rest => max (d.height + 1) (entryLevels rest)
end

theorem height_lt_itemLevels {items : List Document} {d : Document} (h : d ∈ items) :
    d.height < itemLevels items := by
  induction items with
  | nil => cases h
  | cons d' rest ih =>
    rw [itemLevels]
    rcases List.mem_cons.mp h with rfl | h
    · omega
    · have := ih h
      omega

theorem height_lt_entryLevels {entries : List (String × Document)} {key : String} {d : Document}
    (h : (key, d) ∈ entries) : d.height < entryLevels entries := by
  induction entries with
  | nil => cases h
  | cons e rest ih =>
    obtain ⟨key', d'⟩ := e
    rw [entryLevels]
    rcases List.mem_cons.mp h with heq | h
    · cases heq
      omega
    · have := ih h
      omega

theorem itemLevels_eq_zero {items : List Document} : itemLevels items = 0 ↔ items = [] := by
  cases items with
  | nil => exact ⟨fun _ => rfl, fun _ => rfl⟩
  | cons d rest =>
    rw [itemLevels]
    exact ⟨by omega, nofun⟩

theorem entryLevels_eq_zero {entries : List (String × Document)} :
    entryLevels entries = 0 ↔ entries = [] := by
  cases entries with
  | nil => exact ⟨fun _ => rfl, fun _ => rfl⟩
  | cons e rest =>
    rw [entryLevels]
    exact ⟨by omega, nofun⟩

/-- the deeper a value stands, the less there is room for below it -/
theorem Stands.height_le {d v : Document} {q : List Place} (h : d.Stands q v) :
    q.length + v.height ≤ d.height := by
  induction h with
  | here d => exact Nat.le_of_eq (Nat.zero_add _)
  | item hd _ ih =>
    have hlt := height_lt_itemLevels (List.mem_of_getElem? hd)
    rw [height, List.length_cons]
    omega
  | entry hd _ ih =>
    have hlt := height_lt_entryLevels hd
    rw [height, List.length_cons]
    omega

theorem children_eq_nil {d : Document} (h : d.height = 0) : d.children = [] := by
  cases d with
  | list items => exact itemLevels_eq_zero.mp h
  | map entries => exact congrArg (List.map Prod.snd) (entryLevels_eq_zero.mp h)
  | _ => rfl

theorem items_eq_nil {d : Document} (h : d.height = 0) : d.items = [] := by
  cases d with
  | list items => exact itemLevels_eq_zero.mp h
  | _ => rfl

end Document
end PathQuery
