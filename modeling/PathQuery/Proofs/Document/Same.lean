import PathQuery.Proofs.Decimal.Order
import PathQuery.Proofs.Document.PreOrder

/-!
# Equality of documents

Documents are equal as trees, whatever the order of their entries. This is an equality in both
directions, because no map has a key twice, and every document equals itself unless some float in it
is no number.

* `AllNumbers`                        all floats of a document are numbers;
* `keysOnce_ofPairs`                  a map that is put together from entries has no key twice;
* `sameItems_iff`, `sameEntries_iff`  what is compared in lists and in maps;
* `same_self`, `same_comm`            every document equals itself, and in both directions.
-/

namespace PathQuery.Document

def AllNumbers (d : Document) : Prop := ∀ q x, d.Stands q (float x) → x.isNaN = false

theorem AllNumbers.child {d c : Document} {place : Place} (h : d.AllNumbers)
    (hc : (place, c) ∈ d.placed) : c.AllNumbers :=
  fun q x hq => h (place :: q) x (stands_cons.mpr ⟨c, hc, hq⟩)

section
variable {items items' : List Document} {entries entries' : List (String × Document)}
  {key : String} {d : Document}

theorem exists_placed_of_mem (h : d ∈ items) : ∃ place, (place, d) ∈ (list items).placed := by
  obtain ⟨i, hi⟩ := List.mem_iff_getElem?.mp h
  exact ⟨.index i, mem_placed_index.mpr ⟨i, rfl, hi⟩⟩

theorem placed_of_mem (h : (key, d) ∈ entries) : (.key key, d) ∈ (map entries).placed :=
  mem_placed_key.mpr ⟨key, rfl, h⟩

/-! ## keys -/

theorem nodup_put (hkeys : (entries.map Prod.fst).Nodup) (entry : String × Document) :
    ((put entries entry).map Prod.fst).Nodup := by
  unfold put
  split_ifs with hany
  · have hsame : (entries.map fun e => if e.1 == entry.1 then entry else e).map Prod.fst
        = entries.map Prod.fst := by
      rw [List.map_map]
      refine List.map_congr_left fun e _ => ?_
      show (if e.1 == entry.1 then entry else e).1 = e.1
      split_ifs with h
      · exact (beq_iff_eq.mp h).symm
      · rfl
    rwa [hsame]
  · rw [List.map_append, List.map_singleton, List.nodup_append]
    refine ⟨hkeys, List.nodup_singleton _, fun key hkey key' hkey' => ?_⟩
    rw [List.mem_singleton] at hkey'
    rintro rfl
    obtain ⟨e, he, rfl⟩ := List.mem_map.mp hkey
    exact hany (List.any_eq_true.mpr ⟨e, he, beq_iff_eq.mpr hkey'⟩)

theorem mem_put {entry e : String × Document} (h : e ∈ put entries entry) :
    e ∈ entries ∨ e = entry := by
  unfold put at h
  split_ifs at h
  · obtain ⟨e', he', rfl⟩ := List.mem_map.mp h
    split_ifs
    · exact .inr rfl
    · exact .inl he'
  · exact (List.mem_append.mp h).imp_right List.mem_singleton.mp

theorem keysOnce_ofPairs (h : ∀ e ∈ entries, e.2.KeysOnce) : (ofPairs entries).KeysOnce := by
  have hfold (done : List (String × Document)) (hdone : (done.map Prod.fst).Nodup)
      (hvalues : ∀ e ∈ done, e.2.KeysOnce) : (map (entries.foldl put done)).KeysOnce := by
    induction entries generalizing done with
    | nil => exact keysOnce_map hdone hvalues
    | cons entry entries ih =>
      refine ih (fun e he => h e (List.mem_cons_of_mem _ he)) _ (nodup_put hdone entry) ?_
      intro e he
      rcases mem_put he with he | rfl
      · exact hvalues e he
      · exact h e List.mem_cons_self
  exact hfold [] List.nodup_nil nofun

theorem valueOf_iff (hkeys : (entries.map Prod.fst).Nodup) :
    valueOf key entries = some d ↔ (key, d) ∈ entries := by
  unfold valueOf
  constructor
  · intro h
    obtain ⟨e, he, rfl⟩ := Option.map_eq_some_iff.mp h
    have hkey : e.1 = key := by simpa using List.find?_some he
    rw [← hkey]
    exact List.mem_of_find?_eq_some he
  · intro h
    cases hfind : entries.find? (·.1 == key) with
    | none =>
      have hnone := List.find?_eq_none.mp hfind (key, d) h
      exact absurd (beq_self_eq_true key) hnone
    | some e =>
      have hkey : e.1 = key := by simpa using List.find?_some hfind
      have heq : e = (key, d) :=
        List.inj_on_of_nodup_map hkeys (List.mem_of_find?_eq_some hfind) h hkey
      rw [heq]
      rfl

/-! ## equality -/

theorem sameItems_iff : sameItems items items' = true ↔
    List.Forall₂ (fun d d' => d.same d' = true) items items' := by
  induction items generalizing items' with
  | nil =>
    cases items' with
    | nil => exact ⟨fun _ => .nil, fun _ => rfl⟩
    | cons d' rest' => exact ⟨nofun, nofun⟩
  | cons d rest ih =>
    cases items' with
    | nil => exact ⟨nofun, nofun⟩
    | cons d' rest' => rw [sameItems, Bool.and_eq_true, ih, List.forall₂_cons]

theorem sameEntries_iff : sameEntries entries entries' = true ↔
    ∀ e ∈ entries, ∃ d', valueOf e.1 entries' = some d' ∧ e.2.same d' = true := by
  induction entries with
  | nil => exact ⟨fun _ => nofun, fun _ => rfl⟩
  | cons e rest ih =>
    rw [sameEntries, Bool.and_eq_true, ih, List.forall_mem_cons]
    refine and_congr_left fun _ => ?_
    cases valueOf e.1 entries' with
    | none => exact ⟨nofun, nofun⟩
    | some d' => exact ⟨fun h => ⟨d', rfl, h⟩, fun ⟨_, heq, h⟩ => by cases heq; exact h⟩

/-- **Every document equals itself**, unless some float in it is no number. -/
theorem same_self {d : Document} (hkeys : d.KeysOnce) (hnumbers : d.AllNumbers) :
    d.same d = true := by
  cases d with
  | float x =>
    have hx : x.isNaN = false := hnumbers [] x (.here _)
    exact (Decimal.beq_iff hx hx).mpr rfl
  | list items =>
    rw [same, sameItems_iff, List.forall₂_same]
    intro d hd
    obtain ⟨place, hplace⟩ := exists_placed_of_mem hd
    have hlt := height_lt_of_placed hplace
    exact same_self (hkeys.child hplace) (hnumbers.child hplace)
  | map entries =>
    rw [same, beq_self_eq_true, Bool.true_and, sameEntries_iff]
    rintro ⟨key, d⟩ hd
    have hplace := placed_of_mem hd
    have hlt := height_lt_of_placed hplace
    exact ⟨d, (valueOf_iff (hkeys [] entries (.here _))).mpr hd,
      same_self (hkeys.child hplace) (hnumbers.child hplace)⟩
  | _ => simp [same]
termination_by d.height

/-- where each of as many keys is among the others, the others are no more than these -/
theorem keys_back (hkeys : (entries.map Prod.fst).Nodup)
    (hlength : entries.length = entries'.length)
    (hsub : ∀ e ∈ entries, ∃ d', (e.1, d') ∈ entries') (h : (key, d) ∈ entries') :
    ∃ d', (key, d') ∈ entries := by
  have hsubset : entries.map Prod.fst ⊆ entries'.map Prod.fst := by
    intro k hk
    obtain ⟨e, he, rfl⟩ := List.mem_map.mp hk
    obtain ⟨d', hd'⟩ := hsub e he
    exact List.mem_map.mpr ⟨_, hd', rfl⟩
  have hperm : (entries.map Prod.fst).Perm (entries'.map Prod.fst) := by
    refine (hkeys.subperm hsubset).perm_of_length_le ?_
    rw [List.length_map, List.length_map, hlength]
  have hmem : key ∈ entries.map Prod.fst := hperm.mem_iff.mpr (List.mem_map.mpr ⟨_, h, rfl⟩)
  obtain ⟨⟨k, d'⟩, he, rfl⟩ := List.mem_map.mp hmem
  exact ⟨d', he⟩

end

theorem same_symm {d e : Document} (hd : d.KeysOnce) (he : e.KeysOnce) (hdn : d.AllNumbers)
    (hen : e.AllNumbers) (h : d.same e = true) : e.same d = true := by
  cases d with
  | float x =>
    cases e with
    | float y =>
      have hx : x.isNaN = false := hdn [] x (.here _)
      have hy : y.isNaN = false := hen [] y (.here _)
      exact (Decimal.beq_iff hy hx).mpr ((Decimal.beq_iff hx hy).mp h).symm
    | _ => cases h
  | list items =>
    cases e with
    | list items' =>
      rw [same, sameItems_iff] at h ⊢
      refine List.forall₂_iff_get.mpr ⟨h.length_eq.symm, fun i h₁ h₂ => ?_⟩
      obtain ⟨place, hplace⟩ := exists_placed_of_mem (List.get_mem items ⟨i, h₂⟩)
      obtain ⟨place', hplace'⟩ := exists_placed_of_mem (List.get_mem items' ⟨i, h₁⟩)
      have hlt := height_lt_of_placed hplace
      exact same_symm (hd.child hplace) (he.child hplace') (hdn.child hplace) (hen.child hplace')
        ((List.forall₂_iff_get.mp h).2 i h₂ h₁)
    | _ => cases h
  | map entries =>
    cases e with
    | map entries' =>
      have hkeys := hd [] entries (.here _)
      have hkeys' := he [] entries' (.here _)
      rw [same, Bool.and_eq_true, beq_iff_eq, sameEntries_iff] at h ⊢
      obtain ⟨hlength, hsame⟩ := h
      refine ⟨hlength.symm, ?_⟩
      rintro ⟨key, v'⟩ hv'
      obtain ⟨v, hv⟩ := keys_back hkeys hlength
        (fun e he => (hsame e he).imp fun d' h => (valueOf_iff hkeys').mp h.1) hv'
      obtain ⟨w, hw, hvw⟩ := hsame _ hv
      -- the entry that was found under the key is the only one
      obtain rfl : v' = w := Option.some.inj (((valueOf_iff hkeys').mpr hv').symm.trans hw)
      have hplace := placed_of_mem hv
      have hplace' := placed_of_mem hv'
      have hlt := height_lt_of_placed hplace
      exact ⟨v, (valueOf_iff hkeys).mpr hv, same_symm (hd.child hplace) (he.child hplace')
        (hdn.child hplace) (hen.child hplace') hvw⟩
    | _ => cases h
  | _ => cases e <;> simp_all [same]
termination_by d.height

/-- **Documents are equal in both directions.** -/
theorem same_comm {d e : Document} (hd : d.KeysOnce) (he : e.KeysOnce) (hdn : d.AllNumbers)
    (hen : e.AllNumbers) : d.same e = e.same d :=
  Bool.eq_iff_iff.mpr ⟨same_symm hd he hdn hen, same_symm he hd hen hdn⟩

theorem typeName_of_same {d e : Document} (h : d.same e = true) : d.typeName = e.typeName := by
  cases d <;> cases e <;> first | rfl | cases h

end PathQuery.Document
