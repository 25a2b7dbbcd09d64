import PathQuery.Proofs.Document.PreOrder
import PathQuery.Proofs.Path.Reach

/-!
# Recursive descent in document order

Descent finds what stands below a value, down to the limit, in document order. Under a name it
finds those of the same values that stand under that key.

* `endsAt`                    the positions that are sought;
* `Scope.lower`               the scope of a value so many levels down;
* `sighted`                   the cursors at the positions of a row that are sought and in reach;
* `descend_eq`                descent through all that stands below a value;
* `descend_document_order`    what descent finds, said by positions.
-/

namespace PathQuery

/-- whether what stands at a position is sought: anything, or what stands under one key -/
def endsAt (sought : Option String) (q : List Place) : Bool :=
  sought.all fun name => decide (q.getLast? = some (.key name))

/-- the scope of a value so many levels down -/
def Scope.lower (s : Scope) (n : ℕ) : Scope := { s with depth := s.depth + n }

/-- the cursors at those positions of a row that are sought and that the limit leaves in reach -/
def sighted (sought : Option String) (scope : Scope) (row : List (List Place × Document)) :
    List Cursor :=
  (row.filter fun e => decide (scope.depth + e.1.length ≤ scope.maxDepth) && endsAt sought e.1).map
    fun e => ⟨e.2, scope.lower e.1.length⟩

/-! ## one level -/

theorem endsAt_index (sought : Option String) (i : ℕ) :
    endsAt sought [.index i] = sought.isNone := by
  cases sought <;> simp [endsAt]

theorem endsAt_key (sought : Option String) (key : String) :
    endsAt sought [.key key] = isSought sought key := by
  cases sought with
  | none => rfl
  | some name => simp [endsAt, isSought, eq_comm, Bool.beq_eq_decide_eq]

/-- the last step of a position does not change when the position is seen from further up -/
theorem endsAt_cons (sought : Option String) (place : Place) {q : List Place} (hq : q ≠ []) :
    endsAt sought (place :: q) = endsAt sought q := by
  obtain ⟨place', q, rfl⟩ := List.exists_cons_of_ne_nil hq
  cases sought <;> simp [endsAt, List.getLast?_cons_cons]

theorem descendItems_eq (sought : Option String) (inner : Scope) (items : List Document) (i : ℕ) :
    descendItems sought inner items = (items.zipIdx i).flatMap fun e =>
      (if endsAt sought [.index e.2] then [⟨e.1, inner⟩] else []) ++ descend sought inner e.1 := by
  induction items generalizing i with
  | nil => rfl
  | cons d rest ih =>
    rw [descendItems, ih (i + 1), List.zipIdx_cons, List.flatMap_cons, endsAt_index]

theorem descendEntries_eq (sought : Option String) (inner : Scope)
    (entries : List (String × Document)) :
    descendEntries sought inner entries = entries.flatMap fun e =>
      (if endsAt sought [.key e.1] then [⟨e.2, inner⟩] else []) ++ descend sought inner e.2 := by
  induction entries with
  | nil => rfl
  | cons e rest ih => rw [descendEntries, ih, List.flatMap_cons, endsAt_key]

/-- lists and maps alike: each child if it is sought, and what is sought below it -/
theorem descend_placed (sought : Option String) {scope inner : Scope}
    (h : scope.child? = some inner) (d : Document) :
    descend sought scope d = d.placed.flatMap fun e =>
      (if endsAt sought [e.1] then [⟨e.2, inner⟩] else []) ++ descend sought inner e.2 := by
  cases d with
  | list items => rw [descend, h, Document.placed, List.flatMap_map, ← descendItems_eq]
  | map entries => rw [descend, h, Document.placed, List.flatMap_map, ← descendEntries_eq]
  | _ => simp [descend, Document.placed]

theorem lower_succ (s : Scope) (n : ℕ) :
    s.lower (n + 1) = Scope.lower { s with depth := s.depth + 1 } n := by
  rw [Scope.lower, Scope.lower, Nat.add_assoc, Nat.add_comm 1 n]

/-- a child at its place and what stands below it, seen from one level up -/
theorem sighted_standing (sought : Option String) {scope inner : Scope}
    (h : scope.child? = some inner) (place : Place) (d : Document)
    {row : List (List Place × Document)} (hrow : ∀ e ∈ row, e.1 ≠ []) :
    sighted sought scope (Document.standing place d row)
      = (if endsAt sought [place] then [⟨d, inner⟩] else []) ++ sighted sought inner row := by
  obtain ⟨hlt, rfl⟩ := Scope.child_eq_some.mp h
  have hfits : ∀ e ∈ row,
      (decide (scope.depth + (place :: e.1).length ≤ scope.maxDepth) && endsAt sought (place :: e.1))
        = (decide (scope.depth + 1 + e.1.length ≤ scope.maxDepth) && endsAt sought e.1) := by
    intro e he
    rw [endsAt_cons sought place (hrow e he), List.length_cons, Nat.add_assoc, Nat.add_comm 1]
  have hbelow : sighted sought scope (row.map fun e => (place :: e.1, e.2))
      = sighted sought { scope with depth := scope.depth + 1 } row := by
    unfold sighted
    rw [List.filter_map, List.map_map]
    refine (congrArg _ (List.filter_congr hfits)).trans (List.map_congr_left fun e _ => ?_)
    exact congrArg (Cursor.mk e.2) (lower_succ scope e.1.length)
  rw [← hbelow]
  unfold sighted Document.standing
  have hchild : scope.depth + [place].length ≤ scope.maxDepth := hlt
  rw [List.filter_cons, decide_eq_true hchild, Bool.true_and]
  split <;> rfl

theorem sighted_flatMap (sought : Option String) (scope : Scope) {α : Type}
    (row : α → List (List Place × Document)) (as : List α) :
    sighted sought scope (as.flatMap row) = as.flatMap fun a => sighted sought scope (row a) := by
  induction as with
  | nil => rfl
  | cons a as ih =>
    rw [List.flatMap_cons, List.flatMap_cons, ← ih]
    unfold sighted
    rw [List.filter_append, List.map_append]

/-! ## all levels -/

theorem sighted_eq_nil (sought : Option String) {scope : Scope} (h : scope.child? = none)
    {row : List (List Place × Document)} (hrow : ∀ e ∈ row, e.1 ≠ []) :
    sighted sought scope row = [] := by
  have hfull : ¬scope.depth < scope.maxDepth := by
    intro hlt
    rw [Scope.child?, if_pos hlt] at h
    cases h
  unfold sighted
  rw [List.map_eq_nil_iff, List.filter_eq_nil_iff]
  intro e he
  have hpos := List.length_pos_iff.mpr (hrow e he)
  have hdeep : ¬scope.depth + e.1.length ≤ scope.maxDepth := by omega
  rw [decide_eq_false hdeep]
  exact Bool.false_ne_true

/-- **Descent goes through all that stands below a value.** -/
theorem descend_eq (sought : Option String) (scope : Scope) (d : Document) :
    descend sought scope d = sighted sought scope d.descendants := by
  have hbelow (c : Document) : ∀ e ∈ c.descendants, e.1 ≠ [] :=
    fun e he => (Document.mem_descendants.mp he).1
  cases hinner : scope.child? with
  | none =>
    rw [sighted_eq_nil sought hinner (hbelow d)]
    cases d <;> simp [descend, hinner]
  | some inner =>
    rw [descend_placed sought hinner, Document.descendants_eq, sighted_flatMap]
    refine List.flatMap_congr fun e he => ?_
    have hlt := Document.height_lt_of_placed he
    rw [descend_eq sought inner e.2, sighted_standing sought hinner e.1 e.2 (hbelow e.2)]
termination_by d.height

/-- a step to descendants puts what it finds behind what has been found -/
theorem followAll_descendants (sought : Option String) {ω : Type} (H : Hooks ω) (cs : List Cursor)
    (c : Cursor) : (Step.descendants sought).followAll H (cs ++ [c]) = (do
      let found ← (Step.descendants sought).followAll H cs
      pure (found ++ descend sought c.scope c.value)) := by
  induction cs with
  | nil => simp [Step.followAll, Step.follow]
  | cons c' cs ih =>
    rw [List.cons_append, Step.followAll, ih, Step.followAll]
    simp only [bind_assoc, pure_bind, List.append_assoc]

/-- **Recursive descent finds what stands below a value within the limit, in document order**, and
each position once where no map has a key twice. The cursors are charged for as many levels as they
stand deep. Under a name those of them are found whose position ends in that key. What has been
found before is left as it is. -/
theorem descend_document_order (d : Document) (scope : Scope) :
    ∃ found : List (List Place × Document),
      (d.KeysOnce → (found.map Prod.fst).Nodup) ∧
      found.Pairwise (fun e e' => d.Precedes e.1 e'.1) ∧
      (∀ q v, (q, v) ∈ found ↔
        q ≠ [] ∧ d.Stands q v ∧ scope.depth + q.length ≤ scope.maxDepth) ∧
      ∀ sought,
        descend sought scope d = (found.filter fun e => endsAt sought e.1).map
          (fun e => ⟨e.2, { scope with depth := scope.depth + e.1.length }⟩) ∧
        ∀ {ω : Type} (H : Hooks ω) (cs : List Cursor),
          (Step.descendants sought).followAll H (cs ++ [⟨d, scope⟩]) = (do
            let before ← (Step.descendants sought).followAll H cs
            pure (before ++ descend sought scope d)) := by
  have hpairwise := d.descendants_pairwise.filter
    fun e => decide (scope.depth + e.1.length ≤ scope.maxDepth)
  refine ⟨_, fun hd => Document.nodup_of_pairwise hd hpairwise, hpairwise, fun q v => ?_,
    fun sought => ⟨?_, fun H cs => followAll_descendants sought H cs ⟨d, scope⟩⟩⟩
  · rw [List.mem_filter, Document.mem_descendants, decide_eq_true_iff, and_assoc]
  · rw [descend_eq, sighted, List.filter_filter]
    simp only [Bool.and_comm]
    rfl

/-- the key `a` in a map and in a map below it that is one level too deep -/
theorem descend_document_order_cut :
    let d := Document.map [("a", .integer 1), ("b", .list [.map [("a", .integer 2)], .null])]
    d.KeysOnce ∧ ∃ found : List (List Place × Document), (found.map Prod.fst).Nodup ∧
      ([.key "b", .index 1], .null) ∈ found ∧
      ([.key "b", .index 0, .key "a"], .integer 2) ∉ found ∧
      descend (some "a") (.ofDocument d 2) d
        = (found.filter fun e => endsAt (some "a") e.1).map
          fun e => ⟨e.2, { root := d, depth := 0 + e.1.length, maxDepth := 2 }⟩ := by
  intro d
  have hd : d.KeysOnce := by
    have hleaf (n : Int) : (Document.integer n).KeysOnce := Document.keysOnce_leaf rfl
    have hnull : Document.null.KeysOnce := Document.keysOnce_leaf rfl
    have hinner : (Document.map [("a", .integer 2)]).KeysOnce :=
      Document.keysOnce_map (by decide) (by simp [hleaf])
    have hlist : (Document.list [.map [("a", .integer 2)], .null]).KeysOnce :=
      Document.keysOnce_list (by simp [hinner, hnull])
    exact Document.keysOnce_map (by decide) (by simp [hleaf, hlist])
  obtain ⟨found, hnodup, -, hmem, hdescend⟩ := descend_document_order d (.ofDocument d 2)
  refine ⟨hd, found, hnodup hd, ?_, ?_, (hdescend (some "a")).1⟩
  · rw [hmem]
    refine ⟨List.cons_ne_nil _ _, Document.stands_cons.mpr ⟨_, List.mem_of_mem_getLast? rfl, ?_⟩,
      by decide⟩
    exact .of_getElem rfl
  · rw [hmem]
    rintro ⟨-, -, hdeep⟩
    exact absurd hdeep (by decide)

end PathQuery
