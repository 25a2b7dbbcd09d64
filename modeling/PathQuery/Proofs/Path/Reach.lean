import PathQuery.Proofs.Document.Positions
import PathQuery.Proofs.Filter.Sessions
import PathQuery.Evaluation.Basic
import Mathlib.Data.List.Basic

/-!
# Where a path leads

Every value that a path reaches stands in the document, at a position that the path spells. Not
more is charged for the way there than it has steps down.

* `Step.Spells`, `Leads`   the positions that a step and a row of steps spell;
* `Cursor.Below`           a cursor reached from another by going down;
* `Step.follow_below`      a step goes down, if it does not lead back to the document;
* `Reached`                where cursors stand, and what has been charged for them;
* `Met.reached`            all cursors that are met on the way are such.
-/

namespace PathQuery
open Stateful
variable {ω : Type}

/-! ## positions that steps spell -/

/-- the ways down that a step spells -/
def Step.Spells : Step → List Place → Prop
  | root, _ => False
  | property name, below => below = [.key name]
  | index _, below => ∃ i, below = [.index i]
  | wildcard, below => ∃ place, below = [place]
  | descendants none, below => below ≠ []
  | descendants (some name), below => below.getLast? = some (.key name)
  | slice _, below => ∃ i, below = [.index i]
  | filter _, below => ∃ i, below = [.index i]

/-- the positions that a row of steps spells -/
inductive Leads : List Step → List Place → Prop
  | start : Leads [] []
  | root {steps : List Step} {q : List Place} : Leads steps q → Leads (steps ++ [.root]) []
  | step {steps : List Step} {q below : List Place} {s : Step} :
      Leads steps q → s.Spells below → Leads (steps ++ [s]) (q ++ below)

theorem spells_descendants_cons {sought : Option String} {below : List Place}
    (h : (Step.descendants sought).Spells below) (place : Place) :
    (Step.descendants sought).Spells (place :: below) := by
  cases sought with
  | none => exact List.cons_ne_nil place below
  | some name =>
    have hlast : below.getLast? = some (.key name) := h
    show (place :: below).getLast? = some (.key name)
    rw [List.getLast?_cons, hlast]
    rfl

/-! ## going down -/

theorem Scope.child_eq_some {s inner : Scope} :
    s.child? = some inner ↔ s.depth < s.maxDepth ∧ inner = { s with depth := s.depth + 1 } := by
  unfold Scope.child?
  split
  · rename_i h
    simp [h, eq_comm]
  · rename_i h
    simp [h]

/-- `c'` is reached from `c` by going down along `below` -/
structure Cursor.Below (c : Cursor) (below : List Place) (c' : Cursor) : Prop where
  stands : c.value.Stands below c'.value
  root : c'.scope.root = c.scope.root
  maxDepth : c'.scope.maxDepth = c.scope.maxDepth
  charged : c'.scope.depth ≤ c.scope.depth + below.length
  limited : c.scope.depth ≤ c.scope.maxDepth → c'.scope.depth ≤ c.scope.maxDepth

namespace Cursor.Below

theorem free {c : Cursor} {below : List Place} {v : Document} (h : c.value.Stands below v) :
    c.Below below ⟨v, c.scope⟩ :=
  ⟨h, rfl, rfl, Nat.le_add_right _ _, id⟩

theorem child {c : Cursor} {inner : Scope} {place : Place} {v : Document}
    (hinner : c.scope.child? = some inner) (h : c.value.Stands [place] v) :
    c.Below [place] ⟨v, inner⟩ := by
  obtain ⟨hlt, rfl⟩ := Scope.child_eq_some.mp hinner
  exact ⟨h, rfl, rfl, Nat.le_refl _, fun _ => hlt⟩

theorem trans {c c' c'' : Cursor} {q r : List Place} (h : c.Below q c') (h' : c'.Below r c'') :
    c.Below (q ++ r) c'' := by
  refine ⟨h.stands.append h'.stands, h'.root.trans h.root, h'.maxDepth.trans h.maxDepth, ?_, ?_⟩
  · have hfirst := h.charged
    have hsecond := h'.charged
    rw [List.length_append]
    omega
  · intro hc
    have hc' := h'.limited (h.maxDepth ▸ h.limited hc)
    rwa [h.maxDepth] at hc'

end Cursor.Below

/-- a cursor for `d` itself, if it is sought, or one below it -/
def Sighted (sought : Option String) (isSought : Bool) (c c' : Cursor) : Prop :=
  (isSought = true ∧ c' = c) ∨ ∃ below, (Step.descendants sought).Spells below ∧ c.Below below c'

theorem Sighted.below {sought : Option String} {isSought : Bool} {c inner c' : Cursor}
    {place : Place} (h : Sighted sought isSought inner c') (hc : c.Below [place] inner)
    (hplace : isSought = true → (Step.descendants sought).Spells [place]) :
    ∃ below, (Step.descendants sought).Spells below ∧ c.Below below c' := by
  obtain ⟨hsought, rfl⟩ | ⟨below, hspells, hbelow⟩ := h
  · exact ⟨[place], hplace hsought, hc⟩
  · exact ⟨place :: below, spells_descendants_cons hspells place, hc.trans hbelow⟩

theorem isSought_spells {sought : Option String} {key : String} (h : isSought sought key = true) :
    (Step.descendants sought).Spells [.key key] := by
  cases sought with
  | none => exact List.cons_ne_nil _ _
  | some name =>
    have heq : name = key := by simpa [isSought] using h
    rw [heq]
    rfl

mutual
theorem descend_below (sought : Option String) (scope : Scope) (d : Document) (c : Cursor)
    (hc : c ∈ descend sought scope d) :
    ∃ below, (Step.descendants sought).Spells below ∧ Cursor.Below ⟨d, scope⟩ below c := by
  cases d with
  | list items =>
    rw [descend] at hc
    cases hinner : scope.child? with
    | none =>
      rw [hinner] at hc
      cases hc
    | some inner =>
      rw [hinner] at hc
      obtain ⟨d', hd', hsighted⟩ := descendItems_sighted sought inner items c hc
      obtain ⟨i, hi⟩ := Document.Stands.of_mem hd'
      refine hsighted.below (.child hinner hi) fun hnone => ?_
      rw [Option.isNone_iff_eq_none.mp hnone]
      exact List.cons_ne_nil _ _
  | map entries =>
    rw [descend] at hc
    cases hinner : scope.child? with
    | none =>
      rw [hinner] at hc
      cases hc
    | some inner =>
      rw [hinner] at hc
      obtain ⟨⟨key, d'⟩, he, hsighted⟩ := descendEntries_sighted sought inner entries c hc
      exact hsighted.below (.child hinner (.entry he (.here d'))) isSought_spells
  | _ => simp [descend] at hc

theorem descendItems_sighted (sought : Option String) (scope : Scope) (items : List Document)
    (c : Cursor) (hc : c ∈ descendItems sought scope items) :
    ∃ d ∈ items, Sighted sought sought.isNone ⟨d, scope⟩ c := by
  cases items with
  | nil => cases hc
  | cons d rest =>
    rw [descendItems, List.mem_append, List.mem_append] at hc
    obtain (hhere | hbelow) | hrest := hc
    · split at hhere
      · rename_i hnone
        rw [List.mem_singleton] at hhere
        exact ⟨d, List.mem_cons_self, .inl ⟨hnone, hhere⟩⟩
      · cases hhere
    · exact ⟨d, List.mem_cons_self, .inr (descend_below sought scope d c hbelow)⟩
    · obtain ⟨d', hd', h⟩ := descendItems_sighted sought scope rest c hrest
      exact ⟨d', List.mem_cons_of_mem d hd', h⟩

theorem descendEntries_sighted (sought : Option String) (scope : Scope)
    (entries : List (String × Document)) (c : Cursor)
    (hc : c ∈ descendEntries sought scope entries) :
    ∃ e ∈ entries, Sighted sought (isSought sought e.1) ⟨e.2, scope⟩ c := by
  cases entries with
  | nil => cases hc
  | cons e rest =>
    obtain ⟨key, d⟩ := e
    rw [descendEntries, List.mem_append, List.mem_append] at hc
    obtain (hhere | hbelow) | hrest := hc
    · split at hhere
      · rename_i hsought
        rw [List.mem_singleton] at hhere
        exact ⟨_, List.mem_cons_self, .inl ⟨hsought, hhere⟩⟩
      · cases hhere
    · exact ⟨_, List.mem_cons_self, .inr (descend_below sought scope d c hbelow)⟩
    · obtain ⟨e', he', h⟩ := descendEntries_sighted sought scope rest c hrest
      exact ⟨e', List.mem_cons_of_mem _ he', h⟩
end

namespace Step

variable {H : Hooks ω} {c : Cursor} {σ τ : ω}

theorem kept_sublist {f : Filter} {items ds : List Document} (h : kept H f items σ = .ok ds τ) :
    ds.Sublist items := by
  induction items generalizing ds σ with
  | nil =>
    cases h
    exact .slnil
  | cons d items ih =>
    obtain ⟨b, υ, -, h⟩ := bind_eq_ok.mp h
    obtain ⟨ds', υ', hrest, h⟩ := bind_eq_ok.mp h
    cases h
    cases b with
    | true => exact (ih hrest).cons_cons d
    | false => exact (ih hrest).cons d

theorem follow_index (H : Hooks ω) (c : Cursor) (i : Int) :
    (index i).follow H c = pure (((placeOf? c.value.items.length i).bind
      (c.value.items[·]?)).toList.map (⟨·, c.scope⟩)) := by
  obtain ⟨v, scope⟩ := c
  cases v <;> simp [follow, Document.items]

theorem follow_slice (H : Hooks ω) (c : Cursor) (s : Slice) :
    (slice s).follow H c = pure (((s.places c.value.items.length).filterMap
      (c.value.items[·]?)).map (⟨·, c.scope⟩)) := by
  obtain ⟨v, scope⟩ := c
  cases v <;> simp [follow, Document.items]

theorem follow_filter (H : Hooks ω) (c : Cursor) (f : Filter) :
    (filter f).follow H c = match c.scope.child? with
      | some inner => (·.map (⟨·, inner⟩)) <$> kept H f c.value.items
      | none => pure [] := by
  obtain ⟨v, scope⟩ := c
  cases v <;> cases hinner : scope.child? <;> simp [follow, Document.items, kept, hinner]

/-- **A step goes down, if it does not lead back to the document.** -/
theorem follow_below {s : Step} (hs : s ≠ .root) {cs : List Cursor}
    (h : s.follow H c σ = .ok cs τ) {c' : Cursor} (hc' : c' ∈ cs) :
    ∃ below, s.Spells below ∧ c.Below below c' := by
  cases s with
  | root => exact absurd rfl hs
  | property name =>
    cases h
    obtain ⟨v, hv, rfl⟩ := List.mem_map.mp hc'
    have hlookup := Document.Stands.of_lookup (Option.mem_toList.mp hv)
    exact ⟨_, rfl, .free hlookup⟩
  | index i =>
    rw [follow_index] at h
    cases h
    obtain ⟨v, hv, rfl⟩ := List.mem_map.mp hc'
    obtain ⟨n, -, hn⟩ := Option.bind_eq_some_iff.mp (Option.mem_toList.mp hv)
    exact ⟨_, ⟨n, rfl⟩, .free (.of_items hn)⟩
  | wildcard =>
    rw [follow] at h
    cases hinner : c.scope.child? with
    | none =>
      rw [hinner] at h
      cases h
      cases hc'
    | some inner =>
      rw [hinner] at h
      cases h
      obtain ⟨v, hv, rfl⟩ := List.mem_map.mp hc'
      obtain ⟨place, hplace⟩ := Document.Stands.of_child hv
      exact ⟨_, ⟨place, rfl⟩, .child hinner hplace⟩
  | descendants sought =>
    cases h
    exact descend_below sought c.scope c.value c' hc'
  | slice s =>
    rw [follow_slice] at h
    cases h
    obtain ⟨v, hv, rfl⟩ := List.mem_map.mp hc'
    obtain ⟨n, -, hn⟩ := List.mem_filterMap.mp hv
    exact ⟨_, ⟨n, rfl⟩, .free (.of_items hn)⟩
  | filter f =>
    rw [follow_filter] at h
    cases hinner : c.scope.child? with
    | none =>
      rw [hinner] at h
      cases h
      cases hc'
    | some inner =>
      rw [hinner] at h
      obtain ⟨ds, hds, rfl⟩ := map_eq_ok.mp h
      obtain ⟨v, hv, rfl⟩ := List.mem_map.mp hc'
      obtain ⟨n, hn⟩ := List.mem_iff_getElem?.mp ((kept_sublist hds).subset hv)
      exact ⟨_, ⟨n, rfl⟩, .child hinner (.of_items hn)⟩

theorem mem_followAll {s : Step} {cs cs' : List Cursor} (h : s.followAll H cs σ = .ok cs' τ)
    {c' : Cursor} (hc' : c' ∈ cs') :
    ∃ c ∈ cs, ∃ υ υ' here, s.follow H c υ = .ok here υ' ∧ c' ∈ here := by
  induction cs generalizing cs' σ with
  | nil =>
    cases h
    cases hc'
  | cons c cs ih =>
    obtain ⟨here, υ, hhere, h⟩ := bind_eq_ok.mp h
    obtain ⟨there, υ', hthere, h⟩ := bind_eq_ok.mp h
    cases h
    rcases List.mem_append.mp hc' with hc' | hc'
    · exact ⟨c, List.mem_cons_self, σ, υ, here, hhere, hc'⟩
    · obtain ⟨c'', hc'', h⟩ := ih hthere hc'
      exact ⟨c'', List.mem_cons_of_mem c hc'', h⟩

end Step

/-! ## cursors that have been reached -/

/-- where the cursors stand that the steps `done` reach in `d`. As long as no later step leads back
to the document, a cursor stands at least as deep as has been charged for it. -/
structure Reached (d : Document) (m : ℕ) (done : List Step) (q : List Place) (c : Cursor) :
    Prop where
  leads : Leads done q
  stands : d.Stands q c.value
  root : c.scope.root = d
  maxDepth : c.scope.maxDepth = m
  depth_le : c.scope.depth ≤ m
  start : done = [] → c.scope.depth = 0
  charged : (∀ s ∈ done.tail, s ≠ .root) → c.scope.depth ≤ q.length

theorem reached_start (d : Document) (m : ℕ) : Reached d m [] [] ⟨d, .ofDocument d m⟩ :=
  ⟨.start, .here d, rfl, rfl, Nat.zero_le m, fun _ => rfl, fun _ => Nat.le_refl _⟩

theorem Reached.follow {d : Document} {m : ℕ} {done : List Step} {q : List Place} {c : Cursor}
    (hc : Reached d m done q c) {H : Hooks ω} {σ τ : ω} {s : Step} {cs : List Cursor}
    (h : s.follow H c σ = .ok cs τ) {c' : Cursor} (hc' : c' ∈ cs) :
    ∃ q', Reached d m (done ++ [s]) q' c' := by
  by_cases hs : s = .root
  · subst hs
    cases h
    rw [List.mem_singleton] at hc'
    subst hc'
    refine ⟨[], .root hc.leads, ?_, hc.root, hc.maxDepth, hc.depth_le, by simp, fun htail => ?_⟩
    · show d.Stands [] c.scope.root
      rw [hc.root]
      exact .here d
    · cases done with
      | nil => exact Nat.le_of_eq (hc.start rfl)
      | cons first done => exact absurd rfl (htail .root (by simp))
  · obtain ⟨below, hspells, hbelow⟩ := Step.follow_below hs h hc'
    refine ⟨q ++ below, .step hc.leads hspells, hc.stands.append hbelow.stands,
      hbelow.root.trans hc.root, hbelow.maxDepth.trans hc.maxDepth, ?_, by simp, fun htail => ?_⟩
    · rw [← hc.maxDepth]
      exact hbelow.limited (hc.maxDepth ▸ hc.depth_le)
    · have hcharged : c.scope.depth ≤ q.length := by
        refine hc.charged fun s' hs' => htail s' ?_
        cases done with
        | nil => cases hs'
        | cons first done => exact List.mem_append_left [s] hs'
      have hmore := hbelow.charged
      rw [List.length_append]
      omega

def AllReached (d : Document) (m : ℕ) (done : List Step) (cs : List Cursor) : Prop :=
  ∀ c ∈ cs, ∃ q, Reached d m done q c

theorem AllReached.followAll {d : Document} {m : ℕ} {done : List Step} {cs cs' : List Cursor}
    (hcs : AllReached d m done cs) {H : Hooks ω} {σ τ : ω} {s : Step}
    (h : s.followAll H cs σ = .ok cs' τ) : AllReached d m (done ++ [s]) cs' := by
  intro c' hc'
  obtain ⟨c, hc, υ, υ', here, hhere, hmem⟩ := Step.mem_followAll h hc'
  obtain ⟨q, hq⟩ := hcs c hc
  exact hq.follow hhere hmem

theorem AllReached.followSteps {d : Document} {m : ℕ} {done steps : List Step}
    {cs cs' : List Cursor} (hcs : AllReached d m done cs) {H : Hooks ω} {σ τ : ω}
    (h : followSteps H steps cs σ = .ok cs' τ) : AllReached d m (done ++ steps) cs' := by
  induction steps generalizing done cs σ with
  | nil =>
    cases h
    rwa [List.append_nil]
  | cons s steps ih =>
    obtain ⟨next, υ, hnext, h⟩ := bind_eq_ok.mp h
    have hdone := ih (hcs.followAll hnext) h
    rwa [List.append_assoc] at hdone

theorem allReached_start (d : Document) (m : ℕ) :
    AllReached d m [] [⟨d, .ofDocument d m⟩] := by
  intro c hc
  rw [List.mem_singleton] at hc
  subst hc
  exact ⟨[], reached_start d m⟩

/-- the cursors that are met in `d` while the steps `done` are followed -/
inductive Met (H : Hooks ω) (d : Document) (m : ℕ) : List Step → Cursor → Prop
  | start : Met H d m [] ⟨d, .ofDocument d m⟩
  | step {done : List Step} {s : Step} {c c' : Cursor} {σ τ : ω} {here : List Cursor} :
      Met H d m done c → s.follow H c σ = .ok here τ → c' ∈ here → Met H d m (done ++ [s]) c'

/-- **Every cursor that is met stands at a position that the steps spell.** -/
theorem Met.reached {H : Hooks ω} {d : Document} {m : ℕ} {done : List Step} {c : Cursor}
    (h : Met H d m done c) : ∃ q, Reached d m done q c := by
  induction h with
  | start => exact ⟨[], reached_start d m⟩
  | step _ hfollow hmem ih =>
    obtain ⟨q, hq⟩ := ih
    exact hq.follow hfollow hmem

end PathQuery
