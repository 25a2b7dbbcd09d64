import PathQuery.Pattern.Parser

/-!
# Quantifiers inside quantified groups

* `parts`            a pattern and all parts of it;
* `stack`            the quantifiers that stand on one group, the outermost first, and its body;
* `repeatsForever`   there is an unbounded quantifier in a pattern;
* `groupDepth`       how many groups stand inside each other;
* `Guarded`          a group with an unbounded quantifier in it has no quantifier but `?`, or
                     else quantifiers on top of a `?`.
-/

namespace PathQuery.Pattern

def parts : Pattern → List Pattern
  | empty => [empty]
  | set levels s => [set levels s]
  | assertion a => [assertion a]
  | group noted p => group noted p :: p.parts
  | repeated q p => repeated q p :: p.parts
  | seq p q => seq p q :: (p.parts ++ q.parts)
  | either p q => either p q :: (p.parts ++ q.parts)

def stack : Pattern → Option (List Quantifier × Pattern)
  | group _ p => some ([], p)
  | repeated q p => p.stack.map fun (qs, body) => (q :: qs, body)
  | _ => none

def repeatsForever : Pattern → Bool
  | group _ p => p.repeatsForever
  | repeated q p => q.isUnbounded || p.repeatsForever
  | seq p q => p.repeatsForever || q.repeatsForever
  | either p q => p.repeatsForever || q.repeatsForever
  | _ => false

def groupDepth : Pattern → Nat
  | group _ p => p.groupDepth + 1
  | repeated _ p => p.groupDepth
  | seq p q => max p.groupDepth q.groupDepth
  | either p q => max p.groupDepth q.groupDepth
  | _ => 0

/-- the quantifier next to a group with an unbounded quantifier in it, if there is one, is `?` -/
def Guarded (p : Pattern) : Prop :=
  ∀ r ∈ p.parts, ∀ qs body, r.stack = some (qs, body) → body.repeatsForever = true →
    ∀ q ∈ qs.getLast?, q = .optional

theorem self_mem_parts (p : Pattern) : p ∈ p.parts := by
  cases p <;> exact List.mem_cons_self

def isSimple : Pattern → Bool
  | empty => true
  | set _ _ => true
  | assertion _ => true
  | _ => false

section
variable {p q : Pattern}

theorem guarded_of_isSimple (h : p.isSimple = true) : p.Guarded := by
  intro r hr qs body hstack
  cases p with
  | empty | set _ _ | assertion _ =>
    rw [List.mem_singleton.mp hr] at hstack
    cases hstack
  | _ => cases h

theorem Guarded.group (h : p.Guarded) (noted : Bool) : (Pattern.group noted p).Guarded := by
  intro r hr qs body hstack hbody q hq
  rcases List.mem_cons.mp hr with rfl | hr
  · cases hstack
    cases hq
  · exact h r hr qs body hstack hbody q hq

/-- a quantifier keeps to the rule if that next to a group does -/
theorem Guarded.repeated (h : p.Guarded) {op : Quantifier}
    (hop : ∀ noted body, p = .group noted body → body.repeatsForever = true → op = .optional) :
    (Pattern.repeated op p).Guarded := by
  intro r hr qs body hstack hbody q hq
  rcases List.mem_cons.mp hr with rfl | hr
  · obtain ⟨⟨inner, body'⟩, hinner, heq⟩ := Option.map_eq_some_iff.mp hstack
    cases heq
    cases inner with
    | nil =>
      -- there is no quantifier between the new one and the group
      have hgroup : ∃ noted, p = .group noted body := by
        cases p with
        | group noted b =>
          cases hinner
          exact ⟨noted, rfl⟩
        | repeated op' p' =>
          obtain ⟨pair, _, heq⟩ := Option.map_eq_some_iff.mp hinner
          cases heq
        | _ => cases hinner
      obtain ⟨noted, hp⟩ := hgroup
      cases hq
      exact hop noted body hp hbody
    | cons q' inner =>
      rw [List.getLast?_cons_cons] at hq
      exact h p p.self_mem_parts _ body hinner hbody q hq
  · exact h r hr qs body hstack hbody q hq

theorem Guarded.seq (hp : p.Guarded) (hq : q.Guarded) : (Pattern.seq p q).Guarded := by
  intro r hr qs body hstack
  rcases List.mem_cons.mp hr with rfl | hr
  · cases hstack
  · rcases List.mem_append.mp hr with hr | hr
    · exact hp r hr qs body hstack
    · exact hq r hr qs body hstack

theorem Guarded.either (hp : p.Guarded) (hq : q.Guarded) : (Pattern.either p q).Guarded := by
  intro r hr qs body hstack
  rcases List.mem_cons.mp hr with rfl | hr
  · cases hstack
  · rcases List.mem_append.mp hr with hr | hr
    · exact hp r hr qs body hstack
    · exact hq r hr qs body hstack

end

/-! ## rows and branches -/

/-- a property of patterns that joining keeps -/
structure Joins (P : Pattern → Prop) : Prop where
  empty : P .empty
  seq : ∀ p q, P p → P q → P (.seq p q)
  either : ∀ p q, P p → P q → P (.either p q)

section
variable {P : Pattern → Prop}

theorem foldl_keeps {f : Pattern → Pattern → Pattern} (h : ∀ p q, P p → P q → P (f p q))
    {p : Pattern} {rest : List Pattern} (hp : P p) (hrest : ∀ q ∈ rest, P q) :
    P (rest.foldl (fun later q => f q later) p) := by
  induction rest generalizing p with
  | nil => exact hp
  | cons q rest ih =>
    exact ih (h q p (hrest q List.mem_cons_self) hp) fun r hr => hrest r (List.mem_cons_of_mem q hr)

theorem Joins.sequence (h : Joins P) {row : List Pattern} (hrow : ∀ p ∈ row, P p) :
    P (Reading.sequence row) := by
  cases row with
  | nil => exact h.empty
  | cons p row =>
    exact foldl_keeps h.seq (hrow p List.mem_cons_self)
      fun q hq => hrow q (List.mem_cons_of_mem p hq)

theorem Joins.choice (h : Joins P) {branches : List Pattern} (hbranches : ∀ p ∈ branches, P p) :
    P (Reading.choice branches) := by
  cases branches with
  | nil => exact h.empty
  | cons p branches =>
    exact foldl_keeps h.either (hbranches p List.mem_cons_self)
      fun q hq => hbranches q (List.mem_cons_of_mem p hq)

theorem Joins.current (h : Joins P) {r : Reading} (hrow : ∀ p ∈ r.row, P p)
    (hbranches : ∀ p ∈ r.branches, P p) : P r.current :=
  h.choice (List.forall_mem_cons.mpr ⟨h.sequence hrow, hbranches⟩)

theorem joins_guarded (depth : Nat) : Joins fun p => p.Guarded ∧ p.groupDepth ≤ depth where
  empty := ⟨guarded_of_isSimple rfl, Nat.zero_le _⟩
  seq _ _ hp hq := ⟨hp.1.seq hq.1, Nat.max_le.mpr ⟨hp.2, hq.2⟩⟩
  either _ _ hp hq := ⟨hp.1.either hq.1, Nat.max_le.mpr ⟨hp.2, hq.2⟩⟩

theorem joins_bounded : Joins fun p => p.repeatsForever = false where
  empty := rfl
  seq p q hp hq := by rw [repeatsForever, hp, hq]; rfl
  either p q hp hq := by rw [repeatsForever, hp, hq]; rfl

end
end PathQuery.Pattern
