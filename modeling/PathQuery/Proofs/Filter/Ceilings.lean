import PathQuery.Proofs.Filter.TooDeep

/-!
# Reading within a higher limit

The limit on the levels of expressions decides what is refused, and nothing else: with a higher one
the readers do the same, but where they were refused for the lower one.

* `Raised`              what holds of a reader and the one for the higher limit;
* `raised_expression`   it holds of the readers of expressions, with more room, too.

The relation is closed under all ways to put readers together, so there is one lemma for each
reader.
-/

namespace PathQuery.Filter
open Token Token.Reader

def Bounds.upTo (b : Bounds) (limit : ℕ) : Bounds := { b with limit := limit }

/-- `r'` does what `r` does, but where `r` stops with the fault of the limit -/
def Raised {α : Type} (b : Bounds) (r r' : Reader α) : Prop :=
  ∀ tokens, TooDeep b (r tokens) ∨ r tokens = r' tokens

section
variable {α β : Type} {b : Bounds} {r r' : Reader α}

theorem Raised.refl (r : Reader α) : Raised b r r := fun _ => .inr rfl

theorem Raised.bind {k k' : α → Reader β} (h : Raised b r r') (hk : ∀ a, Raised b (k a) (k' a)) :
    Raised b (r >>= k) (r' >>= k') := by
  intro tokens
  rcases h tokens with hdeep | hsame
  · exact .inl (hdeep.bind k)
  · cases hr : r tokens with
    | error e rest => exact .inr ((bind_error hr k).trans (bind_error (hsame ▸ hr) k').symm)
    | ok a rest =>
      rw [bind_ok hr, bind_ok (hsame ▸ hr)]
      exact hk a rest

theorem Raised.map (h : Raised b r r') (g : α → β) : Raised b (g <$> r) (g <$> r') := by
  intro tokens
  rcases h tokens with hdeep | hsame
  · exact .inl (hdeep.map g)
  · cases hr : r tokens with
    | error e rest => exact .inr ((map_error hr g).trans (map_error (hsame ▸ hr) g).symm)
    | ok a rest => exact .inr ((map_ok hr g).trans (map_ok (hsame ▸ hr) g).symm)

theorem Raised.tries {r r' : ℕ → Reader α} (h : ∀ n, Raised b (r n) (r' n)) :
    Raised b (fun tokens => r tokens.length tokens) fun tokens => r' tokens.length tokens :=
  fun tokens => h tokens.length tokens

end

/-- the reader one level further in is raised, if there is one; where there is none under the lower
limit, there may be one under the higher -/
def Inner.Raised (b : Bounds) (inner inner' : Inner) : Prop :=
  ∀ reader ∈ inner, ∃ reader' ∈ inner', ∀ least, Filter.Raised b (reader least) (reader' least)

section
variable {α : Type} {b : Bounds} {limit : ℕ} {inner inner' : Inner}

theorem Raised.enter (h : inner.Raised b inner') (position : ℕ)
    {k k' : (ℕ → Reader Measured) → Reader α}
    (hk : ∀ reader reader', (∀ least, Raised b (reader least) (reader' least)) →
      Raised b (k reader) (k' reader')) :
    Raised b (enter b position inner >>= k) (enter (b.upTo limit) position inner' >>= k') := by
  cases inner with
  | none => exact fun tokens => .inl (TooDeep.bind (enter_none position) k)
  | some reader =>
    obtain ⟨reader', hreader', hraised⟩ := h reader rfl
    cases hreader'
    exact hk reader reader' hraised

theorem raised_checked (hlimit : b.limit ≤ limit) (position : ℕ) (m : Measured) :
    Raised b (checked b position m) (checked (b.upTo limit) position m) := by
  intro tokens
  unfold checked
  by_cases hdeep : b.limit < m.height
  · rw [if_pos hdeep]
    exact .inl ⟨_, _, _, rfl⟩
  · have hdeep' : ¬limit < m.height := fun h => hdeep (hlimit.trans_lt h)
    exact .inr (by rw [if_neg hdeep, if_neg (show ¬(b.upTo limit).limit < m.height from hdeep')])

/-! ## operands -/

theorem raised_argumentsUpTo {argument argument' : Reader Measured}
    (h : Raised b argument argument') (tries : ℕ) :
    Raised b (argumentsUpTo argument tries) (argumentsUpTo argument' tries) := by
  induction tries with
  | zero => exact h.map _
  | succ tries ih =>
    refine h.bind fun m => (Raised.refl _).bind fun more => ?_
    split
    · exact ih.map _
    · exact Raised.refl _

theorem raised_arguments {argument argument' : Reader Measured} (h : Raised b argument argument') :
    Raised b (arguments b argument) (arguments (b.upTo limit) argument') := by
  refine (Raised.refl _).bind fun closed => ?_
  split
  · exact Raised.refl _
  · exact (Raised.tries fun n => raised_argumentsUpTo h n).bind fun ms => Raised.refl _

theorem raised_callOf (h : inner.Raised b inner') (hlimit : b.limit ≤ limit) (name : String)
    (position : ℕ) :
    Raised b (callOf b inner name position) (callOf (b.upTo limit) inner' name position) := by
  refine Raised.enter h position fun reader reader' hreader => ?_
  exact (raised_arguments (hreader 1)).bind fun args => raised_checked hlimit position _

theorem raised_group (h : inner.Raised b inner') (position : ℕ) :
    Raised b (group b inner position) (group (b.upTo limit) inner' position) := by
  refine Raised.enter h position fun reader reader' hreader => ?_
  exact (hreader 1).bind fun m => Raised.refl _

theorem raised_primary (h : inner.Raised b inner') (hlimit : b.limit ≤ limit) (t : Token) :
    Raised b (primary b inner t) (primary (b.upTo limit) inner' t) := by
  unfold primary
  cases t.kind with
  | openParen => exact raised_group h t.position
  | identifier name =>
    refine (Raised.refl _).bind fun opened => ?_
    split
    · exact raised_callOf h hlimit name t.position
    · exact Raised.refl _
  | _ => exact Raised.refl _

theorem raised_operand (h : inner.Raised b inner') (hlimit : b.limit ≤ limit) :
    Raised b (operand b inner) (operand (b.upTo limit) inner') := by
  refine (Raised.refl _).bind fun t => ?_
  split
  · refine Raised.enter h t.position fun reader reader' hreader => ?_
    exact (hreader tightest).bind fun m => raised_checked hlimit t.position _
  · exact raised_primary h hlimit t

/-! ## operators -/

theorem raised_chainUpTo (h : inner.Raised b inner') (hlimit : b.limit ≤ limit) (least tries : ℕ)
    (left : Measured) :
    Raised b (chainUpTo b inner least tries left)
      (chainUpTo (b.upTo limit) inner' least tries left) := by
  induction tries generalizing left with
  | zero => exact Raised.refl _
  | succ tries ih =>
    refine (Raised.refl _).bind fun found => ?_
    cases found with
    | none => exact Raised.refl _
    | some found =>
      obtain ⟨op, position⟩ := found
      refine Raised.enter h position fun reader reader' hreader => ?_
      refine (hreader (op.precedence + 1)).bind fun right => ?_
      exact (raised_checked hlimit position _).bind fun joined => ih joined

theorem raised_level (h : inner.Raised b inner') (hlimit : b.limit ≤ limit) (least : ℕ) :
    Raised b (level b inner least) (level (b.upTo limit) inner' least) := by
  refine (raised_operand h hlimit).bind fun left => ?_
  exact Raised.tries fun tries => raised_chainUpTo h hlimit least tries left

/-- **A higher limit, and more room, change nothing but what is refused.** -/
theorem raised_expression (hlimit : b.limit ≤ limit) {room room' : ℕ} (hroom : room ≤ room')
    (least : ℕ) :
    Raised b (expression b room least) (expression (b.upTo limit) room' least) := by
  -- the induction is on the room under the lower limit: where it is used up that reader is refused,
  -- and nothing is asked of the other
  rw [expression_eq, expression_eq]
  induction room generalizing room' least with
  | zero => exact raised_level (fun reader hreader => by cases hreader) hlimit least
  | succ room ih =>
    obtain ⟨room', rfl⟩ : ∃ n, room' = n + 1 := ⟨room' - 1, by omega⟩
    refine raised_level (fun reader hreader => ?_) hlimit least
    cases hreader
    refine ⟨_, rfl, fun least => ?_⟩
    rw [expression_eq, expression_eq]
    exact ih (Nat.le_of_succ_le_succ hroom) least

theorem raised_read (hlimit : b.limit ≤ limit) :
    Raised b (read b.limit b.finish) (read limit b.finish) :=
  (raised_expression hlimit hlimit 1).map _

end

end PathQuery.Filter
