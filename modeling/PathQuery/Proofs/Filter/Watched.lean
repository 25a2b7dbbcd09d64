import PathQuery.Proofs.Filter.Sessions

/-!
# Evaluation under watch

What is done with the text of a pattern does not show in the value of an expression. Under watch
everything that is done with patterns is noted along with what is cached at that moment. Without the
notes it is the same evaluation.

* `Use`, `Moment`, `Record`   what is done with patterns, and the notes of it;
* `Watched.hooks`             the hooks of a registry, under watch;
* `RegexCache.WellKept`       few regexes are cached, all of whose texts have passed the guard;
* `Orderly`                   no text is compiled or searched for that has not passed it before;
* `Watches`                   a computation under watch does what it does unwatched, in good order;
* `related_hooks`             so do the hooks, and with them all that is evaluated.
-/

namespace PathQuery
variable {E : RegexEngine} {α β : Type}

/-! ## notes -/

/-- what is done with the text of a pattern -/
inductive Use (E : RegexEngine) where
  /-- the guard lets it pass -/
  | guarded (text : String)
  /-- the engine is asked to compile it -/
  | compiled (text : String)
  /-- the engine is asked whether the regex of the text matches -/
  | sought (text : String) (regex : E.Regex)

/-- a use, and the regexes that are cached then -/
structure Moment (E : RegexEngine) where
  use : Use E
  regexes : RegexCache E

/-- a session, and what has been done with patterns in it, the latest first -/
structure Record (E : RegexEngine) where
  session : Session E
  moments : List (Moment E)

def Record.fresh : Record E := ⟨.fresh, []⟩

/-! ## evaluation -/

abbrev Watched (E : RegexEngine) := Stateful (Record E)

namespace Watched

def note (u : Use E) : Watched E Unit := fun ρ =>
  .ok () { ρ with moments := ⟨u, ρ.session.regexes⟩ :: ρ.moments }

def lift (m : Run E α) : Watched E α := fun ρ =>
  match m ρ.session with
  | .ok a s => .ok a { ρ with session := s }
  | .error e s => .error e { ρ with session := s }

/-- the engine is asked only if the regex is not cached -/
def compile (text : String) : Watched E (Except String E.Regex) := do
  let ρ ← get
  if (ρ.session.regexes.find? text).isNone then note (.compiled text)
  lift (Run.compile text)

def search (text pattern : Value) : Watched E Bool := do
  match text.text?, pattern.text? with
  | some text, some pattern =>
    .ofExcept (Pattern.guardPattern pattern)
    note (.guarded pattern)
    match ← compile pattern with
    | .ok regex =>
      note (.sought pattern regex)
      lift (Run.isMatch regex text)
    | .error error => throw (.evaluation (.invalidPattern error))
  | _, _ => pure false

def hooks (E : RegexEngine) (r : Registry) : Hooks (Record E) where
  search := search
  operator name v w := lift (Filter.applyNoted r name v w)
  call name args := lift (Filter.callNoted r name args)

end Watched

/-! ## good order -/

/-- few regexes are cached, each once and under its own text, which has passed the guard -/
structure RegexCache.WellKept (c : RegexCache E) : Prop where
  size_le : c.size ≤ RegexCache.capacity
  distinct : (c.entries.map Prod.fst).Nodup
  guarded : ∀ text regex, (text, regex) ∈ c.entries → Pattern.guardPattern text = .ok ()
  sound : c.Sound

/-- a text is compiled, or its regex searched for, once it has passed the guard -/
def Use.Allowed (earlier : List (Moment E)) : Use E → Prop
  | .guarded text => Pattern.guardPattern text = .ok ()
  | .compiled text => ∃ m ∈ earlier, m.use = .guarded text
  | .sought text regex =>
    (∃ m ∈ earlier, m.use = .guarded text) ∧ E.compiled text = .ok regex

/-- at every moment the use is allowed and the cache is well kept -/
def Orderly : List (Moment E) → Prop
  | [] => True
  | m :: earlier => m.use.Allowed earlier ∧ m.regexes.WellKept ∧ Orderly earlier

structure Record.InOrder (ρ : Record E) : Prop where
  kept : ρ.session.regexes.WellKept
  orderly : Orderly ρ.moments

theorem RegexCache.wellKept_empty : (empty : RegexCache E).WellKept :=
  ⟨Nat.zero_le _, .nil, fun _ _ h => (List.not_mem_nil h).elim, Session.sound_fresh⟩

theorem Record.inOrder_fresh : (fresh : Record E).InOrder := ⟨RegexCache.wellKept_empty, trivial⟩

/-- in good order, whatever was compiled or searched for would pass the guard -/
theorem Orderly.guarded {ms : List (Moment E)} (h : Orderly ms) {m : Moment E} (hm : m ∈ ms)
    {text : String} (huse : m.use = .guarded text) : Pattern.guardPattern text = .ok () := by
  induction ms with
  | nil => cases hm
  | cons n ms ih =>
    obtain ⟨hallowed, -, hearlier⟩ := h
    rcases List.mem_cons.mp hm with rfl | hm
    · rw [huse] at hallowed
      exact hallowed
    · exact ih hearlier hm

/-- a regex that is not cached yet may be, once its text has passed the guard -/
theorem RegexCache.WellKept.keep {c : RegexCache E} (h : c.WellKept) {text : String}
    (hnew : c.find? text = none) (hguard : Pattern.guardPattern text = .ok ()) {regex : E.Regex}
    (hregex : E.compiled text = .ok regex) : (c.keep text regex).WellKept := by
  have hsound := h.sound.keep hregex
  rw [RegexCache.keep] at hsound ⊢
  split_ifs at hsound ⊢ with hroom
  · have hfresh : text ∉ c.entries.map Prod.fst := by
      intro hmem
      obtain ⟨entry, hentry, rfl⟩ := List.mem_map.mp hmem
      have hne := List.lookup_eq_none_iff.mp hnew entry hentry
      rw [bne_self_eq_false] at hne
      cases hne
    refine ⟨hroom, List.nodup_cons.mpr ⟨hfresh, h.distinct⟩, fun t q hq => ?_, hsound⟩
    rcases List.mem_cons.mp hq with heq | hq
    · cases heq
      exact hguard
    · exact h.guarded t q hq
  · exact h

theorem RegexCache.WellKept.compile [E.Deterministic] {c : RegexCache E} (h : c.WellKept)
    {text : String} (htext : Pattern.guardPattern text = .ok ()) (x : E.Memory) :
    (c.compile text x).2.1.WellKept := by
  have hanswer : (E.compile text x).1 = E.compiled text :=
    RegexEngine.Deterministic.compile_eq text x
  rw [RegexCache.compile]
  cases hf : c.find? text with
  | some regex => exact h
  | none =>
    generalize E.compile text x = answer at hanswer ⊢
    obtain ⟨regex?, y⟩ := answer
    cases regex? with
    | error error => exact h
    | ok regex => exact h.keep hf htext hanswer.symm

/-! ## the same evaluation, in good order -/

namespace Run

def LeavesRegexes (m : Run E α) : Prop :=
  ∀ s, ∃ (r : Except PathError α) (t : Session E),
    m s = Stateful.ending r t ∧ t.regexes = s.regexes

theorem leavesRegexes_ofExcept (r : Except PathError α) :
    LeavesRegexes (.ofExcept r : Run E α) := by
  intro s
  cases r with
  | ok a => exact ⟨.ok a, s, rfl, rfl⟩
  | error e => exact ⟨.error e, s, rfl, rfl⟩

theorem leavesRegexes_note (i : Invocation) (a : α) :
    LeavesRegexes (do note i; pure a : Run E α) :=
  fun s => ⟨.ok a, { s with invocations := i :: s.invocations }, rfl, rfl⟩

theorem leavesRegexes_isMatch (regex : E.Regex) (text : String) :
    LeavesRegexes (isMatch regex text) :=
  fun s => ⟨.ok (E.isMatch regex text s.memory).1,
    { s with memory := (E.isMatch regex text s.memory).2 }, rfl, rfl⟩

theorem leavesRegexes_applyNoted (r : Registry) (name : String) (v w : Value) :
    LeavesRegexes (Filter.applyNoted (E := E) r name v w) := by
  unfold Filter.applyNoted
  split_ifs
  · exact leavesRegexes_note _ _
  · exact leavesRegexes_ofExcept (.ok _)

theorem leavesRegexes_callNoted (r : Registry) (name : String) (args : List Value) :
    LeavesRegexes (Filter.callNoted (E := E) r name args) := by
  unfold Filter.callNoted
  split_ifs
  · exact leavesRegexes_note _ _
  · exact leavesRegexes_ofExcept (.ok _)

end Run

/-- under watch a computation comes to the same result and the same session, all in good order -/
def Watches (w : Watched E α) (m : Run E α) : Prop :=
  ∀ ρ : Record E, ρ.InOrder → ∃ (r : Except PathError α) (ρ' : Record E), ρ'.InOrder ∧
    w ρ = Stateful.ending r ρ' ∧ m ρ.session = Stateful.ending r ρ'.session

namespace Watched

theorem watches_ofExcept (r : Except PathError α) :
    Watches (.ofExcept r : Watched E α) (.ofExcept r) := by
  intro ρ hρ
  cases r with
  | ok a => exact ⟨.ok a, ρ, hρ, rfl, rfl⟩
  | error e => exact ⟨.error e, ρ, hρ, rfl, rfl⟩

theorem watches_lift {m : Run E α} (hm : m.LeavesRegexes) : Watches (lift m) m := by
  intro ρ hρ
  obtain ⟨r, t, hrun, hregexes⟩ := hm ρ.session
  refine ⟨r, { ρ with session := t }, ⟨?_, hρ.orderly⟩, ?_, hrun⟩
  · show t.regexes.WellKept
    rw [hregexes]
    exact hρ.kept
  · rw [lift, hrun]
    cases r <;> rfl

end Watched

theorem Watches.bind {w : Watched E α} {m : Run E α} {f : α → Watched E β} {g : α → Run E β}
    (hw : Watches w m) (hf : ∀ a, Watches (f a) (g a)) : Watches (w >>= f) (m >>= g) := by
  intro ρ hρ
  obtain ⟨r, ρ', hρ', hwatched, hrun⟩ := hw ρ hρ
  have hbind : (w >>= f) ρ = EStateM.bind w f ρ := rfl
  have hbind' : (m >>= g) ρ.session = EStateM.bind m g ρ.session := rfl
  rw [hbind, hbind', EStateM.bind, EStateM.bind, hwatched, hrun]
  cases r with
  | ok a => exact hf a ρ' hρ'
  | error e => exact ⟨.error e, ρ', hρ', rfl, rfl⟩

namespace Watched

open Stateful
variable [E.Deterministic]

theorem compile_inOrder {text : String} {ρ : Record E} (hρ : ρ.InOrder)
    (hguarded : ∃ m ∈ ρ.moments, m.use = .guarded text) : ∃ ρ' : Record E, ρ'.InOrder ∧
      (∃ m ∈ ρ'.moments, m.use = .guarded text) ∧
      compile text ρ = .ok (E.compiled text) ρ' ∧
      Run.compile text ρ.session = .ok (E.compiled text) ρ'.session := by
  obtain ⟨m, hm, huse⟩ := hguarded
  have hregex := (hρ.kept.sound.compile text ρ.session.memory).1
  have hkept := hρ.kept.compile (hρ.orderly.guarded hm huse) ρ.session.memory
  let after := (ρ.session.regexes.compile text ρ.session.memory).2
  let s : Session E := { ρ.session with regexes := after.1, memory := after.2 }
  have hrun : Run.compile text ρ.session = .ok (E.compiled text) s := by
    rw [← hregex]
    rfl
  have hlift (ms : List (Moment E)) :
      lift (Run.compile text) ⟨ρ.session, ms⟩ = .ok (E.compiled text) ⟨s, ms⟩ := by
    rw [lift, hrun]
  cases hfind : ρ.session.regexes.find? text with
  | some regex =>
    refine ⟨⟨s, ρ.moments⟩, ⟨hkept, hρ.orderly⟩, ⟨m, hm, huse⟩, ?_, hrun⟩
    rw [← hlift]
    show (if (ρ.session.regexes.find? text).isNone then _ else _ : Watched E _) ρ = _
    rw [hfind]
    rfl
  | none =>
    refine ⟨⟨s, ⟨.compiled text, ρ.session.regexes⟩ :: ρ.moments⟩,
      ⟨hkept, ⟨m, hm, huse⟩, hρ.kept, hρ.orderly⟩, ⟨m, List.mem_cons_of_mem _ hm, huse⟩, ?_, hrun⟩
    rw [← hlift]
    show (if (ρ.session.regexes.find? text).isNone then _ else _ : Watched E _) ρ = _
    rw [hfind]
    rfl

/-- **No text is compiled or searched for that has not passed the guard.** -/
theorem watches_search (text pattern : Value) :
    Watches (search text pattern) (Filter.search (E := E) text pattern) := by
  unfold search Filter.search
  cases text.text? with
  | none => exact watches_ofExcept (.ok _)
  | some cs =>
    cases pattern.text? with
    | none => exact watches_ofExcept (.ok _)
    | some text =>
      intro ρ hρ
      dsimp only
      cases hguard : Pattern.guardPattern text with
      | error e => exact ⟨.error e, ρ, hρ, rfl, rfl⟩
      | ok u =>
        let ρ₁ : Record E := ⟨ρ.session, ⟨.guarded text, ρ.session.regexes⟩ :: ρ.moments⟩
        have hρ₁ : ρ₁.InOrder := ⟨hρ.kept, hguard, hρ.kept, hρ.orderly⟩
        obtain ⟨ρ', hρ', hguarded, hwatched, hrun⟩ :=
          compile_inOrder hρ₁ ⟨_, List.mem_cons_self, rfl⟩
        have hpass : (Stateful.ofExcept (.ok u) : Watched E Unit) ρ = .ok u ρ := rfl
        have hnote : note (.guarded text) ρ = .ok () ρ₁ := rfl
        have hpass' : (Stateful.ofExcept (.ok u) : Run E Unit) ρ.session = .ok u ρ.session := rfl
        rw [bind_of_ok hpass, bind_of_ok hnote, bind_of_ok hwatched, bind_of_ok hpass',
          bind_of_ok hrun]
        cases hcompiled : E.compiled text with
        | error error => exact ⟨.error (.evaluation (.invalidPattern error)), ρ', hρ', rfl, rfl⟩
        | ok regex =>
          let ρ₂ : Record E :=
            ⟨ρ'.session, ⟨.sought text regex, ρ'.session.regexes⟩ :: ρ'.moments⟩
          have hρ₂ : ρ₂.InOrder := ⟨hρ'.kept, ⟨hguarded, hcompiled⟩, hρ'.kept, hρ'.orderly⟩
          have hnote' : note (.sought text regex) ρ' = .ok () ρ₂ := rfl
          dsimp only
          rw [bind_of_ok hnote']
          exact watches_lift (Run.leavesRegexes_isMatch regex cs) ρ₂ hρ₂

theorem related_hooks (r : Registry) : Hooks.Related Watches (hooks E r) (r.hooks E) where
  pure a := watches_ofExcept (.ok a)
  bind := Watches.bind
  security fault := watches_ofExcept (.error (.security fault))
  search := watches_search
  operator name v w := watches_lift (Run.leavesRegexes_applyNoted r name v w)
  call name args := watches_lift (Run.leavesRegexes_callNoted r name args)

end Watched
end PathQuery
