import PathQuery.Proofs.Evaluation.Closed

/-!
# What a session does to the value of an expression

Nothing, as long as the memory of the regex engine makes no difference to its answers: a cached
regex is the one that its text compiles to, so that an expression has the same value, or ends in the
same error, in every session that has come about by evaluating.

* `Session.Sound`   every regex is cached under its own text;
* `Steady`          a computation ends the same way in all such sessions;
* `alone`           how it ends in a fresh one, also step by step (`Steady.alone_bind`);
* `steady_closed`   all evaluations are steady.
-/

namespace PathQuery
variable {E : RegexEngine}

/-- every regex is the one that its text compiles to -/
def RegexCache.Sound (c : RegexCache E) : Prop :=
  ∀ text regex, (text, regex) ∈ c.entries → E.compiled text = .ok regex

def Session.Sound (s : Session E) : Prop := s.regexes.Sound

theorem Session.sound_fresh : (fresh : Session E).Sound := fun _ _ h => by cases h

theorem RegexCache.Sound.keep {c : RegexCache E} (h : c.Sound) {text : String} {regex : E.Regex}
    (hregex : E.compiled text = .ok regex) : (c.keep text regex).Sound := by
  rw [RegexCache.keep]
  split_ifs
  · intro t q hq
    rcases List.mem_cons.mp hq with heq | hq
    · cases heq
      exact hregex
    · exact h t q hq
  · exact h

/-- a cached regex is not compiled again, but it is the same one -/
theorem RegexCache.Sound.compile [E.Deterministic] {c : RegexCache E} (h : c.Sound) (text : String)
    (x : E.Memory) :
    (c.compile text x).1 = E.compiled text ∧ (c.compile text x).2.1.Sound := by
  have hanswer : (E.compile text x).1 = E.compiled text :=
    RegexEngine.Deterministic.compile_eq text x
  rw [RegexCache.compile]
  cases hf : c.find? text with
  | some regex =>
    obtain ⟨before, after, hentries, -⟩ := List.lookup_eq_some_iff.mp hf
    have hm : (text, regex) ∈ c.entries := by
      rw [hentries]
      exact List.mem_append_right before List.mem_cons_self
    exact ⟨(h text regex hm).symm, h⟩
  | none =>
    generalize E.compile text x = answer at hanswer ⊢
    obtain ⟨regex?, y⟩ := answer
    cases regex? with
    | error error => exact ⟨hanswer, h⟩
    | ok regex => exact ⟨hanswer, h.keep hanswer.symm⟩

namespace Stateful
open Run
variable {α β : Type}

/-! ## computations alone -/

/-- how a computation ends in a fresh session -/
def alone (m : Run E α) : Except PathError α :=
  match m .fresh with
  | .ok a _ => .ok a
  | .error e _ => .error e

/-- a computation ends the same way in all sound sessions, and leaves them sound -/
def Steady (m : Run E α) : Prop :=
  ∃ r, ∀ s : Session E, s.Sound → ∃ t : Session E, t.Sound ∧ m s = ending r t

/-- it ends as it does in a fresh session -/
theorem Steady.run {m : Run E α} (h : Steady m) {s : Session E} (hs : s.Sound) :
    ∃ t : Session E, t.Sound ∧ m s = ending m.alone t := by
  obtain ⟨r, hr⟩ := h
  obtain ⟨t₀, -, h₀⟩ := hr .fresh Session.sound_fresh
  have halone : m.alone = r := by
    rw [alone, h₀]
    cases r <;> rfl
  rw [halone]
  exact hr s hs

theorem steady_pure (a : α) : Steady (pure a : Run E α) := ⟨.ok a, fun s hs => ⟨s, hs, rfl⟩⟩

theorem steady_throw (e : PathError) : Steady (throw e : Run E α) :=
  ⟨.error e, fun s hs => ⟨s, hs, rfl⟩⟩

theorem steady_ofExcept (r : Except PathError α) : Steady (.ofExcept r : Run E α) := by
  cases r with
  | ok a => exact steady_pure a
  | error e => exact steady_throw e

theorem Steady.bind {m : Run E α} {f : α → Run E β} (hm : Steady m) (hf : ∀ a, Steady (f a)) :
    Steady (m >>= f) := by
  obtain ⟨r, hr⟩ := hm
  cases r with
  | ok a =>
    obtain ⟨r', hr'⟩ := hf a
    refine ⟨r', fun s hs => ?_⟩
    obtain ⟨t, ht, hms⟩ := hr s hs
    obtain ⟨u, hu, hft⟩ := hr' t ht
    refine ⟨u, hu, ?_⟩
    show EStateM.bind m f s = _
    rw [EStateM.bind, hms]
    exact hft
  | error e =>
    refine ⟨.error e, fun s hs => ?_⟩
    obtain ⟨t, ht, hms⟩ := hr s hs
    refine ⟨t, ht, ?_⟩
    show EStateM.bind m f s = _
    rw [EStateM.bind, hms]
    rfl

theorem Steady.map {m : Run E α} (hm : Steady m) (f : α → β) : Steady (f <$> m) := by
  have heq : f <$> m = m >>= fun a => pure (f a) := map_eq_pure_bind f m
  rw [heq]
  exact hm.bind fun a => steady_pure (f a)

theorem Steady.alone_bind {m : Run E α} {f : α → Run E β} (hm : Steady m) (hf : ∀ a, Steady (f a)) :
    (m >>= f).alone = m.alone >>= fun a => (f a).alone := by
  obtain ⟨t, ht, hmt⟩ := hm.run Session.sound_fresh
  have hbind : (m >>= f) .fresh = EStateM.bind m f .fresh := rfl
  rw [alone, hbind, EStateM.bind, hmt]
  cases m.alone with
  | error e => rfl
  | ok a =>
    obtain ⟨u, -, hfu⟩ := (hf a).run ht
    show (match f a t with | .ok a _ => Except.ok a | .error e _ => .error e) = (f a).alone
    rw [hfu]
    cases (f a).alone <;> rfl

theorem Steady.alone_map {m : Run E α} (hm : Steady m) (f : α → β) :
    (f <$> m).alone = f <$> m.alone := by
  rw [map_eq_pure_bind, hm.alone_bind fun a => steady_pure (f a)]
  cases m.alone <;> rfl

/-- what a computation gives alone is what it gives in a fresh session -/
theorem alone_eq_ok {m : Run E α} {a : α} : m.alone = .ok a ↔ ∃ t, m .fresh = .ok a t := by
  unfold alone
  cases m .fresh with
  | ok b t => exact ⟨fun h => by cases h; exact ⟨t, rfl⟩, fun ⟨_, h⟩ => by cases h; rfl⟩
  | error e t => exact ⟨nofun, fun ⟨_, h⟩ => nomatch h⟩

theorem alone_ofExcept (r : Except PathError α) : (ofExcept r : Run E α).alone = r := by
  cases r <;> rfl

theorem steady_note (i : Invocation) : Steady (note (E := E) i) :=
  ⟨.ok (), fun s hs => ⟨{ s with invocations := i :: s.invocations }, hs, rfl⟩⟩

theorem steady_isMatch [E.Deterministic] (regex : E.Regex) (text : String) :
    Steady (isMatch regex text) := by
  refine ⟨.ok (E.isMatch regex text E.start).1, fun s hs => ?_⟩
  refine ⟨{ s with memory := (E.isMatch regex text s.memory).2 }, hs, ?_⟩
  rw [← RegexEngine.Deterministic.isMatch_eq regex text s.memory]
  rfl

theorem steady_compile [E.Deterministic] (text : String) : Steady (compile (E := E) text) := by
  refine ⟨.ok (E.compiled text), fun s hs => ?_⟩
  obtain ⟨hregex, hsound⟩ := RegexCache.Sound.compile hs text s.memory
  let after := (s.regexes.compile text s.memory).2
  refine ⟨{ s with regexes := after.1, memory := after.2 }, hsound, ?_⟩
  rw [← hregex]
  rfl

/-- all evaluations are steady -/
theorem steady_closed [E.Deterministic] : Closed (E := E) Steady where
  pure := steady_pure
  bind := Steady.bind
  security fault := steady_throw (.security fault)
  evaluation fault := steady_throw (.evaluation fault)
  note := steady_note
  compile := steady_compile
  isMatch := steady_isMatch

end Stateful

/-- the value of an expression does not depend on the session -/
theorem Filter.steady_evaluate [E.Deterministic] (r : Registry) (item : Document) (f : Filter) :
    (f.evaluate (r.hooks E) item).Steady :=
  Stateful.steady_closed.evaluate r item f

end PathQuery
