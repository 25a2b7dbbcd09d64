import PathQuery.Filter.Safety
import PathQuery.Proofs.Filter.Sessions

/-!
# What the scan of a filter sees

The scan goes through all parts of an expression, at any depth, and refuses it for the first one
with a fault of its own. Behind the scan only a pattern that is no string literal can be refused.

* `Part`                     an expression stands in another;
* `mem_walk`                 the walk through an expression meets its parts, all of them;
* `Faulty`                   a name on the deny list, or a literal pattern that the guard refuses;
* `scan_iff`                 when the scan finds no fault;
* `resolve_ok`               where no name is denied, looking values up never fails;
* `Fails`, `errs_evaluate`   where the errors come from in which evaluations end;
* `Refused`                  a pattern that is refused for the text that it turns out to be;
* `Clean.refused_of_fails`   nothing else is refused when a clean expression is evaluated.
-/

namespace PathQuery
namespace Filter

/-- `Part g f`: `g` is `f`, or it stands in `f` at some depth -/
inductive Part : Filter → Filter → Prop
  | self (f : Filter) : Part f f
  | inside {g h f : Filter} : h ∈ f.children → Part g h → Part g f

theorem part_iff {g f : Filter} : Part g f ↔ g = f ∨ ∃ h ∈ f.children, Part g h := by
  constructor
  · intro hg
    cases hg with
    | self => exact .inl rfl
    | inside hh hg => exact .inr ⟨_, hh, hg⟩
  · rintro (rfl | ⟨h, hh, hg⟩)
    · exact .self g
    · exact .inside hh hg

theorem Part.trans {h g f : Filter} (hhg : Part h g) (hgf : Part g f) : Part h f := by
  induction hgf with
  | self => exact hhg
  | inside hmem _ ih => exact .inside hmem ih

theorem mem_visit {g : Filter} (pending : List Filter) :
    g ∈ visit pending ↔ ∃ f ∈ pending, Part g f := by
  induction pending using visit.induct with
  | case1 => simp [visit]
  | case2 f pending ih =>
    rw [visit, List.mem_cons, ih]
    simp only [List.mem_append, List.mem_cons, or_and_right, exists_or, exists_eq_left]
    rw [part_iff (f := f), or_assoc]

theorem mem_walk {g f : Filter} : g ∈ f.walk ↔ Part g f := by
  rw [walk, mem_visit]
  simp

/-! ## faults -/

/-- an expression that is refused for what it says itself, its parts apart -/
inductive Faulty : Filter → Prop
  | name {names : List String} {name : String} :
      name ∈ names → name ∈ ["__proto__", "prototype", "constructor"] → Faulty (reference names)
  | pattern {left : Filter} {text : String} :
      Pattern.guardPattern text ≠ .ok () →
        Faulty (binary (.known .pattern) left (literal (.text text)))

theorem isDenied_iff (name : String) :
    isDenied name = true ↔ name ∈ ["__proto__", "prototype", "constructor"] := by
  rw [isDenied, deniedNames, List.contains_iff_mem]

theorem guardPattern_eq_ok (text : String) :
    Pattern.guardPattern text = .ok () ↔ Pattern.guardFault? text.toList = none := by
  unfold Pattern.guardPattern
  cases Pattern.guardFault? text.toList with
  | none => exact ⟨fun _ => rfl, fun _ => rfl⟩
  | some fault => exact ⟨nofun, nofun⟩

theorem faulty_reference (names : List String) :
    Faulty (reference names) ↔ ∃ name ∈ names, isDenied name = true := by
  constructor
  · intro h
    cases h with
    | name hmem hdenied => exact ⟨_, hmem, (isDenied_iff _).mpr hdenied⟩
  · rintro ⟨name, hmem, hdenied⟩
    exact .name hmem ((isDenied_iff _).mp hdenied)

theorem faulty_iff_ownPattern {f : Filter} (h : ∀ names, f ≠ reference names) :
    Faulty f ↔ ∃ text, f.ownPattern? = some text ∧ Pattern.guardPattern text ≠ .ok () := by
  constructor
  · intro hf
    cases hf with
    | name => exact absurd rfl (h _)
    | pattern hguard => exact ⟨_, rfl, hguard⟩
  · rintro ⟨text, htext, hguard⟩
    unfold ownPattern? at htext
    split at htext
    · cases htext
      exact .pattern hguard
    · cases htext

theorem ownSecurityFault_eq_none (f : Filter) : f.ownSecurityFault? = none ↔ ¬Faulty f := by
  unfold ownSecurityFault?
  split
  · rw [faulty_reference, Option.map_eq_none_iff, List.find?_eq_none]
    simp
  · rename_i hne
    rw [faulty_iff_ownPattern hne, Option.bind_eq_none_iff]
    simp [guardPattern_eq_ok]

/-- no part of the expression has a security fault -/
def Clean (f : Filter) : Prop := ∀ g, Part g f → ¬Faulty g

theorem Clean.part {f g : Filter} (hf : f.Clean) (hg : Part g f) : g.Clean :=
  fun _ hpart => hf _ (hpart.trans hg)

/-- **The scan finds a fault wherever there is one.** -/
theorem scan_iff (f : Filter) : f.scan = .ok () ↔ f.Clean := by
  have hnone : f.securityFault? = none ↔ f.Clean := by
    rw [securityFault?, List.findSome?_eq_none_iff]
    simp only [mem_walk, ownSecurityFault_eq_none]
    rfl
  rw [← hnone, scan]
  cases f.securityFault? with
  | none => exact ⟨fun _ => rfl, fun _ => rfl⟩
  | some fault => exact ⟨nofun, nofun⟩

theorem scan_cases (f : Filter) : f.scan = .ok () ∨ ∃ fault, f.scan = .error (.security fault) := by
  unfold scan
  split
  · exact .inr ⟨_, rfl⟩
  · exact .inl rfl

/-- the first filter with a fault decides -/
theorem forM_scan_cases (fs : List Filter) :
    fs.forM scan = .ok () ∨ ∃ fault, fs.forM scan = .error (.security fault) := by
  induction fs with
  | nil => exact .inl rfl
  | cons f fs ih =>
    have hcons : (f :: fs).forM scan = f.scan >>= fun _ => fs.forM scan := rfl
    rw [hcons]
    obtain h | ⟨fault, h⟩ := f.scan_cases
    · rw [h]
      exact ih
    · rw [h]
      exact .inr ⟨fault, rfl⟩

/-! ## looking values up -/

theorem resolve_ok {names : List String} (h : ¬Faulty (reference names)) (d : Document) :
    ∃ v, resolve d names = .ok v := by
  rw [faulty_reference] at h
  induction names generalizing d with
  | nil => exact ⟨_, rfl⟩
  | cons name names ih =>
    have hname : checkName name = .ok () := by
      rw [checkName, if_neg fun hdenied => h ⟨name, List.mem_cons_self, hdenied⟩]
    rw [resolve, hname]
    cases d.lookup name with
    | none => exact ⟨_, rfl⟩
    | some d' =>
      refine ih (fun hmore => h ?_) d'
      obtain ⟨name', hmem, hdenied⟩ := hmore
      exact ⟨name', List.mem_cons_of_mem name hmem, hdenied⟩

end Filter

/-! ## errors while an expression is evaluated -/

namespace Stateful
open Run
variable {E : RegexEngine} {α β : Type} {P : PathError → Prop}

/-- whatever error a computation ends in satisfies `P` -/
def Errs (P : PathError → Prop) (m : Run E α) : Prop :=
  ∀ ⦃s : Session E⦄, s.Sound → ∀ ⦃e : PathError⦄ ⦃t : Session E⦄, m s = .error e t → P e

theorem errs_pure (a : α) : Errs P (pure a : Run E α) := fun _ _ _ _ h => nomatch h

theorem errs_note (i : Invocation) : Errs P (note (E := E) i) := fun _ _ _ _ h => nomatch h

theorem errs_compile (text : String) : Errs P (compile (E := E) text) :=
  fun _ _ _ _ h => nomatch h

theorem errs_isMatch (regex : E.Regex) (text : String) : Errs P (isMatch regex text) :=
  fun _ _ _ _ h => nomatch h

/-- it is enough to know how the computation ends in a fresh session -/
theorem Steady.errs {m : Run E α} (hm : Steady m) (h : ∀ e, m.alone = .error e → P e) :
    Errs P m := by
  intro s hs e t herror
  obtain ⟨u, -, hrun⟩ := hm.run hs
  rw [hrun] at herror
  cases halone : m.alone with
  | ok a =>
    rw [halone] at herror
    cases herror
  | error e' =>
    rw [halone] at herror
    cases herror
    exact h _ halone

/-- how a computation fails alone is how it fails in a fresh session -/
theorem alone_eq_error {m : Run E α} {e : PathError} :
    m.alone = .error e ↔ ∃ t, m .fresh = .error e t := by
  unfold alone
  cases m .fresh with
  | ok a t => exact ⟨nofun, fun ⟨_, h⟩ => nomatch h⟩
  | error e' t => exact ⟨fun h => by cases h; exact ⟨t, rfl⟩, fun ⟨_, h⟩ => by cases h; rfl⟩

/-- a run whose output cannot be compared is computed up to its error -/
theorem fresh_eq_error {m : Run E α} {e : PathError}
    (h : m.alone.map (fun _ => ()) = .error e) : ∃ t, m .fresh = .error e t := by
  refine alone_eq_error.mp ?_
  cases halone : m.alone with
  | ok a => simp [halone, Except.map] at h
  | error e' => simpa [halone, Except.map] using h

theorem errs_ofExcept {r : Except PathError α} (h : ∀ e, r = .error e → P e) :
    Errs P (ofExcept r : Run E α) :=
  (steady_ofExcept r).errs fun e herror => h e ((alone_ofExcept r).symm.trans herror)

theorem Errs.bind {m : Run E α} {f : α → Run E β} (hm : Steady m) (h : Errs P m)
    (hf : ∀ a, m.alone = .ok a → Errs P (f a)) : Errs P (m >>= f) := by
  intro s hs e t herror
  rcases bind_eq_error.mp herror with herror | ⟨a, u, hok, herror⟩
  · exact h hs herror
  · obtain ⟨v, hv, hrun⟩ := hm.run hs
    rw [hrun] at hok
    have halone : m.alone = .ok a := eq_ok_of_ending hok
    rw [halone] at hok
    cases hok
    exact hf a halone hv herror

theorem Errs.map {m : Run E α} (hm : Steady m) (h : Errs P m) (f : α → β) :
    Errs P (f <$> m) := by
  rw [map_eq_pure_bind]
  exact h.bind hm fun a _ => errs_pure (f a)

end Stateful

namespace Filter
open Run Stateful

/-- an expression that fails for `item` by itself: for a name that it looks up, or where it searches
for what its operands turn out to be -/
inductive Fails (E : RegexEngine) (r : Registry) (item : Document) : Filter → PathError → Prop
  | name {names : List String} {e : PathError} :
      resolve item names = .error e → Fails E r item (reference names) e
  | search {left right : Filter} {v w : Value} {e : PathError} :
      (left.evaluate (r.hooks E) item).alone = .ok v →
        (right.evaluate (r.hooks E) item).alone = .ok w →
          (search (E := E) v w).alone = .error e →
            Fails E r item (binary (.known .pattern) left right) e

section
variable {E : RegexEngine} {r : Registry} {item : Document} {P : PathError → Prop}

theorem errs_applyNoted (name : String) (v w : Value) :
    Errs P (applyNoted (E := E) r name v w) := by
  unfold applyNoted
  split
  · exact (errs_note _).bind (steady_note _) fun _ _ => errs_pure _
  · exact errs_pure _

theorem errs_callNoted (name : String) (args : List Value) :
    Errs P (callNoted (E := E) r name args) := by
  unfold callNoted
  split
  · exact (errs_note _).bind (steady_note _) fun _ _ => errs_pure _
  · exact errs_pure _

/-- of the operators only `matches` fails by itself -/
theorem errs_evaluateBinary {x y : Run E Value} (hx : Steady x) (hy : Steady y) (hex : Errs P x)
    (hey : Errs P y) (op : Operator)
    (hsearch : op = .known .pattern → ∀ v w, x.alone = .ok v → y.alone = .ok w →
      Errs P (search (E := E) v w)) :
    Errs P (evaluateBinary (r.hooks E) op x y) := by
  have strict (hand : op ≠ .known .and) (hor : op ≠ .known .or)
      (hop : ∀ v w, x.alone = .ok v → y.alone = .ok w →
        Errs P (compareValues (r.hooks E) v w op)) :
      Errs P (evaluateBinary (r.hooks E) op x y) := by
    rw [evaluateBinary_of_strict _ x y hand hor]
    exact hex.bind hx fun v hv => hey.bind hy fun w hw => hop v w hv hw
  cases op with
  | custom name => exact strict nofun nofun fun v w _ _ => errs_applyNoted name v w
  | known op =>
    cases op with
    | and =>
      rw [evaluateBinary_and]
      refine hex.bind hx fun v _ => ?_
      split
      · exact hey.map hy _
      · exact errs_pure _
    | or =>
      rw [evaluateBinary_or]
      refine hex.bind hx fun v _ => ?_
      split
      · exact errs_pure _
      · exact hey.map hy _
    | comparison c => exact strict nofun nofun fun v w _ _ => errs_pure _
    | textTest t => exact strict nofun nofun fun v w _ _ => errs_pure _
    | pattern => exact strict nofun nofun (hsearch rfl)

variable [E.Deterministic]

mutual
/-- **What the evaluation of an expression ends in comes from a part that fails by itself.** -/
theorem errs_evaluate {f : Filter} (hP : ∀ g e, Part g f → Fails E r item g e → P e) :
    Errs P (f.evaluate (r.hooks E) item) := by
  have part {h : Filter} (hh : h ∈ f.children) (g : Filter) (e : PathError) (hg : Part g h)
      (hfails : Fails E r item g e) : P e :=
    hP g e (.inside hh hg) hfails
  cases f with
  | literal l =>
    rw [evaluate]
    exact errs_pure _
  | reference names =>
    rw [evaluate]
    exact errs_ofExcept fun e herror => hP _ e (.self _) (.name herror)
  | negation operand =>
    have hmem : operand ∈ (negation operand).children := List.mem_singleton_self operand
    rw [evaluate]
    exact (errs_evaluate (part hmem)).bind (steady_evaluate r item operand) fun _ _ => errs_pure _
  | binary op left right =>
    have hleft : left ∈ (binary op left right).children := List.mem_cons_self
    have hright : right ∈ (binary op left right).children :=
      List.mem_cons_of_mem _ List.mem_cons_self
    have hl := steady_evaluate (E := E) r item left
    have hr := steady_evaluate (E := E) r item right
    rw [evaluate]
    refine (errs_evaluateBinary hl hr (errs_evaluate (part hleft)) (errs_evaluate (part hright)) op
      fun hop v w hv hw => ?_).bind (steady_closed.evaluateBinary r op hl hr) fun _ _ =>
        errs_pure _
    subst hop
    exact (steady_closed.search v w).errs fun e herror => hP _ e (.self _) (.search hv hw herror)
  | call name args =>
    rw [evaluate]
    exact (errs_evaluateAll fun f hf => part hf).bind
      (steady_closed.evaluateAll r item args) fun vs _ => errs_callNoted name vs

theorem errs_evaluateAll {fs : List Filter}
    (hP : ∀ f ∈ fs, ∀ g e, Part g f → Fails E r item g e → P e) :
    Errs P (evaluateAll (r.hooks E) item fs) := by
  cases fs with
  | nil =>
    rw [evaluateAll]
    exact errs_pure _
  | cons f rest =>
    rw [evaluateAll]
    refine (errs_evaluate (hP f List.mem_cons_self)).bind (steady_evaluate r item f) fun _ _ => ?_
    exact (errs_evaluateAll fun g hg => hP g (List.mem_cons_of_mem f hg)).bind
      (steady_closed.evaluateAll r item rest) fun _ _ => errs_pure _
end

end

/-! ## searches -/

theorem text_text (s : String) : (Value.text s).text? = some s :=
  congrArg some String.ofList_toList

theorem guardPattern_error {text : String} {e : PathError}
    (h : Pattern.guardPattern text = .error e) :
    ∃ fault, Pattern.guardPattern text = .error (.security (.pattern fault)) ∧
      e = .security (.pattern fault) := by
  unfold Pattern.guardPattern at h ⊢
  split at h
  · cases h
    exact ⟨_, rfl, rfl⟩
  · cases h

/-- a search fails if the guard refuses its pattern, or else if the engine does not compile it -/
def SearchFault (E : RegexEngine) (text : String) (e : PathError) : Prop :=
  Pattern.guardPattern text = .error e ∨
    Pattern.guardPattern text = .ok () ∧ ∃ error, E.compiled text = .error error ∧
      e = .evaluation (.invalidPattern error)

section
variable {E : RegexEngine} [E.Deterministic]

theorem alone_compile (text : String) :
    (compile (E := E) text).alone = .ok (E.compiled text) := by
  obtain ⟨hregex, -⟩ := RegexCache.Sound.compile (E := E) Session.sound_fresh text E.start
  rw [← hregex]
  rfl

theorem errs_search (v w : Value) :
    Errs (fun e => ∃ text, w.text? = some text ∧ SearchFault E text e) (search (E := E) v w) := by
  unfold search
  split
  · rename_i cs text _ htext
    refine (errs_ofExcept fun e herror => ⟨text, htext, .inl herror⟩).bind (steady_ofExcept _)
      fun u hu => ?_
    refine (errs_compile text).bind (steady_compile text) fun regex? hregex => ?_
    rw [alone_ofExcept] at hu
    rw [alone_compile] at hregex
    cases regex? with
    | ok regex => exact errs_isMatch regex cs
    | error error =>
      intro s _ e t herror
      cases herror
      exact ⟨text, htext, .inr ⟨hu, error, Except.ok.inj hregex, rfl⟩⟩
  · exact errs_pure _

end

/-! ## refusals while an expression is evaluated -/

/-- a pattern that is no string literal, and that the guard refuses as it is evaluated for `item` -/
inductive Refused (E : RegexEngine) (r : Registry) (item : Document) :
    Filter → SecurityFault → Prop
  | intro {left right : Filter} {v : Value} {text : String} {fault : PatternFault} :
      (∀ spelt, right ≠ literal (.text spelt)) → (right.evaluate (r.hooks E) item).alone = .ok v →
        v.text? = some text → Pattern.guardPattern text = .error (.security (.pattern fault)) →
          Refused E r item (binary (.known .pattern) left right) (.pattern fault)

/-- **A clean expression is refused only for a pattern that is no string literal.** -/
theorem Clean.refused_of_fails {E : RegexEngine} [E.Deterministic] {r : Registry}
    {item : Document} {g : Filter} (hclean : g.Clean) {fault : SecurityFault}
    (h : Fails E r item g (.security fault)) : Refused E r item g fault := by
  cases h with
  | name herror =>
    obtain ⟨v, hv⟩ := resolve_ok (hclean _ (.self _)) item
    rw [hv] at herror
    cases herror
  | @search left right v w _ hv hw herror =>
    obtain ⟨t, hfresh⟩ := alone_eq_error.mp herror
    obtain ⟨text, htext, hguard | ⟨-, error, -, heq⟩⟩ := errs_search v w Session.sound_fresh hfresh
    · obtain ⟨pf, hguard, heq⟩ := guardPattern_error hguard
      cases heq
      refine .intro (fun spelt hspelt => ?_) hw htext hguard
      subst hspelt
      have hw' : (Except.ok (Value.text spelt) : Except PathError Value) = .ok w := hw
      cases hw'
      rw [text_text] at htext
      cases htext
      refine absurd (Faulty.pattern ?_) (hclean _ (.self _))
      rw [hguard]
      exact nofun
    · cases heq

end Filter

end PathQuery
