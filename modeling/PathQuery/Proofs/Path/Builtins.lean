import PathQuery.Pattern.Engine
import PathQuery.Proofs.Filter.Safety
import PathQuery.Proofs.Path.Limits
import PathQuery.Proofs.Path.Reach

/-!
# Built-in functions and functions of a host

A host can register functions under the names of built-ins. With one argument such a name stands for
the built-in, whatever has been registered; with another number of arguments it stands for the
function of the host.

* `call_eq_call_empty`        when a call under such a name gives what it gives without a host;
* `Registry.Alike`            registries that differ under such names only;
* `Filter.CallsKnown`         such names are given one argument each, as validation asks for;
* `Filter.evaluate_of_alike`  then the registries make no difference to an expression;
* `Path.evaluate_of_alike`    nor to a path;
* `Registry.builtins_stand`   all this for any registry and any path.
-/

namespace PathQuery

/-- the names of the built-in functions -/
def Builtin.names : List String := ["length", "exists", "type"]

theorem Builtin.ofName_eq_none {name : String} : ofName? name = none ↔ name ∉ names := by
  unfold ofName? names
  split_ifs <;> simp_all

namespace Registry

/-! ## calls -/

theorem builtin_eq_none {name : String} {args : List Value} (hname : name ∈ Builtin.names) :
    builtin? name args = none ↔ args.length ≠ 1 := by
  have hsome : Builtin.ofName? name ≠ none := fun h => Builtin.ofName_eq_none.mp h hname
  match args with
  | [] => exact ⟨fun _ => nofun, fun _ => rfl⟩
  | [v] => simp [builtin?, hsome]
  | v :: w :: args => exact ⟨fun _ => by simp, fun _ => rfl⟩

theorem call_of_one {name : String} {args : List Value} (hname : name ∈ Builtin.names)
    (hone : args.length = 1) (r r' : Registry) : r.call name args = r'.call name args := by
  obtain ⟨v, hv⟩ :=
    Option.ne_none_iff_exists'.mp ((builtin_eq_none hname).not.mpr (not_not.mpr hone))
  rw [call, call, hv]

theorem call_of_not_one {name : String} {args : List Value} (hname : name ∈ Builtin.names)
    (hargs : args.length ≠ 1) (r : Registry) :
    r.call name args = ((r.reached? name args.length).map (·.run args)).getD (.bool false) := by
  rw [call, (builtin_eq_none hname).mpr hargs]
  cases r.reached? name args.length <;> rfl

/-- **A host is asked for a built-in function unless there is one argument.** -/
theorem call_eq_call_empty {name : String} {args : List Value} (hname : name ∈ Builtin.names)
    (r : Registry) : r.call name args = Registry.empty.call name args ↔
      args.length = 1 ∨ ∀ f, r.reached? name args.length = some f → f.run args = .bool false := by
  by_cases hone : args.length = 1
  · exact ⟨fun _ => .inl hone, fun _ => call_of_one hname hone r .empty⟩
  · have hnone : Registry.empty.reached? name args.length = none := rfl
    rw [call_of_not_one hname hone, call_of_not_one hname hone, hnone, or_iff_right hone]
    cases r.reached? name args.length with
    | none => exact ⟨fun _ => nofun, fun _ => rfl⟩
    | some f => exact ⟨fun h g hg => Option.some_inj.mp hg ▸ h, fun h => h f rfl⟩

/-! ## registries that differ under these names only -/

/-- the registries differ in functions under built-in names, and in nothing else -/
structure Alike (r r' : Registry) : Prop where
  operators : r'.operators = r.operators
  functions : ∀ name, name ∉ Builtin.names → r'.function? name = r.function? name

theorem Alike.refl (r : Registry) : Alike r r := ⟨rfl, fun _ _ => rfl⟩

theorem Alike.registerFunction {r r' : Registry} (h : Alike r r') {name : String}
    (hname : name ∈ Builtin.names) (f : HostFunction) : Alike r (r'.registerFunction name f) := by
  refine ⟨h.operators, fun name' hname' => ?_⟩
  have hne : (name' == name) = false := by
    rw [beq_eq_false_iff_ne]
    rintro rfl
    exact hname' hname
  rw [← h.functions name' hname']
  show ((name, f) :: r'.functions).lookup name' = _
  rw [List.lookup_cons, hne]
  rfl

def registerFunctions (r : Registry) (fs : List (String × HostFunction)) : Registry :=
  fs.foldl (fun r e => r.registerFunction e.1 e.2) r

theorem Alike.registerFunctions {r r' : Registry} (h : Alike r r')
    {fs : List (String × HostFunction)} (hfs : ∀ e ∈ fs, e.1 ∈ Builtin.names) :
    Alike r (r'.registerFunctions fs) := by
  induction fs generalizing r' with
  | nil => exact h
  | cons e fs ih =>
    obtain ⟨he, hrest⟩ := List.forall_mem_cons.mp hfs
    exact ih (h.registerFunction he e.2) hrest

end Registry

/-! ## expressions -/

namespace Filter
open Stateful
variable {E : RegexEngine}

/-- every built-in function is called with one argument -/
def CallsKnown (f : Filter) : Prop :=
  ∀ name args, Part (call name args) f → name ∈ Builtin.names → args.length = 1

theorem CallsKnown.child {f g : Filter} (hf : f.CallsKnown) (hg : g ∈ f.children) :
    g.CallsKnown := fun name args hpart => hf name args (.inside hg hpart)

theorem length_evaluateAll {ω : Type} {H : Hooks ω} {item : Document} {fs : List Filter} {σ τ : ω}
    {vs : List Value} (h : evaluateAll H item fs σ = .ok vs τ) : vs.length = fs.length := by
  induction fs generalizing vs σ with
  | nil =>
    rw [evaluateAll] at h
    cases h
    rfl
  | cons f fs ih =>
    rw [evaluateAll] at h
    obtain ⟨v, υ, -, h⟩ := bind_eq_ok.mp h
    obtain ⟨ws, υ', hws, h⟩ := bind_eq_ok.mp h
    cases h
    rw [List.length_cons, List.length_cons, ih hws]

section
variable {r r' : Registry} (h : Registry.Alike r r')
include h

theorem applyNoted_of_alike (name : String) (v w : Value) :
    applyNoted (E := E) r' name v w = applyNoted r name v w := by
  have hoperator : r'.operator? name = r.operator? name := by
    unfold Registry.operator?
    rw [h.operators]
  unfold applyNoted Registry.hasOperator Registry.apply
  rw [hoperator]

theorem callNoted_of_alike {name : String} {args : List Value}
    (hone : name ∈ Builtin.names → args.length = 1) :
    callNoted (E := E) r' name args = callNoted r name args := by
  by_cases hname : name ∈ Builtin.names
  · have hbuiltin : (Registry.builtin? name args).isNone = false := by
      rw [Option.isNone_eq_false_iff, Option.isSome_iff_ne_none]
      exact (Registry.builtin_eq_none hname).not.mpr (not_not.mpr (hone hname))
    unfold callNoted
    rw [hbuiltin, Bool.false_and, Bool.false_and, Registry.call_of_one hname (hone hname) r' r]
  · have hreached : r'.reached? name args.length = r.reached? name args.length := by
      unfold Registry.reached?
      rw [h.functions name hname]
    unfold callNoted Registry.call
    rw [hreached]

theorem compareValues_of_alike (v w : Value) (op : Operator) :
    compareValues (r'.hooks E) v w op = compareValues (r.hooks E) v w op := by
  cases op with
  | custom name => exact applyNoted_of_alike h name v w
  | known op => cases op <;> rfl

end

mutual
/-- **Functions of a host do not stand in for built-ins,** where these are
called with one argument. -/
theorem evaluate_of_alike {r r' : Registry} (h : Registry.Alike r r') (item : Document) (f : Filter)
    (hf : f.CallsKnown) : f.evaluate (r'.hooks E) item = f.evaluate (r.hooks E) item := by
  cases f with
  | literal l => rw [evaluate, evaluate]
  | reference names => rw [evaluate, evaluate]
  | negation operand =>
    have hoperand := evaluate_of_alike h item operand (hf.child (List.mem_singleton.mpr rfl))
    rw [evaluate, evaluate, hoperand]
  | binary op left right =>
    have hleft := evaluate_of_alike h item left (hf.child List.mem_cons_self)
    have hright := evaluate_of_alike h item right
      (hf.child (List.mem_cons_of_mem _ List.mem_cons_self))
    rw [evaluate, evaluate, hleft, hright]
    simp only [evaluateBinary, compareValues_of_alike h]
  | call name args =>
    have hargs := evaluateAll_of_alike h item args fun g hg => hf.child hg
    rw [evaluate, evaluate, hargs]
    refine Stateful.bind_congr fun σ vs τ hvs => callNoted_of_alike h fun hname => ?_
    rw [length_evaluateAll hvs]
    exact hf name args (.self _) hname

theorem evaluateAll_of_alike {r r' : Registry} (h : Registry.Alike r r') (item : Document)
    (fs : List Filter) (hfs : ∀ f ∈ fs, f.CallsKnown) :
    evaluateAll (r'.hooks E) item fs = evaluateAll (r.hooks E) item fs := by
  cases fs with
  | nil => rw [evaluateAll, evaluateAll]
  | cons f fs =>
    have hf := evaluate_of_alike h item f (hfs f List.mem_cons_self)
    have hrest := evaluateAll_of_alike h item fs fun g hg => hfs g (List.mem_cons_of_mem f hg)
    rw [evaluateAll, evaluateAll, hf, hrest]
end

theorem callsKnown_of_fault {f : Filter} (h : f.fault? = none) : f.CallsKnown := by
  intro name args hpart hname
  have hown := List.findSome?_eq_none_iff.mp h _ (mem_walk.mpr hpart)
  rw [ownFault?] at hown
  split at hown
  · cases hown
  · obtain ⟨b, hb⟩ := Option.ne_none_iff_exists'.mp fun hnone =>
      Builtin.ofName_eq_none.mp hnone hname
    rw [hb, Option.bind_some] at hown
    split at hown
    · rename_i harity
      exact harity.symm
    · cases hown

end Filter

/-! ## paths -/

section
variable {E : RegexEngine} {r r' : Registry} (h : Registry.Alike r r')
include h

theorem Step.kept_of_alike {f : Filter} (hf : f.CallsKnown) (items : List Document) :
    kept (r'.hooks E) f items = kept (r.hooks E) f items := by
  induction items with
  | nil => rfl
  | cons d items ih =>
    rw [kept, kept, Filter.holds, Filter.holds, Filter.evaluate_of_alike h d f hf, ih]

theorem Step.follow_of_alike {s : Step} (hs : ∀ f, s.filter? = some f → f.CallsKnown) (c : Cursor) :
    s.follow (r'.hooks E) c = s.follow (r.hooks E) c := by
  cases s with
  | filter f => rw [follow_filter, follow_filter, kept_of_alike h (hs f rfl)]
  | _ => rfl

theorem Step.followAll_of_alike {s : Step} (hs : ∀ f, s.filter? = some f → f.CallsKnown)
    (cs : List Cursor) : s.followAll (r'.hooks E) cs = s.followAll (r.hooks E) cs := by
  induction cs with
  | nil => rfl
  | cons c cs ih => rw [followAll, followAll, follow_of_alike h hs, ih]

theorem followSteps_of_alike {steps : List Step}
    (hsteps : ∀ s ∈ steps, ∀ f, s.filter? = some f → f.CallsKnown) (cs : List Cursor) :
    followSteps (r'.hooks E) steps cs = followSteps (r.hooks E) steps cs := by
  induction steps generalizing cs with
  | nil => rfl
  | cons s steps ih =>
    obtain ⟨hs, hrest⟩ := List.forall_mem_cons.mp hsteps
    rw [followSteps, followSteps, Step.followAll_of_alike h hs]
    exact Stateful.bind_congr fun _ next _ _ => ih hrest next

theorem Path.evaluate_of_alike {p : Path} (hp : ∀ f ∈ p.filters, f.CallsKnown) (d : Document)
    (o : EvaluateOptions) : p.evaluate (r'.hooks E) d o = p.evaluate (r.hooks E) d o := by
  have hsteps : ∀ s ∈ p.steps, ∀ f, s.filter? = some f → f.CallsKnown :=
    fun s hs f hf => hp f (List.mem_filterMap.mpr ⟨s, hs, hf⟩)
  rw [evaluate, evaluate, follow, follow, followSteps_of_alike h hsteps]

end

/-- a path without a fault calls built-ins with one argument -/
theorem Path.callsKnown_of_validate {p : Path} {limit : ℕ} (h : p.validate limit = .ok ()) :
    ∀ f ∈ p.filters, f.CallsKnown := by
  intro f hf
  obtain ⟨s, hs, hfilter⟩ := (p.mem_filters_iff f).mp hf
  have hfault := ((p.validate_iff limit).mp h).1 s hs
  cases s with
  | filter g =>
    cases hfilter
    exact Filter.callsKnown_of_fault hfault
  | _ => cases hfilter

/-- **Built-in functions stand as long as they have one argument.** A call under such
a name gives what it gives without a host if there is one argument, or if the function of the host
that it reaches, if any, gives what an unknown function does. It gives that in all registries just
if there is one argument. So registering functions under such names makes no difference to a path
that gives each of them one argument, and every path does that in which validation finds no
fault. -/
theorem Registry.builtins_stand (r : Registry) {name : String} (hname : name ∈ Builtin.names)
    (args : List Value) {fs : List (String × HostFunction)} (hfs : ∀ e ∈ fs, e.1 ∈ Builtin.names)
    (E : RegexEngine) (p : Path) (d : Document) (o : EvaluateOptions) :
    (r.call name args = Registry.empty.call name args ↔
      args.length = 1 ∨ ∀ f, r.reached? name args.length = some f → f.run args = .bool false) ∧
    ((∀ r' : Registry, r'.call name args = Registry.empty.call name args) ↔ args.length = 1) ∧
    ((∀ f ∈ p.filters, f.CallsKnown) →
      p.evaluate ((r.registerFunctions fs).hooks E) d o = p.evaluate (r.hooks E) d o) ∧
    ∀ limit, p.validate limit = .ok () → ∀ f ∈ p.filters, f.CallsKnown := by
  refine ⟨call_eq_call_empty hname r, ⟨fun hall => ?_, fun hone r' => call_of_one hname hone r' _⟩,
    fun hp => Path.evaluate_of_alike ((Alike.refl r).registerFunctions hfs) hp d o,
    fun limit h => Path.callsKnown_of_validate h⟩
  by_contra hargs
  -- a function that takes any number of arguments is reached, and need not give what is false
  have hnull := hall (Registry.empty.registerFunction name ⟨none, fun _ => .null⟩)
  rw [call_of_not_one hname hargs, call_of_not_one hname hargs] at hnull
  have hreached : (Registry.empty.registerFunction name ⟨none, fun _ => .null⟩).reached? name
      args.length = some ⟨none, fun _ => .null⟩ := by
    unfold reached? function? registerFunction
    rw [List.lookup_cons_self]
    rfl
  rw [hreached] at hnull
  cases hnull

/-- a host that has its own `length`, called with one argument and with two -/
theorem Registry.builtins_stand_length :
    let host : HostFunction := ⟨none, fun _ => .integer 7⟩
    let r := Registry.empty.registerFunctions [("length", host)]
    let p := Path.ofSteps [.root, .filter (.call "length" [.reference []])]
    r.call "length" [.text "abc"] = .integer 3 ∧
      r.call "length" [.text "abc", .null] ≠ Registry.empty.call "length" [.text "abc", .null] ∧
      p.validate 10 = .ok () ∧ ∀ d o,
        p.evaluate (r.hooks Pattern.engine) d o = p.evaluate (empty.hooks Pattern.engine) d o := by
  intro host r p
  have hname : "length" ∈ Builtin.names := List.mem_cons_self
  have hhost : ∀ e ∈ [("length", host)], e.1 ∈ Builtin.names := List.forall_mem_singleton.mpr hname
  have hvalid : p.validate 10 = .ok () := by decide +kernel
  refine ⟨?_, fun heq => ?_, hvalid, fun d o => ?_⟩
  · obtain ⟨hcall, -⟩ := builtins_stand r hname [.text "abc"] hhost Pattern.engine p .null {}
    exact hcall.mpr (.inl rfl)
  · obtain ⟨hcall, -⟩ := builtins_stand r hname [.text "abc", .null] hhost Pattern.engine p .null {}
    rcases hcall.mp heq with hone | hfalse
    · cases hone
    · cases hfalse host rfl
  · obtain ⟨-, -, hpath, hvalidated⟩ := builtins_stand .empty hname [] hhost Pattern.engine p d o
    exact hpath (hvalidated 10 hvalid)

end PathQuery
