import PathQuery.Pattern.Engine
import PathQuery.Query
import PathQuery.Proofs.Filter.Watched
import PathQuery.Proofs.Path.Evaluation

/-!
# One session for many evaluations

A session outlives the evaluation in which it was begun, also where that ends in an error. What the
evaluations leave behind in it is not seen: each ends as it would in a session of its own. Under
watch, one sees that all along few regexes are cached, and that no text is compiled or searched for
that the guard has not let pass.

* `inTurn`                one computation after the other in one session;
* `Request`               what is asked of an evaluator;
* `Question`, `Answer`    what is asked of a query, and what it answers;
* `reuse_unseen`          no evaluation sees those before it, and all is in order throughout.
-/

namespace PathQuery
open Stateful
variable {E : RegexEngine}

/-! ## one after the other -/

/-- how computations end that are made one after the other, well or not, and what they leave -/
def inTurn {σ α : Type} : List (Stateful σ α) → σ → List (Except PathError α) × σ
  | [], s => ([], s)
  | m :: ms, s =>
    match m s with
    | .ok a t => (.ok a :: (inTurn ms t).1, (inTurn ms t).2)
    | .error e t => (.error e :: (inTurn ms t).1, (inTurn ms t).2)

theorem inTurn_cons {σ α : Type} {m : Stateful σ α} {ms : List (Stateful σ α)} {s t : σ}
    {r : Except PathError α} (h : m s = ending r t) :
    inTurn (m :: ms) s = (r :: (inTurn ms t).1, (inTurn ms t).2) := by
  rw [inTurn, h]
  cases r <;> rfl

theorem inTurn_steady {α : Type} {ms : List (Run E α)} (hms : ∀ m ∈ ms, Steady m)
    {s : Session E} (hs : s.Sound) : (inTurn ms s).1 = ms.map alone := by
  induction ms generalizing s with
  | nil => rfl
  | cons m ms ih =>
    obtain ⟨hm, hrest⟩ := List.forall_mem_cons.mp hms
    obtain ⟨t, ht, hrun⟩ := hm.run hs
    rw [inTurn_cons hrun, ih hrest ht, List.map_cons]

/-- under watch, computations one after the other stay in order and come to the same -/
theorem inTurn_watched {α : Type} {ws : List (Watched E α)} {ms : List (Run E α)}
    (h : List.Forall₂ Watches ws ms) {ρ : Record E} (hρ : ρ.InOrder) :
    (inTurn ws ρ).2.InOrder ∧
      inTurn ms ρ.session = ((inTurn ws ρ).1, (inTurn ws ρ).2.session) := by
  induction h generalizing ρ with
  | nil => exact ⟨hρ, rfl⟩
  | cons hw _ ih =>
    obtain ⟨r, ρ', hρ', hwatched, hrun⟩ := hw ρ hρ
    obtain ⟨hin, heq⟩ := ih hρ'
    rw [inTurn_cons hwatched, inTurn_cons hrun, heq]
    exact ⟨hin, rfl⟩

theorem inTurn_fresh {ι α : Type} (xs : List ι) {w : ι → Watched E α} {m : ι → Run E α}
    (hw : ∀ x, Watches (w x) (m x)) (hm : ∀ x, Steady (m x)) :
    let watched := inTurn (xs.map w) .fresh
    inTurn (xs.map m) .fresh = (watched.1, watched.2.session) ∧
      watched.1 = xs.map (fun x => (m x).alone) ∧ watched.2.InOrder := by
  have hpairs : List.Forall₂ Watches (xs.map w) (xs.map m) := by
    rw [List.forall₂_map_left_iff, List.forall₂_map_right_iff, List.forall₂_same]
    exact fun x _ => hw x
  obtain ⟨hin, heq⟩ := inTurn_watched hpairs Record.inOrder_fresh
  have hsteady : ∀ r ∈ xs.map m, Steady r := by
    rw [List.forall_mem_map]
    exact fun x _ => hm x
  have halone := inTurn_steady hsteady Session.sound_fresh
  rw [List.map_map] at halone
  exact ⟨heq, (congrArg Prod.fst heq).symm.trans halone, hin⟩

theorem Path.watches_evaluate [E.Deterministic] (p : Path) (r : Registry) (d : Document)
    (o : EvaluateOptions) :
    Watches (p.evaluate (Watched.hooks E r) d o) (p.evaluate (r.hooks E) d o) :=
  (Watched.related_hooks r).path (Watched.watches_ofExcept _) d

/-! ## requests and questions -/

/-- a path to be evaluated on a document, with its limits -/
structure Request where
  document : Document
  path : Path
  options : EvaluateOptions

def Request.run {σ : Type} (H : Hooks σ) (q : Request) : Stateful σ Output :=
  q.path.evaluate H q.document q.options

/-- what a query can be asked about a document -/
inductive Question where
  | output
  | all
  | first
  | any

inductive Answer where
  | output (o : Output)
  | all (values : List Document)
  | first (value : Option Document)
  | any (holds : Bool)

/-- the answer to a question that an output gives -/
def Question.answer : Question → Output → Answer
  | output, o => .output o
  | all, o => .all o.toList
  | first, o => .first o.toList.head?
  | any, o => .any !o.toList.isEmpty

namespace Query

def ask (E : RegexEngine) (q : Query) (d : Document) : Question → Run E Answer
  | .output => .output <$> q.evaluate E d
  | .all => .all <$> q.all E d
  | .first => .first <$> q.first E d
  | .any => .any <$> q.any E d

theorem ask_eq (q : Query) (d : Document) (question : Question) :
    q.ask E d question = question.answer <$> q.evaluate E d := by
  cases question with
  | output => rfl
  | all =>
    rw [ask, all, Functor.map_map]
    rfl
  | first =>
    rw [ask, first, all, Functor.map_map, Functor.map_map]
    rfl
  | any =>
    rw [ask, any, all, Functor.map_map, Functor.map_map]
    rfl

def watched (E : RegexEngine) (q : Query) (d : Document) (question : Question) :
    Watched E Answer :=
  question.answer <$> q.path.evaluate (Watched.hooks E q.registry) d q.options

variable [E.Deterministic]

theorem watches_ask (q : Query) (d : Document) (question : Question) :
    Watches (q.watched E d question) (q.ask E d question) := by
  rw [ask_eq]
  exact (Watched.related_hooks q.registry).map
    (q.path.watches_evaluate q.registry d q.options) _

theorem steady_ask (q : Query) (d : Document) (question : Question) :
    (q.ask E d question).Steady := by
  rw [ask_eq]
  exact (q.path.steady_evaluate q.registry d q.options).map _

theorem alone_ask (q : Query) (d : Document) (question : Question) :
    (q.ask E d question).alone = question.answer <$> (q.evaluate E d).alone := by
  rw [ask_eq]
  exact (q.path.steady_evaluate q.registry d q.options).alone_map _

end Query

/-- **What is left behind is not seen.** Of many evaluations in one session, one after the other
and whether or not they end well, each ends as it does in a fresh session; and whatever questions a
query has been asked before, it answers the next one by the output of its path. Under watch it is
seen that all this time few regexes are cached, that their texts have passed the guard, and that no
text is compiled or searched for that has not passed it. -/
theorem reuse_unseen (E : RegexEngine) [E.Deterministic] :
    (∀ (r : Registry) (requests : List Request),
      let watched := inTurn (requests.map (·.run (Watched.hooks E r))) .fresh
      inTurn (requests.map (·.run (r.hooks E))) .fresh = (watched.1, watched.2.session) ∧
        watched.1 = requests.map (fun q => (q.run (r.hooks E)).alone) ∧ watched.2.InOrder) ∧
    ∀ (q : Query) (calls : List (Document × Question)),
      let watched := inTurn (calls.map fun c => q.watched E c.1 c.2) .fresh
      inTurn (calls.map fun c => q.ask E c.1 c.2) .fresh = (watched.1, watched.2.session) ∧
        watched.1 = calls.map (fun c => c.2.answer <$> (q.evaluate E c.1).alone) ∧
        watched.2.InOrder := by
  refine ⟨fun r requests => ?_, fun q calls => ?_⟩
  · exact inTurn_fresh requests (fun x => x.path.watches_evaluate r x.document x.options)
      fun x => x.path.steady_evaluate r x.document x.options
  · have h := inTurn_fresh calls (fun c => q.watches_ask (E := E) c.1 c.2)
      fun c => q.steady_ask c.1 c.2
    simp only [Query.alone_ask] at h
    exact h

/-- two questions about two elements, for which a pattern passes the guard four times, is compiled
once and is searched for four times -/
theorem reuse_unseen_twice :
    let E := Pattern.engine
    let f : Filter := .binary (.known .pattern) (.reference []) (.literal (.text "a"))
    let q : Query := ⟨Path.ofSteps [.filter f], {}, .empty⟩
    let d := Document.list [.text "a", .text "b"]
    let watched := inTurn [q.watched E d .all, q.watched E d .any] .fresh
    let output := (q.evaluate E d).alone
    watched.1 = [Question.all.answer <$> output, Question.any.answer <$> output] ∧
      watched.2.InOrder ∧ watched.2.moments.length = 9 ∧ watched.2.session.regexes.size = 1 := by
  intro E f q d watched output
  obtain ⟨-, hanswers, hin⟩ := (reuse_unseen E).2 q [(d, .all), (d, .any)]
  exact ⟨hanswers, hin, by decide +kernel, by decide +kernel⟩

end PathQuery
