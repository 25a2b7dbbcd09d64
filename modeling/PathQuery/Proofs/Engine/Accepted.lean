import PathQuery.Proofs.Filter.Depth
import PathQuery.Proofs.Path.Safety
import PathQuery.Query

/-!
# Accepted paths

A builder holds reading and evaluating to the same ceilings, whatever was set on it. So a path that
it accepts can only be refused for its filters, when they are not safe or cannot be decided; there
is one exception, because readers count no levels where an expression has one only.

* `Stateful.FailsInFilters`     a computation is refused for filters only;
* `QueryBuilder.ofSettings`     builders, by what was set on them;
* `agrees_ofSettings`           their ceilings;
* `QueryBuilder.path_accepted`  what an accepted path is refused for.
-/

namespace PathQuery

/-! ## what can go wrong while a path is followed -/

/-- a security or an evaluation error -/
def PathError.IsOfFilter (e : PathError) : Prop :=
  (∃ fault, e = .security fault) ∨ ∃ fault, e = .evaluation fault

/-- the computation ends in no other errors than those of filters -/
def Stateful.FailsInFilters {σ α : Type} (m : Stateful σ α) : Prop :=
  ∀ s e t, m s = .error e t → e.IsOfFilter

theorem Run.closed_failsInFilters {E : RegexEngine} :
    Closed (E := E) Stateful.FailsInFilters where
  pure a := fun s e t h => nomatch h
  bind := by
    intro α β m f hm hf s e t h
    rcases Stateful.bind_eq_error.mp h with h | ⟨a, u, _, h⟩
    · exact hm s e t h
    · exact hf a u e t h
  security fault := by
    intro s e t h
    cases h
    exact .inl ⟨fault, rfl⟩
  evaluation fault := by
    intro s e t h
    cases h
    exact .inr ⟨fault, rfl⟩
  note i := fun s e t h => nomatch h
  compile text := fun s e t h => nomatch h
  isMatch regex text := fun s e t h => nomatch h

namespace Path
variable {E : RegexEngine}

theorem evaluate_failsInFilters {p : Path} {o : EvaluateOptions}
    (hdescents : (p.steps.filter Step.isDescendants).length ≤ o.maxDescents)
    (hdepth : ∀ f ∈ p.filters, f.depth ≤ o.maxFilterDepth) (r : Registry) (d : Document) :
    (p.evaluate (r.hooks E) d o).FailsInFilters := by
  have hclosed := Run.closed_failsInFilters (E := E)
  have hallow : OnlySecurity (p.allow o) := by
    rw [allow_eq_scan hdescents hdepth]
    exact (Filter.forM_scan_cases p.filters).imp_left fun h => ⟨(), h⟩
  exact (hclosed.related r).path (hclosed.ofExcept hallow) d

/-- without room for levels a filter of one level is refused, and nothing is evaluated -/
theorem evaluate_no_levels {p : Path} {o : EvaluateOptions}
    (hdescents : (p.steps.filter Step.isDescendants).length ≤ o.maxDescents)
    (hlimit : o.maxFilterDepth = 0) (hone : ∀ f ∈ p.filters, f.depth = 1) (hf : p.filters ≠ []) :
    ∃ position, ∀ {ω : Type} (H : Hooks ω) d s,
      p.evaluate H d o s = .error (.validation (.filterDepth 1 0) (some position)) s := by
  cases hcheck : p.checkFilterDepth o.maxFilterDepth with
  | ok u =>
    obtain ⟨f, hmem⟩ := List.exists_mem_of_ne_nil _ hf
    have hle := (p.checkFilterDepth_iff _).mp hcheck f hmem
    rw [hone f hmem] at hle
    omega
  | error e =>
    obtain ⟨f, hmem, position, rfl⟩ := checkFilterDepth_error hcheck
    refine ⟨position, fun H d s => ?_⟩
    rw [evaluate, allow, (p.checkDescents_iff _).mpr hdescents, hcheck, hone f hmem, hlimit]
    rfl

end Path

/-! ## builders -/

namespace QueryBuilder

inductive Setting where
  | maxDepth (n : ℕ)
  | maxDescents (n : ℕ)
  | maxFilterDepth (n : ℕ)
  | operator (name : String) (run : Value → Value → Bool)
  | function (name : String) (f : HostFunction)
  /-- to log what is evaluated, which changes nothing else -/
  | debug

def set (b : QueryBuilder) : Setting → QueryBuilder
  | .maxDepth n => b.maxDepth n
  | .maxDescents n => b.maxDescents n
  | .maxFilterDepth n => b.maxFilterDepth n
  | .operator name run => b.registerOperator name run
  | .function name f => b.registerFunction name f
  | .debug => b

/-- a builder that begins with the default settings, after it has been set -/
def ofSettings (settings : List Setting) : QueryBuilder := settings.foldl set (ofConfig .default)

/-- what is read is checked, and held to the ceilings of evaluating -/
structure Agrees (b : QueryBuilder) : Prop where
  validate : b.parse.validate = true
  descents : b.parse.maxDescents = b.evaluate.maxDescents
  filterDepth : b.parse.maxFilterDepth = b.evaluate.maxFilterDepth

theorem Agrees.set {b : QueryBuilder} (h : b.Agrees) (setting : Setting) :
    (b.set setting).Agrees := by
  obtain ⟨hvalidate, hdescents, hdepth⟩ := h
  cases setting with
  | maxDescents n => exact ⟨hvalidate, rfl, hdepth⟩
  | maxFilterDepth n => exact ⟨hvalidate, hdescents, rfl⟩
  | _ => exact ⟨hvalidate, hdescents, hdepth⟩

theorem Agrees.foldl {b : QueryBuilder} (h : b.Agrees) (settings : List Setting) :
    (settings.foldl QueryBuilder.set b).Agrees := by
  induction settings generalizing b with
  | nil => exact h
  | cons setting settings ih => exact ih (h.set setting)

theorem agrees_ofSettings (settings : List Setting) : (ofSettings settings).Agrees :=
  Agrees.foldl ⟨rfl, rfl, rfl⟩ settings

theorem path_eq_ok {b : QueryBuilder} {text : String} {q : Query} (h : b.path text = .ok q) :
    Path.compile b.parse text = .ok q.path ∧ q.options = b.evaluate := by
  unfold path at h
  cases hcompile : Path.compile b.parse text with
  | error e =>
    rw [hcompile] at h
    cases h
  | ok p =>
    rw [hcompile] at h
    cases h
    exact ⟨rfl, rfl⟩

/-- **Accepted paths can be evaluated.** With room for one level in filters, or without filters,
what a builder accepts ends in security and evaluation errors only, on every document. Without that
room a path with filters is accepted as long as these have one level, and then refused on every
document. -/
theorem path_accepted (settings : List Setting) (text : String) (q : Query)
    (h : (ofSettings settings).path text = .ok q) :
    ((ofSettings settings).parse.maxFilterDepth ≠ 0 ∨ q.path.filters = [] →
      ∀ E d, (q.evaluate E d).FailsInFilters) ∧
    ((ofSettings settings).parse.maxFilterDepth = 0 → q.path.filters ≠ [] →
      ∃ position, ∀ E d s,
        q.evaluate E d s = .error (.validation (.filterDepth 1 0) (some position)) s) := by
  have hagrees := agrees_ofSettings settings
  obtain ⟨hcompile, hoptions⟩ := path_eq_ok h
  generalize ofSettings settings = b at *
  have hvalid := (q.path.validate_iff _).mp ((Path.of_compile hcompile).2 hagrees.validate)
  have hdescents : (q.path.steps.filter Step.isDescendants).length ≤ q.options.maxDescents := by
    rw [q.path.filter_descendants, hoptions, ← hagrees.descents]
    exact hvalid.2
  have hheight (f : Filter) (hf : f ∈ q.path.filters) : f.depth ≤ max 1 b.parse.maxFilterDepth := by
    rw [Filter.depth_eq_height]
    exact (Path.wellRead_of_compile hcompile).bound f hf
  constructor
  · -- readers keep filters of more than one level to the limit, and evaluating has the same one
    intro hroom E d
    refine Path.evaluate_failsInFilters hdescents (fun f hf => ?_) q.registry d
    rw [hoptions, ← hagrees.filterDepth]
    rcases hroom with hroom | hnone
    · have hle := hheight f hf
      omega
    · rw [hnone] at hf
      cases hf
  · -- a filter of one level is all that gets through, and the limit refuses that, too
    intro hlimit hfilters
    have hone (f : Filter) (hf : f ∈ q.path.filters) : f.depth = 1 := by
      have hle := hheight f hf
      have hpos : 0 < f.depth := by
        rw [Filter.depth_eq_height, Filter.height_eq]
        exact Nat.succ_pos _
      omega
    obtain ⟨position, hrefused⟩ := Path.evaluate_no_levels (o := q.options) hdescents
      (by rw [hoptions, ← hagrees.filterDepth, hlimit]) hone hfilters
    exact ⟨position, fun E => hrefused (q.registry.hooks E)⟩

/-- a path with a filter of one level, with room for that level and without -/
theorem path_accepted_one_level :
    let text := "$[?@.a]"
    (∃ q, (ofSettings [.maxFilterDepth 1]).path text = .ok q ∧
      ∀ E d, (q.evaluate E d).FailsInFilters) ∧
    ∃ q, (ofSettings [.maxFilterDepth 0]).path text = .ok q ∧ ∃ position, ∀ E d s,
      q.evaluate E d s = .error (.validation (.filterDepth 1 0) (some position)) s := by
  intro text
  have haccepted (settings : List Setting)
      (h : ((ofSettings settings).path text).toOption.any (!·.path.filters.isEmpty) = true) :
      ∃ q, (ofSettings settings).path text = .ok q ∧ q.path.filters ≠ [] := by
    cases hq : (ofSettings settings).path text with
    | error e =>
      rw [hq] at h
      cases h
    | ok q =>
      rw [hq] at h
      exact ⟨q, rfl, fun hnone => by simp [Except.toOption, hnone] at h⟩
  obtain ⟨q, hq, -⟩ := haccepted [.maxFilterDepth 1] (by decide +kernel)
  obtain ⟨q', hq', hfilters⟩ := haccepted [.maxFilterDepth 0] (by decide +kernel)
  exact ⟨⟨q, hq, (path_accepted _ text q hq).1 (.inl Nat.one_ne_zero)⟩,
    q', hq', (path_accepted _ text q' hq').2 rfl hfilters⟩

end QueryBuilder
end PathQuery
