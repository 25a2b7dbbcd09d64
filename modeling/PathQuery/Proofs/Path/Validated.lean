import PathQuery.Proofs.Path.Limits
import PathQuery.Proofs.Path.Partial
import PathQuery.Proofs.Path.RoundTrip
import PathQuery.Proofs.Path.WellRead
import PathQuery.Proofs.Filter.Safety

/-!
# The names that validation lets through

Validation asks for operators of a host that one identifier names. Of the name of a function it only
asks that there is one, so that a filter made by hand can have the text of another filter.

* `Filter.isPrintable_iff_parts`   what can be written, part by part;
* `Path.validated_round_trip`      which valid filters are read back.
-/

namespace PathQuery

namespace Filter

/-! ## what can be written -/

/-- what an expression says itself can be written, its parts apart -/
def ownPrintable : Filter → Bool
  | literal value => value.isPrintable
  | binary op _ _ => op.isPrintable
  | call name _ => isFreeName name
  | _ => true

theorem isPrintable_iff_children (f : Filter) : f.isPrintable = true ↔
    f.ownPrintable = true ∧ ∀ g ∈ f.children, g.isPrintable = true := by
  cases f <;> simp [isPrintable, ownPrintable, children, arePrintable_iff]

mutual
theorem isPrintable_of_parts (f : Filter) (h : ∀ g, Part g f → g.ownPrintable = true) :
    f.isPrintable = true := by
  refine (isPrintable_iff_children f).mpr ⟨h f (.self f), ?_⟩
  have hinside (g : Filter) (hg : g ∈ f.children) (part : Filter) (hpart : Part part g) :
      part.ownPrintable = true := h part (.inside hg hpart)
  cases f with
  | literal value => exact List.forall_mem_nil _
  | reference names => exact List.forall_mem_nil _
  | binary op left right =>
    have hright : right ∈ [left, right] := List.mem_cons_of_mem left List.mem_cons_self
    refine List.forall_mem_cons.mpr ⟨?_, List.forall_mem_singleton.mpr ?_⟩
    · exact isPrintable_of_parts left (hinside left List.mem_cons_self)
    · exact isPrintable_of_parts right (hinside right hright)
  | negation operand =>
    exact List.forall_mem_singleton.mpr
      (isPrintable_of_parts operand (hinside operand List.mem_cons_self))
  | call name args => exact arePrintable_of_parts args hinside

theorem arePrintable_of_parts (args : List Filter)
    (h : ∀ f ∈ args, ∀ g, Part g f → g.ownPrintable = true) : ∀ f ∈ args, f.isPrintable = true := by
  cases args with
  | nil => exact List.forall_mem_nil _
  | cons f args =>
    obtain ⟨hf, hargs⟩ := List.forall_mem_cons.mp h
    exact List.forall_mem_cons.mpr ⟨isPrintable_of_parts f hf, arePrintable_of_parts args hargs⟩
end

theorem isPrintable_iff_parts (f : Filter) :
    f.isPrintable = true ↔ ∀ g, Part g f → g.ownPrintable = true := by
  refine ⟨fun h g hg => ?_, isPrintable_of_parts f⟩
  induction hg with
  | self => exact ((isPrintable_iff_children _).mp h).1
  | inside hmem _ ih => exact ih (((isPrintable_iff_children _).mp h).2 _ hmem)

theorem operator_isPrintable_of_fault {f : Filter} (h : f.fault? = none) {op : Operator}
    {left right : Filter} (hpart : Part (.binary op left right) f) : op.isPrintable = true := by
  have hown := List.findSome?_eq_none_iff.mp h _ (mem_walk.mpr hpart)
  cases op with
  | known k => rfl
  | custom name =>
    rw [ownFault?] at hown
    split at hown
    · cases hown
    · rename_i hname
      show isFreeName name = true
      rw [isFreeName_iff]
      simpa using hname

/-- so literals and the names of functions are all that is left to look at -/
theorem isPrintable_of_fault {f : Filter} (h : f.fault? = none)
    (hliterals : ∀ value, Part (.literal value) f → value.isPrintable = true)
    (hnames : ∀ name args, Part (.call name args) f → isFreeName name = true) :
    f.isPrintable = true := by
  rw [isPrintable_iff_parts]
  intro g hpart
  cases g with
  | literal value => exact hliterals value hpart
  | binary op left right => exact operator_isPrintable_of_fault h hpart
  | call name args => exact hnames name args hpart
  | _ => rfl

end Filter

namespace Path
open Token

variable {p : Path} {f : Filter}

theorem normalized_filter (hp : p.steps = [.root, .filter f]) : p.normalized = [.filter f] := by
  rw [normalized, hp]

theorem isPrintable_filter (hp : p.steps = [.root, .filter f]) :
    p.isPrintable = f.isPrintable := by
  rw [isPrintable, hp]
  simp [Step.isPrintable, Step.isRoot]

/-- the canonical text of the path is read as its steps, wherever there is room for its filters -/
def ReadBack (p : Path) : Prop :=
  ∃ tokens, lex p.text = .ok tokens ∧
    ∀ o : ParseOptions, o.validate = false → tokens.length ≤ o.maxFilterDepth →
      ∃ q, parse o p.text = ⟨some q, none⟩ ∧ q.steps = p.steps

/-- **A valid filter is read back where its functions have free names,** and nowhere else: these
are what validation does not look at. -/
theorem validated_round_trip (hp : p.steps = [.root, .filter f])
    (hliterals : ∀ value, Filter.Part (.literal value) f → value.isPrintable = true) {limit : ℕ}
    (hvalid : p.validate limit = .ok ()) :
    p.ReadBack ↔ ∀ name args, Filter.Part (.call name args) f → isFreeName name = true := by
  have hfault : f.fault? = none := by
    have hall := ((validate_iff p limit).mp hvalid).1
    rw [normalized_filter hp, List.forall_mem_singleton] at hall
    exact hall
  constructor
  · rintro ⟨tokens, -, hread⟩ name args hpart
    obtain ⟨q, hparse, hsteps⟩ := hread ⟨false, false, 10, tokens.length⟩ rfl (Nat.le_refl _)
    have hprintable := (readText_wellRead tokens.length p.text).printable
    rw [readText_of_parse hparse, isPrintable_filter (hsteps.trans hp)] at hprintable
    exact (f.isPrintable_iff_parts.mp hprintable) _ hpart
  · intro hnames
    have hprintable : p.isPrintable = true :=
      (isPrintable_filter hp).trans (Filter.isPrintable_of_fault hfault hliterals hnames)
    obtain ⟨tokens, htokens, hlex⟩ := lex_text hprintable
    refine ⟨tokens, hlex, fun o hunchecked hdepth => ?_⟩
    have hlength : p.kinds.length ≤ o.maxFilterDepth := by
      have hlen := congrArg List.length htokens
      rw [List.length_map, List.length_append] at hlen
      omega
    obtain ⟨q, hread, hsteps⟩ := readText_ok hprintable (fits_of_length_le hlength)
    rw [normalized_filter hp, ← hp] at hsteps
    exact ⟨q, parse_unchecked hunchecked hread, hsteps⟩

/-- a call whose name looks like two -/
def splitName : Filter := .call "f() || g" []

/-- it is valid, has the text of a disjunction of two calls, and is not read back -/
theorem validated_round_trip_splitName :
    let p := ofSteps [.root, .filter splitName]
    p.validate 10 = .ok () ∧
      p.text = (ofSteps [.root,
        .filter (.binary (.known .or) (.call "f" []) (.call "g" []))]).text ∧ ¬p.ReadBack := by
  intro p
  have hliterals : ∀ value, Filter.Part (.literal value) splitName → value.isPrintable = true := by
    intro value hpart
    cases hpart with
    | inside hmem _ => cases hmem
  have hvalid : p.validate 10 = .ok () := by
    rw [validate_iff]
    decide +kernel
  refine ⟨hvalid, by decide +kernel, fun hread => ?_⟩
  have hfree := (validated_round_trip rfl hliterals hvalid).mp hread "f() || g" [] (.self _)
  exact absurd hfree (by decide +kernel)

end Path
end PathQuery
