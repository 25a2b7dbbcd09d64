import PathQuery.Path.Parser
import PathQuery.Proofs.Filter.WellRead
import PathQuery.Proofs.Path.Spelling

/-!
# Paths that have been read

Whatever is read as a path can be written: nothing but its first step leads back to the document,
and its filters have no more levels than the limit allows.

* `Step.WellRead`           what holds of all further steps;
* `Path.readText_wellRead`  what holds of all paths;
* `Path.compile_eq`, `Path.of_compile`   what compiles has been read whole, and is valid.
-/

namespace PathQuery
open Token Token.Reader

namespace Step

/-- what holds of a further step that has been read within a limit -/
structure WellRead (limit : ℕ) (step : Step) : Prop where
  printable : step.isPrintable = true
  notRoot : step.isRoot = false
  bound : ∀ f, step.filter? = some f → f.height ≤ max 1 limit

theorem gives_closed {P : Step → Prop} {step : Step} (h : P step) (finish : ℕ) :
    Gives P (closed finish step) :=
  (Gives.expect _ _ _).bind fun _ _ => Gives.pure h

theorem gives_readInteger : Gives (fun n => n.all inIntegerRange = true) readInteger? := by
  intro tokens n rest hproper hread
  unfold readInteger? at hread
  cases tokens with
  | nil =>
    cases hread
    exact ⟨rfl, hproper⟩
  | cons t tokens =>
    dsimp only at hread
    have ht := hproper t List.mem_cons_self
    cases hk : t.kind with
    | integer i =>
      rw [hk] at hread ht
      cases hread
      exact ⟨ht, hproper.tail⟩
    | _ =>
      rw [hk] at hread
      cases hread
      exact ⟨rfl, hproper⟩

variable {limit : ℕ}

theorem gives_readSlice (finish : ℕ) {start : Option Int} (h : start.all inIntegerRange = true) :
    Gives (WellRead limit) (readSlice finish start) := by
  refine gives_readInteger.bind fun stop hstop => (Gives.skipIf _).bind fun more _ => ?_
  have hslice {step : Option Int} (hstep : step.all inIntegerRange = true) :
      WellRead limit (.slice ⟨start, stop, step⟩) := by
    refine ⟨?_, rfl, fun f hf => by cases hf⟩
    show (start.all inIntegerRange && (stop.all inIntegerRange && step.all inIntegerRange)) = true
    rw [h, hstop, hstep]
    rfl
  have hstep : Gives (fun n => n.all inIntegerRange = true)
      (if more = true then readInteger? else pure none) := by
    split
    · exact gives_readInteger
    · exact Gives.pure rfl
  split
  · exact gives_readInteger.bind fun step hstep => gives_closed (hslice hstep) finish
  · exact gives_closed (hslice (rfl : (none : Option Int).all inIntegerRange = true)) finish

theorem gives_readBracket (b : Filter.Bounds) (opening : ℕ) :
    Gives (WellRead b.limit) (readBracket b opening) := by
  refine (Gives.next _).bind fun t ht => ?_
  cases hk : t.kind with
  | star => exact gives_closed ⟨rfl, rfl, fun f hf => by cases hf⟩ _
  | question =>
    refine (Filter.gives_read b.limit b.finish).bind fun f hf => gives_closed ?_ _
    refine ⟨hf.1, rfl, fun g hg => ?_⟩
    cases hg
    exact hf.2
  | text name => exact gives_closed ⟨rfl, rfl, fun f hf => by cases hf⟩ _
  | integer i =>
    rw [hk] at ht
    refine (Gives.skipIf _).bind fun more _ => ?_
    split
    · exact gives_readSlice _ ht
    · exact gives_closed ⟨ht, rfl, fun f hf => by cases hf⟩ _
  | colon => exact gives_readSlice _ rfl
  | closeBracket => exact Gives.throw _
  | _ => exact Gives.refuse _ _

theorem gives_readMember (finish : ℕ) : Gives (WellRead limit) (readMember finish) := by
  refine (Gives.next _).bind fun t _ => ?_
  split
  · exact Gives.pure ⟨rfl, rfl, fun f hf => by cases hf⟩
  · split
    · exact Gives.pure ⟨rfl, rfl, fun f hf => by cases hf⟩
    · exact Gives.refuse _ _

theorem gives_readSought : Gives (WellRead limit) readSought := by
  have hfound (name : Option String) : WellRead limit (.descendants name) :=
    ⟨rfl, rfl, fun f hf => by cases hf⟩
  refine Gives.front.bind fun t? _ => ?_
  cases t? with
  | none => exact Gives.pure (hfound none)
  | some t =>
    dsimp only
    split
    · exact Gives.skip.bind fun _ _ => Gives.pure (hfound _)
    · split
      · exact Gives.skip.bind fun _ _ => Gives.pure (hfound _)
      · exact Gives.skip.bind fun _ _ => Gives.pure (hfound _)
      · exact Gives.pure (hfound _)
      · exact Gives.pure (hfound _)
      · exact Gives.refuse _ _

/-- **Whatever is read as a further step can be written.** -/
theorem gives_readSegment (b : Filter.Bounds) :
    Gives (fun s => WellRead b.limit s.step) (readSegment b) := by
  refine (Gives.next _).bind fun t _ => ?_
  have hstep {r : Reader Step} (hr : Gives (WellRead b.limit) r) :
      Gives (fun s : Segment => WellRead b.limit s.step)
        (r >>= fun step => pure ⟨step, t.position⟩) :=
    hr.bind fun step h => Gives.pure h
  dsimp only
  split
  · exact hstep (gives_readMember _)
  · exact hstep gives_readSought
  · exact hstep (gives_readBracket b _)
  · exact hstep (Gives.refuse _ _)
  · exact hstep (Gives.refuse _ _)

end Step

namespace Path

theorem readRest_wellRead {b : Filter.Bounds} {tries : ℕ} {tokens : List Token}
    (h : AllProper tokens) :
    ∀ s ∈ (readRest b tries tokens).1, s.step.WellRead b.limit := by
  induction tries generalizing tokens with
  | zero =>
    intro s hs
    cases hs
  | succ tries ih =>
    intro s hs
    unfold readRest at hs
    split at hs
    · cases hs
    · split at hs
      · rename_i segment rest hread
        obtain ⟨hsegment, hrest⟩ := Step.gives_readSegment b h hread
        rcases List.mem_cons.mp hs with rfl | hs
        · exact hsegment
        · exact ih hrest s hs
      · cases hs

/-- what holds of the steps of a path that has been read within a limit -/
structure WellRead (limit : ℕ) (p : Path) : Prop where
  printable : p.isPrintable = true
  bound : ∀ f ∈ p.filters, f.height ≤ max 1 limit

theorem gives_readHead :
    Gives (fun head? => ∀ s ∈ head?, s.step.isPrintable = true ∧ s.step.filter? = none)
      Step.readHead? := by
  refine Gives.front.bind fun t? _ => ?_
  cases t? with
  | none => exact Gives.pure fun s hs => by cases hs
  | some t =>
    dsimp only
    split
    · refine Gives.skip.bind fun _ _ => Gives.pure fun s hs => ?_
      cases hs
      exact ⟨rfl, rfl⟩
    · split
      · refine Gives.skip.bind fun _ _ => Gives.pure fun s hs => ?_
        cases hs
        exact ⟨rfl, rfl⟩
      · exact Gives.pure fun s hs => by cases hs

theorem wellRead_of_segments {limit : ℕ} (head? : Option Segment) {segments : List Segment}
    (hhead : ∀ s ∈ head?, s.step.isPrintable = true ∧ s.step.filter? = none)
    (h : ∀ s ∈ segments, s.step.WellRead limit) :
    WellRead limit ⟨head?.toList ++ segments⟩ := by
  have hmem (s : Segment) (hs : s ∈ head?.toList ++ segments) :
      s.step.isPrintable = true ∧ ∀ f, s.step.filter? = some f → f.height ≤ max 1 limit := by
    rcases List.mem_append.mp hs with hs | hs
    · obtain ⟨hp, hf⟩ := hhead s (Option.mem_toList.mp hs)
      exact ⟨hp, fun f hf' => by rw [hf] at hf'; cases hf'⟩
    · exact ⟨(h s hs).printable, (h s hs).bound⟩
  constructor
  · rw [isPrintable, Bool.and_eq_true, List.all_eq_true, List.all_eq_true]
    constructor
    · intro step hstep
      obtain ⟨s, hs, rfl⟩ := List.mem_map.mp hstep
      exact (hmem s hs).1
    · intro step hstep
      rw [steps, ← List.map_tail] at hstep
      obtain ⟨s, hs, rfl⟩ := List.mem_map.mp hstep
      have hrest : s ∈ segments := by
        cases head? with
        | none => exact List.mem_of_mem_tail hs
        | some head => exact hs
      rw [(h s hrest).notRoot]
      rfl
  · intro f hf
    obtain ⟨step, hstep, hfilter⟩ := List.mem_filterMap.mp hf
    obtain ⟨s, hs, rfl⟩ := List.mem_map.mp hstep
    exact (hmem s hs).2 f hfilter

/-- **Whatever is read as a path can be written**, also where reading stopped at a fault. -/
theorem readText_wellRead (limit : ℕ) (text : String) : WellRead limit (readText limit text).1 := by
  have hempty : WellRead limit ⟨[]⟩ :=
    wellRead_of_segments none (fun s hs => by cases hs) fun s hs => by cases hs
  unfold readText
  cases hlex : lex text with
  | error e => exact hempty
  | ok tokens =>
    have hproper : AllProper tokens := lex_proper hlex
    dsimp only
    unfold readTokens
    split
    · exact hempty
    · split
      · rename_i head? rest hread
        obtain ⟨hhead, hrest⟩ := gives_readHead hproper hread
        exact wellRead_of_segments head? hhead (readRest_wellRead hrest)
      · exact hempty

/-! ## compiling -/

section
variable {o : ParseOptions} {text : String} {p : Path}

theorem compile_error {e : PathError} (hread : (readText o.maxFilterDepth text).2 = some e) :
    compile o text = .error e := by
  unfold compile parse
  dsimp only
  rw [hread]
  rfl

/-- what has been read to its end only has to be valid, if that is asked for -/
theorem compile_eq (hread : readText o.maxFilterDepth text = (p, none)) :
    compile o text = if o.validate then (p.validate o.maxDescents).map fun _ => p else .ok p := by
  unfold compile parse
  dsimp only
  rw [hread]
  cases o.validate with
  | false => rfl
  | true => cases p.validate o.maxDescents <;> rfl

theorem compile_ok (hread : readText o.maxFilterDepth text = (p, none))
    (hvalid : p.validate o.maxDescents = .ok ()) : compile o text = .ok p := by
  rw [compile_eq hread, hvalid]
  exact ite_self _

/-- what compiles has been read to its end, and no fault was found in it if one was looked for -/
theorem of_compile (h : compile o text = .ok p) :
    readText o.maxFilterDepth text = (p, none) ∧
      (o.validate = true → p.validate o.maxDescents = .ok ()) := by
  cases hread : readText o.maxFilterDepth text with
  | mk q readError? =>
    cases readError? with
    | some e =>
      rw [compile_error (congrArg Prod.snd hread)] at h
      cases h
    | none =>
      rw [compile_eq hread] at h
      cases hv : o.validate with
      | false =>
        rw [hv] at h
        cases h
        exact ⟨rfl, nofun⟩
      | true =>
        rw [hv, if_pos rfl] at h
        cases hvalidate : q.validate o.maxDescents with
        | error e =>
          rw [hvalidate] at h
          cases h
        | ok u =>
          rw [hvalidate] at h
          cases h
          exact ⟨rfl, fun _ => hvalidate⟩

/-- what compiles can be written -/
theorem wellRead_of_compile (h : compile o text = .ok p) : WellRead o.maxFilterDepth p := by
  have hread := readText_wellRead o.maxFilterDepth text
  rw [(of_compile h).1] at hread
  exact hread

end

end Path
end PathQuery
