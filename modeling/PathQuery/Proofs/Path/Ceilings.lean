import PathQuery.Pattern.Engine
import PathQuery.Proofs.Filter.Ceilings
import PathQuery.Proofs.Path.Safety
import PathQuery.Proofs.Path.WellRead

/-!
# Ceilings only refuse

Two limits are ceilings: that on the height of filters and that on `..` nodes. Raised, they change
nothing about a text or a path that they let through before.

* `Path.compile_raised`          what compiles, and what it is refused for apart from the ceilings;
* `Path.allow_raised`            the same of what may be evaluated;
* `Path.ceilings_only_refuse`    whatever passes the ceilings has the same result under higher ones.
-/

namespace PathQuery
open Token Token.Reader

/-! ## reading -/

namespace Step
variable {b : Filter.Bounds} {limit : ℕ}

theorem raised_readBracket (hlimit : b.limit ≤ limit) (opening : ℕ) :
    Filter.Raised b (readBracket b opening) (readBracket (b.upTo limit) opening) := by
  refine (Filter.Raised.refl _).bind fun t => ?_
  cases t.kind with
  | question => exact (Filter.raised_read hlimit).bind fun f => Filter.Raised.refl _
  | _ => exact Filter.Raised.refl _

theorem raised_readSegment (hlimit : b.limit ≤ limit) :
    Filter.Raised b (readSegment b) (readSegment (b.upTo limit)) := by
  refine (Filter.Raised.refl _).bind fun t => ?_
  cases t.kind with
  | openBracket => exact (raised_readBracket hlimit t.position).bind fun step => Filter.Raised.refl _
  | _ => exact Filter.Raised.refl _

end Step

def PathError.IsFilterDepth (limit : ℕ) (e : PathError) : Prop :=
  ∃ found position, e = .parse (.filterDepth limit) found position

def PathError.IsDescents (limit : ℕ) (e : PathError) : Prop :=
  ∃ position, e = .validation (.descents limit) position

namespace Path
variable {b : Filter.Bounds} {limit limit' : ℕ}

theorem readRest_raised (hlimit : b.limit ≤ limit) (tries : ℕ) (tokens : List Token) :
    (∃ e ∈ (readRest b tries tokens).2, e.IsFilterDepth b.limit) ∨
      readRest b tries tokens = readRest (b.upTo limit) tries tokens := by
  induction tries generalizing tokens with
  | zero => exact .inr rfl
  | succ tries ih =>
    unfold readRest
    by_cases hend : atEnd tokens = true
    · rw [if_pos hend, if_pos hend]
      exact .inr rfl
    · rw [if_neg hend, if_neg hend]
      rcases Step.raised_readSegment hlimit tokens with ⟨found, position, rest, hdeep⟩ | hsame
      · rw [hdeep]
        exact .inl ⟨_, rfl, found, position, rfl⟩
      · rw [← hsame]
        cases Step.readSegment b tokens with
        | error e rest => exact .inr rfl
        | ok segment rest =>
          rcases ih rest with hdeep | hsame
          · exact .inl hdeep
          · dsimp only
            rw [hsame]
            exact .inr rfl

theorem readTokens_raised (hlimit : b.limit ≤ limit) (tokens : List Token) :
    (∃ e ∈ (readTokens b tokens).2, e.IsFilterDepth b.limit) ∨
      readTokens b tokens = readTokens (b.upTo limit) tokens := by
  unfold readTokens
  by_cases hend : atEnd tokens = true
  · rw [if_pos hend, if_pos hend]
    exact .inr rfl
  · rw [if_neg hend, if_neg hend]
    cases Step.readHead? tokens with
    | error e rest => exact .inr rfl
    | ok head? rest =>
      rcases readRest_raised hlimit tokens.length rest with hdeep | hsame
      · exact .inl hdeep
      · dsimp only
        rw [hsame]
        exact .inr rfl

theorem readText_raised (hlimit : limit ≤ limit') (text : String) :
    (∃ e ∈ (readText limit text).2, e.IsFilterDepth limit) ∨
      readText limit text = readText limit' text := by
  unfold readText
  cases lex text with
  | error e => exact .inr rfl
  | ok tokens =>
    rcases readTokens_raised (b := ⟨limit, text.length⟩) hlimit tokens with hdeep | hsame
    · exact .inl hdeep
    · dsimp only
      rw [hsame]
      exact .inr rfl

/-! ## validation -/

theorem validate_raised (p : Path) (hlimit : limit ≤ limit') :
    (∃ e, p.validate limit = .error e ∧ e.IsDescents limit) ∨
      p.validate limit = p.validate limit' := by
  cases hsteps : refuseFirst (fun s => s.step.fault?) p.segments with
  | error e => exact .inr (by rw [validate, validate, hsteps]; rfl)
  | ok u =>
    have hcheck (limit : ℕ) : p.validate limit = p.checkDescents limit := by
      rw [validate, hsteps]
      rfl
    rw [hcheck, hcheck]
    cases hdescents : p.checkDescents limit with
    | error e => exact .inl ⟨e, rfl, checkDescents_error hdescents⟩
    | ok u =>
      have hle := (p.checkDescents_iff limit).mp hdescents
      exact .inr ((p.checkDescents_iff limit').mpr (hle.trans hlimit)).symm

/-! ## whole texts -/

/-- **With higher ceilings a text compiles to the same path, or is refused for the same fault**, but
where it was refused for a ceiling. -/
theorem compile_raised {o : ParseOptions} {maxFilterDepth maxDescents : ℕ}
    (hdepth : o.maxFilterDepth ≤ maxFilterDepth) (hdescents : o.maxDescents ≤ maxDescents)
    (text : String) :
    (∃ e, compile o text = .error e ∧
      (e.IsFilterDepth o.maxFilterDepth ∨ e.IsDescents o.maxDescents)) ∨
    compile o text
      = compile { o with maxFilterDepth := maxFilterDepth, maxDescents := maxDescents } text := by
  rcases readText_raised hdepth text with ⟨e, he, hdeep⟩ | hsame
  · exact .inl ⟨e, compile_error he, .inl hdeep⟩
  · -- both readings end alike, so that only the ceiling on descents can still tell them apart
    cases hread : readText o.maxFilterDepth text with
    | mk p readError? =>
      cases readError? with
      | some e =>
        have he : e ∈ (readText o.maxFilterDepth text).2 := by rw [hread]; rfl
        rw [compile_error he]
        exact .inr (compile_error (hsame ▸ he)).symm
      | none =>
        rw [compile_eq hread, compile_eq (hsame ▸ hread)]
        rcases p.validate_raised hdescents with ⟨e, he, hmany⟩ | hvalidate
        · cases o.validate with
          | false => exact .inr rfl
          | true => exact .inl ⟨e, by rw [if_pos rfl, he]; rfl, .inr hmany⟩
        · rw [hvalidate]
          exact .inr rfl

/-! ## evaluation -/

/-- with higher ceilings the same may be evaluated, but what was refused for a ceiling -/
theorem allow_raised (p : Path) {o : EvaluateOptions} {maxDescents maxFilterDepth : ℕ}
    (hdescents : o.maxDescents ≤ maxDescents) (hdepth : o.maxFilterDepth ≤ maxFilterDepth) :
    (∃ fault position, p.allow o = .error (.validation fault position)) ∨
    p.allow o
      = p.allow { o with maxDescents := maxDescents, maxFilterDepth := maxFilterDepth } := by
  cases hd : p.checkDescents o.maxDescents with
  | error e =>
    obtain ⟨position, rfl⟩ := checkDescents_error hd
    exact .inl ⟨_, position, by rw [allow, hd]; rfl⟩
  | ok u =>
    cases hf : p.checkFilterDepth o.maxFilterDepth with
    | error e =>
      obtain ⟨f, _, position, rfl⟩ := checkFilterDepth_error hf
      exact .inl ⟨_, some position, by rw [allow, hd, hf]; rfl⟩
    | ok u =>
      have hd := (p.checkDescents_iff _).mp hd
      have hf := (p.checkFilterDepth_iff _).mp hf
      rw [allow_eq_scan hd hf]
      exact .inr (allow_eq_scan (hd.trans hdescents) fun f h => (hf f h).trans hdepth).symm

/-- **Ceilings only refuse.** What compiles under some limits compiles under higher ones, to the
same path with the same positions. An evaluation that ends in anything but a validation error ends
in the same under higher limits, with the same left behind. -/
theorem ceilings_only_refuse :
    (∀ (o : ParseOptions) (maxFilterDepth maxDescents : ℕ) (text : String) (p : Path),
      o.maxFilterDepth ≤ maxFilterDepth → o.maxDescents ≤ maxDescents → compile o text = .ok p →
      compile { o with maxFilterDepth := maxFilterDepth, maxDescents := maxDescents } text
        = .ok p) ∧
    ∀ (p : Path) {ω : Type} (H : Hooks ω) (d : Document) (s : ω) (o : EvaluateOptions)
      (maxDescents maxFilterDepth : ℕ),
      o.maxDescents ≤ maxDescents → o.maxFilterDepth ≤ maxFilterDepth →
      (∀ fault position t, p.evaluate H d o s ≠ .error (.validation fault position) t) →
      p.evaluate H d { o with maxDescents := maxDescents, maxFilterDepth := maxFilterDepth } s
        = p.evaluate H d o s := by
  constructor
  · intro o maxFilterDepth maxDescents text p hdepth hdescents hcompile
    rcases compile_raised hdepth hdescents text with ⟨e, he, _⟩ | hsame
    · rw [hcompile] at he
      cases he
    · exact hsame.symm.trans hcompile
  · intro p _ H d s o maxDescents maxFilterDepth hdescents hdepth hpast
    rcases p.allow_raised hdescents hdepth with ⟨fault, position, hrefused⟩ | hsame
    · refine absurd ?_ (hpast fault position s)
      rw [evaluate, hrefused]
      rfl
    · rw [evaluate, evaluate, ← hsame]

/-- a text whose ceilings have no room to spare, and an evaluation that has none either -/
theorem ceilings_only_refuse_tight :
    let H := Registry.empty.hooks Pattern.engine
    let o : ParseOptions := { maxDescents := 1, maxFilterDepth := 2 }
    let text := "$..a[?!@]"
    let p := ofSteps [.descendants (some "a"), .filter (.negation (.reference []))]
    let d : Document := .map [("a", .list [.bool false, .bool true])]
    let result := EStateM.Result.ok (Output.many [.bool false]) (.fresh : Session Pattern.engine)
    (∃ q, compile o text = .ok q ∧
      compile { o with maxFilterDepth := 3, maxDescents := 2 } text = .ok q) ∧
    p.evaluate H d ⟨2, 1, 2⟩ .fresh = result ∧ p.evaluate H d ⟨2, 9, 8⟩ .fresh = result := by
  intro H o text p d result
  obtain ⟨hcompile, hevaluate⟩ := ceilings_only_refuse
  have hread : (compile o text).toOption.isSome = true := by decide +kernel
  have hallow : p.allow ⟨2, 1, 2⟩ = .ok () := by decide +kernel
  have hrun : p.evaluate H d ⟨2, 1, 2⟩ .fresh = result := by
    rw [evaluate, hallow]
    rfl
  refine ⟨?_, hrun, ?_⟩
  · cases h : compile o text with
    | error e =>
      rw [h] at hread
      cases hread
    | ok q => exact ⟨q, rfl, hcompile o 3 2 text q (by decide) (by decide) h⟩
  · refine (hevaluate p H d .fresh ⟨2, 1, 2⟩ 9 8 (by decide) (by decide) ?_).trans hrun
    intro fault position t
    simp [hrun, result]

end Path
end PathQuery
