import PathQuery.Proofs.Filter.Counting
import PathQuery.Proofs.Filter.Levels
import PathQuery.Proofs.Path.WellRead

/-!
# Reading keeps count of the levels

What the readers of expressions count is told apart in `Accounted`: the levels of what they give,
the level at which they stand, and the tokens that they take. In the end it is said of all of them,
with the counter of levels written out, and of the filters of whole paths.
-/

namespace PathQuery.Filter
open Token Token.Reader

/-- what reading expressions from `s` on to `t` accounts for -/
structure Accounted (b : Bounds) (s t : Station) (ms : List Measured) : Prop where
  /-- the levels that are counted are those of the expressions -/
  height : ∀ m ∈ ms, m.height = m.filter.depth
  /-- no expression has too many levels, nor has one of its parts -/
  bound : ∀ m ∈ ms, ∀ g, Part g m.filter → g.depth ≤ b.limit
  counter : t.depth = s.depth
  taken : ∃ taken, taken ≠ [] ∧ s.tokens = taken ++ t.tokens

theorem Exact.height_eq_depth {b : Bounds} {m : Measured} (h : Exact b m) :
    m.height = m.filter.depth := by
  rw [depth_eq_height, h.height]

/-- from a limit of one level on, the limit holds for all expressions -/
theorem Exact.part_le {b : Bounds} {m : Measured} (h : Exact b m) (hb : 1 ≤ b.limit) {g : Filter}
    (hg : Part g m.filter) : g.depth ≤ b.limit := by
  have hle := hg.depth_le
  have hbound := h.bound
  rw [h.height_eq_depth] at hbound
  omega

theorem Mirrors.accounted {α : Type} {b : Bounds} {c : Counter α} {r : Reader α} {s t : Station}
    {a : α} (h : Mirrors s.depth c r) (ms : α → List Measured) (hb : 1 ≤ b.limit)
    (hr : Takes r fun a n => (∀ m ∈ ms a, Exact b m) ∧ 0 < n) (hread : c s = .ok a t) :
    Accounted b s t (ms a) := by
  obtain ⟨tokens, depth⟩ := s
  have hsame := h tokens
  rw [hread] at hsame
  generalize hend : r tokens = x at hsame
  cases hsame with
  | ok a rest =>
    obtain ⟨taken, htaken, hexact, hpos⟩ := hr hend
    exact ⟨fun m hm => (hexact m hm).height_eq_depth, fun m hm g hg => (hexact m hm).part_le hb hg,
      rfl, taken, List.ne_nil_of_length_pos hpos, htaken⟩

/-- the greatest of the heights that are counted is that of the levels -/
theorem foldl_height_eq_max {ms : List Measured} (h : ∀ m ∈ ms, m.height = m.filter.depth) :
    ms.foldl (fun h m => max h m.height) 0 = (ms.map fun m => m.filter.depth).max?.getD 0 := by
  rw [← List.map_congr_left h, ← List.foldl_map]
  cases ms with
  | nil => rfl
  | cons m ms => rw [List.map_cons, List.max?_cons', List.foldl_cons, Nat.zero_max, Option.getD_some]

theorem countsRight_innerOf (b : Bounds) (room : ℕ) : CountsRight b (innerOf b room) := by
  cases room with
  | zero => nofun
  | succ room =>
    intro reader hreader least
    cases hreader
    exact takes_expression b room least

/-- what is read of a path, also in front of a fault, has filters within the limit -/
theorem depth_le_of_parse {o : ParseOptions} {text : String} {p : Path}
    (h : (Path.parse o text).path? = some p) {f : Filter} (hf : f ∈ p.filters) :
    f.depth ≤ max 1 o.maxFilterDepth := by
  have hread : (Path.readText o.maxFilterDepth text).1 = p := by
    unfold Path.parse at h
    generalize Path.readText o.maxFilterDepth text = r at h
    obtain ⟨q, readError?⟩ := r
    dsimp only at h
    split at h
    · exact Option.some.inj h
    · split at h
      · exact Option.some.inj h
      · cases h
  rw [depth_eq_height]
  exact (Path.readText_wellRead o.maxFilterDepth text).bound f (hread ▸ hf)

/-- **The readers of expressions keep count of the levels**, whatever the tokens are, from a limit
of one level on. The counter is that of readers that keep one, and they mirror those that are handed
the reader for the next level in. So no filter of a path has too many levels. -/
theorem levels_accounted (b : Bounds) (hb : 1 ≤ b.limit) :
    (∀ least s m t, countedExpression b b.limit least s = .ok m t → Accounted b s t [m]) ∧
    (∀ s m t, countedOperand b (countedExpression b b.limit) s = .ok m t → Accounted b s t [m]) ∧
    (∀ s m t, (onLevel (next b.finish) >>= countedPrimary b (countedExpression b b.limit)) s
      = .ok m t → Accounted b s t [m]) ∧
    (∀ s ms t, countedArguments b (countedExpression b b.limit) s = .ok ms t →
      Accounted b s t ms ∧
        ms.foldl (fun h m => max h m.height) 0 = (ms.map fun m => m.filter.depth).max?.getD 0) ∧
    (∀ depth, let inner := innerOf b (b.limit - depth)
      (∀ least, Mirrors depth (countedExpression b b.limit least) (level b inner least)) ∧
      Mirrors depth (countedOperand b (countedExpression b b.limit)) (operand b inner) ∧
      (∀ token, Mirrors depth (countedPrimary b (countedExpression b b.limit) token)
        (primary b inner token)) ∧
      Mirrors depth (countedArguments b (countedExpression b b.limit))
        (arguments b (expression b (b.limit - depth) 1))) ∧
    ∀ o text p, 1 ≤ o.maxFilterDepth → (Path.parse o text).path? = some p →
      ∀ f ∈ p.filters, f.depth ≤ o.maxFilterDepth := by
  have hexpression (least depth : ℕ) := mirrors_expression b (Nat.le_add_left b.limit depth) least
  have hinner (depth : ℕ) := standsFor_innerOf b fun _ least => hexpression least (depth + 1)
  have hright (depth : ℕ) := countsRight_innerOf b (b.limit - depth)
  have hsingle {m : Measured} {n : ℕ} (h : Exact b m ∧ 0 < n) : (∀ m' ∈ [m], Exact b m') ∧ 0 < n :=
    ⟨List.forall_mem_singleton.mpr h.1, h.2⟩
  have harguments (depth : ℕ) := mirrors_arguments (b := b) (hexpression 1 depth)
  refine ⟨fun least s m t h => ?_, fun s m t h => ?_, fun s m t h => ?_, fun s ms t h => ?_,
    fun depth => ⟨fun least => ?_, ?_, fun token => ?_, ?_⟩, fun o text p ho hp f hf => ?_⟩
  · exact (hexpression least s.depth).accounted (fun m => [m]) hb
      ((takes_expression b _ least).mono fun m n => hsingle) h
  · exact (mirrors_operand (hinner s.depth)).accounted (fun m => [m]) hb
      ((takes_operand (hright s.depth)).mono fun m n => hsingle) h
  · have hprimary : Mirrors s.depth
        (onLevel (next b.finish) >>= countedPrimary b (countedExpression b b.limit))
        (next b.finish >>= primary b (innerOf b (b.limit - s.depth))) :=
      (Mirrors.onLevel _).bind fun token => mirrors_primary (hinner s.depth) token
    refine hprimary.accounted (fun m => [m]) hb (Takes.bind (Takes.next fun token => ?_)) h
    exact (takes_primary (hright s.depth) token).mono fun m n hm => hsingle ⟨hm, by omega⟩
  · have haccounted := (harguments s.depth).accounted id hb
      (takes_arguments (takes_expression b _ 1)) h
    exact ⟨haccounted, foldl_height_eq_max haccounted.height⟩
  · rw [← expression_eq]
    exact hexpression least depth
  · exact mirrors_operand (hinner depth)
  · exact mirrors_primary (hinner depth) token
  · exact harguments depth
  · have hle := depth_le_of_parse hp hf
    omega

/-- `f(@, null) && !@`, read in the middle of an expression within three levels -/
theorem levels_accounted_call :
    let tokens : List Token := [⟨.identifier "f", 0⟩, ⟨.openParen, 1⟩, ⟨.current, 2⟩, ⟨.comma, 3⟩,
      ⟨.null, 5⟩, ⟨.closeParen, 9⟩, ⟨.operator .and, 11⟩, ⟨.not, 14⟩, ⟨.current, 15⟩,
      ⟨.closeBracket, 16⟩]
    let s : Station := ⟨tokens, 1⟩
    let t : Station := ⟨[⟨.closeBracket, 16⟩], 1⟩
    1 ≤ 3 ∧ ∃ m, countedExpression ⟨3, 17⟩ 3 1 s = .ok m t ∧ m.height = 3 ∧
      Accounted ⟨3, 17⟩ s t [m] := by
  intro tokens s t
  have hread : countedExpression ⟨3, 17⟩ 3 1 s = .ok ⟨.binary (.known .and)
      (.call "f" [.reference [], .literal .null]) (.negation (.reference [])), 3⟩ t := rfl
  exact ⟨by decide, _, hread, rfl, (levels_accounted ⟨3, 17⟩ (by decide)).1 1 s _ t hread⟩

end PathQuery.Filter
