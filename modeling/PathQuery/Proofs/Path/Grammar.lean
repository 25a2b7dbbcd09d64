import PathQuery.Proofs.Filter.Grammar
import PathQuery.Proofs.Path.Reading
import PathQuery.Proofs.Token.Proper

/-!
# The grammar of paths

    path     ::= [ROOT | WORD] segment*                      (not empty)
    segment  ::= '.' (WORD | '*') | '..' (WORD | STRING | '*') | '[' body ']'
               | '..'                                        (before '[' or the end)
    body     ::= '*' | STRING | INT | [INT] ':' [INT] [':' [INT]] | '?' or

* `Path.Derives`           the grammar;
* `Path.parse_iff_derives` reading a text succeeds with the steps that its tokens derive, and with
                           no others.
-/

namespace PathQuery
open Token Token.Reader

namespace Step

/-- the tokens between two brackets -/
inductive Body : List Kind → Step → Prop
  | wildcard : Body [.star] .wildcard
  | quoted (name : String) : Body [.text name] (.property name)
  | index (i : Int) : Body [.integer i] (.index i)
  | slice (start stop : Option Int) :
      Body (integerKinds start ++ .colon :: integerKinds stop) (.slice ⟨start, stop, none⟩)
  | stepped (start stop step : Option Int) :
      Body (integerKinds start ++ .colon :: (integerKinds stop ++ .colon :: integerKinds step))
        (.slice ⟨start, stop, step⟩)
  | filter {ks : List Kind} {f : Filter} (h : Filter.Derives .or ks f) :
      Body (.question :: ks) (.filter f)

/-- the tokens of a step, in front of those behind -/
inductive Derives : List Kind → Step → List Kind → Prop
  | member {k : Kind} {name : String} {behind : List Kind} (h : k.word? = some name) :
      Derives [.dot, k] (.property name) behind
  | anyMember {behind : List Kind} : Derives [.dot, .star] .wildcard behind
  | sought {k : Kind} {name : String} {behind : List Kind} (h : k.word? = some name) :
      Derives [.dots, k] (.descendants (some name)) behind
  | soughtText (name : String) {behind : List Kind} :
      Derives [.dots, .text name] (.descendants (some name)) behind
  | soughtAny {behind : List Kind} : Derives [.dots, .star] (.descendants none) behind
  | bare {behind : List Kind} (h : ∀ k ∈ behind.head?, k = .openBracket) :
      Derives [.dots] (.descendants none) behind
  | bracket {ks behind : List Kind} {step : Step} (h : Body ks step) :
      Derives (.openBracket :: (ks ++ [.closeBracket])) step behind

inductive DeriveAll : List Kind → List Step → Prop
  | nil : DeriveAll [] []
  | cons {ks ls : List Kind} {step : Step} {steps : List Step} (h : Derives ks step ls)
      (more : DeriveAll ls steps) : DeriveAll (ks ++ ls) (step :: steps)

end Step

inductive Path.Derives : List Kind → List Step → Prop
  | root {ks : List Kind} {steps : List Step} (h : Step.DeriveAll ks steps) :
      Derives (.root :: ks) (.root :: steps)
  | name {k : Kind} {name : String} {ks : List Kind} {steps : List Step}
      (hk : k.word? = some name) (h : Step.DeriveAll ks steps) :
      Derives (k :: ks) (.property name :: steps)
  | steps {ks : List Kind} {steps : List Step} (hne : ks ≠ []) (h : Step.DeriveAll ks steps) :
      Derives ks steps


namespace Step

variable {b : Filter.Bounds} {step : Step} {ks behind : List Kind}

/-! ## what the grammar derives is read -/

/-- the tokens of a step and those of its filter, if it has one, are no more than the limit -/
theorem Body.readBracket_ok (h : Body ks step) (hlimit : ks.length ≤ b.limit) (opening : ℕ)
    {tokens : List Token} (htokens : tokens.map Token.kind = ks ++ [.closeBracket])
    (rest : List Token) : readBracket b opening (tokens ++ rest) = .ok step rest := by
  cases h with
  | wildcard => exact readBracket_wildcard opening htokens rest
  | quoted name => exact readBracket_quoted opening htokens rest
  | index i => exact readBracket_index opening htokens rest
  | slice start stop =>
    exact readBracket_slice opening (fun us rest hus => readSlice_stop b.finish start stop hus rest)
      (by simpa using htokens) rest
  | stepped start stop step =>
    exact readBracket_slice opening
      (fun us rest hus => readSlice_step b.finish start stop step hus rest)
      (by simpa using htokens) rest
  | filter hf =>
    rw [List.length_cons] at hlimit
    exact readBracket_filter opening
      (hf.parses.whole (Nat.le_refl 1) (Nat.le_of_succ_le hlimit) (Nat.le_of_succ_le hlimit))
      htokens rest

theorem Derives.front (h : Derives ks step behind) :
    ∃ k ls, ks = k :: ls ∧ (k = .dot ∨ k = .dots ∨ k = .openBracket) := by
  cases h <;> exact ⟨_, _, rfl, by simp⟩

theorem Derives.readSegment_ok (h : Derives ks step behind) (hlimit : ks.length ≤ b.limit)
    {tokens rest : List Token} (htokens : tokens.map Token.kind = ks)
    (hrest : rest.map Token.kind = behind ++ [.eof]) :
    ∃ position, readSegment b (tokens ++ rest) = .ok ⟨step, position⟩ rest := by
  obtain ⟨k, ls, rfl, -⟩ := h.front
  rw [List.map_eq_cons_iff] at htokens
  obtain ⟨t, ts, rfl, ht, hts⟩ := htokens
  refine ⟨t.position, ?_⟩
  cases h with
  | member hword =>
    rw [List.map_eq_singleton_iff] at hts
    obtain ⟨u, rfl, hu⟩ := hts
    exact readSegment_dot ht (readMember_ok _ (by rw [hu, hword]) rest)
  | anyMember =>
    rw [List.map_eq_singleton_iff] at hts
    obtain ⟨u, rfl, hu⟩ := hts
    exact readSegment_dot ht (readMember_star _ hu rest)
  | sought hword =>
    rw [List.map_eq_singleton_iff] at hts
    obtain ⟨u, rfl, hu⟩ := hts
    exact readSegment_dots ht (readSought_word (by rw [hu, hword]) rest)
  | soughtText name =>
    rw [List.map_eq_singleton_iff] at hts
    obtain ⟨u, rfl, hu⟩ := hts
    exact readSegment_dots ht (readSought_text hu rest)
  | soughtAny =>
    rw [List.map_eq_singleton_iff] at hts
    obtain ⟨u, rfl, hu⟩ := hts
    exact readSegment_dots ht (readSought_star hu rest)
  | bare hbehind =>
    rw [List.map_eq_nil_iff] at hts
    subst hts
    cases rest with
    | nil => simp at hrest
    | cons u rest =>
      refine readSegment_dots ht (readSought_bare ?_ rest)
      cases behind with
      | nil => exact .inr (List.cons.inj hrest).1
      | cons k behind =>
        have hu : u.kind = k := (List.cons.inj hrest).1
        exact .inl (hu.trans (hbehind k rfl))
  | bracket hbody =>
    rw [List.length_cons, List.length_append] at hlimit
    exact readSegment_bracket ht (hbody.readBracket_ok (by omega) t.position hts rest)

theorem DeriveAll.length_le {steps : List Step} (h : DeriveAll ks steps) :
    steps.length ≤ ks.length := by
  induction h with
  | nil => exact Nat.le_refl 0
  | cons h _ ih =>
    obtain ⟨k, ls, rfl, -⟩ := h.front
    rw [List.length_append, List.length_cons, List.length_cons]
    omega

/-- a row of steps does not begin with the root or with a name -/
theorem DeriveAll.front {k : Kind} {steps : List Step} (h : DeriveAll (k :: ks) steps) :
    k ≠ .root ∧ k.word? = none := by
  generalize hcons : k :: ks = ls at h
  cases h with
  | nil => cases hcons
  | cons h _ =>
    obtain ⟨k', ls', rfl, hk⟩ := h.front
    cases hcons
    rcases hk with rfl | rfl | rfl <;> exact ⟨by decide, rfl⟩

theorem DeriveAll.readRest_ok {steps : List Step} (h : DeriveAll ks steps)
    (hlimit : ks.length ≤ b.limit) {tokens : List Token}
    (htokens : tokens.map Token.kind = ks ++ [.eof]) {tries : ℕ} (htries : steps.length ≤ tries) :
    ∃ segments, Path.readRest b tries tokens = (segments, none) ∧
      segments.map Segment.step = steps := by
  induction h generalizing tokens tries with
  | nil =>
    refine ⟨[], ?_, rfl⟩
    rw [List.nil_append, List.map_eq_singleton_iff] at htokens
    obtain ⟨t, rfl, ht⟩ := htokens
    cases tries with
    | zero => rfl
    | succ tries =>
      have hend : atEnd [t] = true := beq_iff_eq.mpr ht
      rw [Path.readRest, if_pos hend]
  | @cons ks ls step steps h more ih =>
    rw [List.length_cons] at htries
    obtain ⟨tries, rfl⟩ : ∃ n, tries = n + 1 := ⟨tries - 1, by omega⟩
    rw [List.length_append] at hlimit
    rw [List.append_assoc, List.map_eq_append_iff] at htokens
    obtain ⟨ts, us, rfl, hts, hus⟩ := htokens
    obtain ⟨position, hread⟩ := h.readSegment_ok (b := b) (by omega) hts hus
    obtain ⟨segments, hmore, hsteps⟩ := ih (by omega) hus (Nat.le_of_succ_le_succ htries)
    have hgoes : ¬atEnd (ts ++ us) = true := by
      obtain ⟨k, ks, rfl, hk⟩ := h.front
      rw [List.map_eq_cons_iff] at hts
      obtain ⟨t, ts, rfl, rfl, -⟩ := hts
      show ¬(t.kind == .eof) = true
      rcases hk with hk | hk | hk <;> rw [hk] <;> decide
    refine ⟨⟨step, position⟩ :: segments, ?_, by rw [List.map_cons, hsteps]⟩
    rw [Path.readRest, if_neg hgoes, hread]
    dsimp only
    rw [hmore]

/-! ## what is read, the grammar derives -/

theorem word_ne_eof {k : Kind} {name : String} (h : k.word? = some name) : Kind.eof ≠ k := by
  rintro rfl
  cases h

end Step

theorem Filter.Derives.eof_not_mem {t : Filter.Tier} {ks : List Kind} {f : Filter}
    (h : Filter.Derives t ks f) : Kind.eof ∉ ks := by
  have separated {parts : List (List Kind × Filter)} (h : ∀ p ∈ parts, Kind.eof ∉ p.1) :
      Kind.eof ∉ Filter.separated parts := by
    induction parts with
    | nil => exact List.not_mem_nil
    | cons p parts ih =>
      have hp := h p List.mem_cons_self
      have hmore := ih fun q hq => h q (List.mem_cons_of_mem p hq)
      cases parts with
      | nil => rwa [Filter.separated_singleton]
      | cons q parts =>
        rw [Filter.separated_cons_cons]
        simp [hp, hmore]
  induction h with
  | comparison _ _ _ ih ih' =>
    rename_i op _ _ _ _ _ _ _
    cases op <;> simp [Operator.kind, ih, ih']
  | reference hnames =>
    refine List.not_mem_cons_of_ne_of_not_mem (by decide) ?_
    induction hnames with
    | nil => exact List.not_mem_nil
    | cons hname _ ih =>
      rw [List.mem_append, not_or]
      refine ⟨?_, ih⟩
      cases hname with
      | word hword => simp [Step.word_ne_eof hword]
      | quoted name => simp
  | literal value => cases value <;> simp [Literal.kind]
  | call _ ih => simp [separated ih]
  | _ => simp_all

namespace Step

theorem Body.eof_not_mem (h : Body ks step) : Kind.eof ∉ ks := by
  have integers (n : Option Int) : Kind.eof ∉ integerKinds n := by
    cases n <;> simp [integerKinds]
  cases h with
  | filter hf => simp [hf.eof_not_mem]
  | _ => simp [integers]

theorem Derives.eof_not_mem (h : Derives ks step behind) : Kind.eof ∉ ks := by
  cases h with
  | member hword => simp [word_ne_eof hword]
  | sought hword => simp [word_ne_eof hword]
  | bracket hbody => simp [hbody.eof_not_mem]
  | _ => simp

section
variable {before : List Kind}

theorem yields_readInteger : Yields before readInteger? fun n rest =>
    before = integerKinds n ++ rest := by
  intro tokens n rest hbefore hread
  subst hbefore
  unfold readInteger? at hread
  cases tokens with
  | nil =>
    cases hread
    rfl
  | cons t tokens =>
    dsimp only at hread
    split at hread
    · rename_i hk
      cases hread
      exact congrArg (· :: _) hk
    · cases hread
      rfl

theorem yields_readSlice (finish : ℕ) (start : Option Int) :
    Yields before (readSlice finish start) fun step rest =>
      ∃ ks, before = ks ++ .closeBracket :: rest ∧
        Body (integerKinds start ++ .colon :: ks) step := by
  refine Yields.bind (yields_readInteger.mono ?_)
  rintro stop mid rfl
  refine Yields.bind (Yields.skipIf ?_ ?_)
  · rintro mid rfl
    refine Yields.bind (yields_readInteger.mono ?_)
    rintro step mid rfl
    refine Yields.bind (Yields.expect ?_)
    rintro rest rfl
    exact Yields.pure ⟨integerKinds stop ++ .colon :: integerKinds step, by simp,
      .stepped start stop step⟩
  · refine Yields.bind (Yields.pure (Yields.bind (Yields.expect ?_)))
    rintro rest rfl
    exact Yields.pure ⟨integerKinds stop, rfl, .slice start stop⟩

theorem yields_readBracket (opening : ℕ) :
    Yields before (readBracket b opening) fun step rest =>
      ∃ ks, before = ks ++ .closeBracket :: rest ∧ Body ks step := by
  have single {k : Kind} {mid : List Kind} {step : Step} (h : Body [k] step) :
      Yields mid (closed b.finish step) fun step rest =>
        ∃ ks, k :: mid = ks ++ .closeBracket :: rest ∧ Body ks step := by
    refine Yields.bind (Yields.expect fun rest hrest => Yields.pure ⟨[k], ?_, h⟩)
    rw [hrest]
    rfl
  refine Yields.bind (Yields.next fun t mid hmid => ?_)
  rw [hmid]
  cases hk : t.kind with
  | star => exact single .wildcard
  | question =>
    refine Yields.bind ((Filter.yields_read b.limit b.finish).mono ?_)
    rintro f _ ⟨ks, rfl, hf⟩
    refine Yields.bind (Yields.expect fun rest hrest => Yields.pure ⟨_, ?_, .filter hf⟩)
    rw [hrest]
    rfl
  | text name => exact single (.quoted name)
  | integer i =>
    refine Yields.bind (Yields.skipIf ?_ ?_)
    · rintro mid rfl
      refine (yields_readSlice b.finish (some i)).mono ?_
      rintro step rest ⟨ks, rfl, hstep⟩
      exact ⟨_, rfl, hstep⟩
    · exact single (.index i)
  | colon =>
    refine (yields_readSlice b.finish none).mono ?_
    rintro step rest ⟨ks, rfl, hstep⟩
    exact ⟨_, rfl, hstep⟩
  | closeBracket => exact Yields.throw _
  | _ => exact Yields.refuse _ _

def upToEnd (ks : List Kind) : List Kind := ks.takeWhile (· != .eof)

def Spans (before : List Kind) (step : Step) (rest : List Kind) : Prop :=
  ∃ ks, before = ks ++ rest ∧ Derives ks step (upToEnd rest)

theorem yields_readMember (finish : ℕ) :
    Yields before (readMember finish) (Spans (.dot :: before)) := by
  refine Yields.bind (Yields.next fun t rest hrest => ?_)
  rw [hrest]
  split
  · rename_i name hword
    exact Yields.pure ⟨_, rfl, .member hword⟩
  · split
    · rename_i hstar
      rw [hstar]
      exact Yields.pure ⟨_, rfl, .anyMember⟩
    · exact Yields.refuse _ _

theorem yields_readSought : Yields before readSought (Spans (.dots :: before)) := by
  refine Yields.bind (Yields.front fun t? ht => ?_)
  cases t? with
  | none =>
    have hnil : before = [] := List.head?_eq_none_iff.mp ht.symm
    subst hnil
    exact Yields.pure ⟨[.dots], rfl, .bare fun k hk => by cases hk⟩
  | some t =>
    obtain ⟨mid, rfl⟩ : ∃ mid, before = t.kind :: mid := ⟨_, List.eq_cons_of_mem_head? ht.symm⟩
    dsimp only
    split
    · rename_i name hword
      exact Yields.bind (Yields.skip (Yields.pure ⟨_, rfl, .sought hword⟩))
    · split
      · rename_i name htext
        rw [htext]
        exact Yields.bind (Yields.skip (Yields.pure ⟨_, rfl, .soughtText name⟩))
      · rename_i hstar
        rw [hstar]
        exact Yields.bind (Yields.skip (Yields.pure ⟨_, rfl, .soughtAny⟩))
      · rename_i hopen
        rw [hopen]
        refine Yields.pure ⟨[.dots], rfl, .bare fun k hk => ?_⟩
        cases hk
        rfl
      · rename_i heof
        rw [heof]
        exact Yields.pure ⟨[.dots], rfl, .bare fun k hk => by cases hk⟩
      · exact Yields.refuse _ _

/-- **Whatever is read as a step, the grammar derives.** -/
theorem yields_readSegment :
    Yields before (readSegment b) fun s rest => Spans before s.step rest := by
  refine Yields.bind (Yields.next fun t mid hmid => ?_)
  rw [hmid]
  dsimp only
  split
  · rename_i hk
    rw [hk]
    exact Yields.bind ((yields_readMember _).mono fun step rest h => Yields.pure h)
  · rename_i hk
    rw [hk]
    exact Yields.bind (yields_readSought.mono fun step rest h => Yields.pure h)
  · rename_i hk
    rw [hk]
    refine Yields.bind ((yields_readBracket _).mono ?_)
    rintro step rest ⟨ks, rfl, hstep⟩
    exact Yields.pure ⟨_, by simp, .bracket hstep⟩
  · exact Yields.bind (Yields.refuse _ _)
  · exact Yields.bind (Yields.refuse _ _)

end

theorem upToEnd_append (h : Kind.eof ∉ ks) : upToEnd (ks ++ [.eof]) = ks := by
  induction ks with
  | nil => rfl
  | cons k ks ih =>
    rw [List.mem_cons, not_or] at h
    have hk : (k != .eof) = true := bne_iff_ne.mpr (Ne.symm h.1)
    rw [upToEnd, List.cons_append, List.takeWhile_cons, if_pos hk]
    exact congrArg (k :: ·) (ih h.2)

/-- a step takes none but the first of the tokens before the end -/
theorem Spans.split {rest : List Kind} (h : Spans (ks ++ [.eof]) step rest)
    (hend : Kind.eof ∉ ks) :
    ∃ ls ms, ks = ls ++ ms ∧ rest = ms ++ [.eof] ∧ Kind.eof ∉ ms ∧ Derives ls step ms := by
  obtain ⟨ls, hls, hstep⟩ := h
  rcases List.eq_nil_or_concat' rest with rfl | ⟨ms, k, rfl⟩
  · rw [List.append_nil] at hls
    exact absurd (hls ▸ List.mem_append_right ks List.mem_cons_self) hstep.eof_not_mem
  · rw [← List.append_assoc] at hls
    obtain ⟨rfl, heof⟩ := List.append_inj' hls rfl
    cases heof
    have hms : Kind.eof ∉ ms := fun h => hend (List.mem_append_right ls h)
    rw [upToEnd_append hms] at hstep
    exact ⟨ls, ms, rfl, rfl, hms, hstep⟩

theorem deriveAll_of_readRest {tries : ℕ} {tokens : List Token} {segments : List Segment}
    (htokens : tokens.map Token.kind = ks ++ [.eof]) (hend : Kind.eof ∉ ks)
    (htries : ks.length ≤ tries) (h : Path.readRest b tries tokens = (segments, none)) :
    DeriveAll ks (segments.map Segment.step) := by
  induction tries generalizing ks tokens segments with
  | zero =>
    have hnil : ks = [] := List.length_eq_zero_iff.mp (Nat.le_zero.mp htries)
    subst hnil
    cases h
    exact .nil
  | succ tries ih =>
    unfold Path.readRest at h
    split at h
    · rename_i hatEnd
      cases h
      cases ks with
      | nil => exact .nil
      | cons k ks =>
        rw [List.cons_append, List.map_eq_cons_iff] at htokens
        obtain ⟨t, ts, rfl, rfl, -⟩ := htokens
        exact absurd (beq_iff_eq.mp hatEnd ▸ List.mem_cons_self) hend
    · split at h
      · rename_i segment rest hread
        generalize hmore : Path.readRest b tries rest = result at h
        obtain ⟨more, error?⟩ := result
        cases h
        obtain ⟨ls, ms, rfl, hrest, hms, hstep⟩ :=
          (yields_readSegment htokens hread).split hend
        obtain ⟨k, ls', hcons, -⟩ := hstep.front
        rw [hcons, List.length_append, List.length_cons] at htries
        exact .cons hstep (ih hrest hms (by omega) hmore)
      · cases h

end Step

namespace Path

/-! ## whole paths -/

/-- reading has come to the end of the text with these steps -/
def Arrives (result : List Segment × Option PathError) (steps : List Step) : Prop :=
  result.2 = none ∧ result.1.map Segment.step = steps

section
variable {b : Filter.Bounds} {ks : List Kind} {steps : List Step}

theorem readRest_iff (hend : Kind.eof ∉ ks) (hlimit : ks.length ≤ b.limit) {tokens : List Token}
    (htokens : tokens.map Token.kind = ks ++ [.eof]) {tries : ℕ} (htries : ks.length ≤ tries) :
    Arrives (readRest b tries tokens) steps ↔ Step.DeriveAll ks steps := by
  constructor
  · rintro ⟨herror, rfl⟩
    exact Step.deriveAll_of_readRest htokens hend htries (Prod.ext rfl herror)
  · intro h
    obtain ⟨segments, hread, hsteps⟩ := h.readRest_ok hlimit htokens (h.length_le.trans htries)
    rw [hread]
    exact ⟨rfl, hsteps⟩

theorem readTokens_word {t : Token} {name : String} (ht : t.kind.word? = some name)
    (rest : List Token) : readTokens b (t :: rest)
      = (⟨.property name, t.position⟩ :: (readRest b (t :: rest).length rest).1,
        (readRest b (t :: rest).length rest).2) := by
  have hgoes : ¬atEnd (t :: rest) = true := by
    show ¬(t.kind == .eof) = true
    rw [beq_iff_eq]
    exact (Step.word_ne_eof ht).symm
  have hroot : t.kind ≠ .root := by
    intro h
    rw [h] at ht
    cases ht
  have hhead : Step.readHead? (t :: rest) = .ok (some ⟨.property name, t.position⟩) rest := by
    unfold Step.readHead?
    rw [bind_ok (front_eq _), List.head?_cons]
    dsimp only
    rw [if_neg hroot, ht]
    rfl
  unfold readTokens
  rw [if_neg hgoes, hhead]
  rfl

theorem readTokens_other {t : Token} (heof : t.kind ≠ .eof) (hroot : t.kind ≠ .root)
    (hword : t.kind.word? = none) (rest : List Token) :
    readTokens b (t :: rest) = readRest b (t :: rest).length (t :: rest) := by
  have hgoes : ¬atEnd (t :: rest) = true := by
    show ¬(t.kind == .eof) = true
    rwa [beq_iff_eq]
  have hhead : Step.readHead? (t :: rest) = .ok none (t :: rest) := by
    unfold Step.readHead?
    rw [bind_ok (front_eq _), List.head?_cons]
    dsimp only
    rw [if_neg hroot, hword]
    rfl
  unfold readTokens
  rw [if_neg hgoes, hhead]
  rfl

theorem arrives_cons {segment : Segment} {segments : List Segment} {error? : Option PathError} :
    Arrives (segment :: segments, error?) steps ↔
      ∃ more, steps = segment.step :: more ∧ Arrives (segments, error?) more := by
  constructor
  · rintro ⟨herror, rfl⟩
    exact ⟨_, rfl, herror, rfl⟩
  · rintro ⟨more, rfl, herror, rfl⟩
    exact ⟨herror, rfl⟩

theorem readTokens_iff (hend : Kind.eof ∉ ks) (hlimit : ks.length ≤ b.limit) {tokens : List Token}
    (htokens : tokens.map Token.kind = ks ++ [.eof]) :
    Arrives (readTokens b tokens) steps ↔ Derives ks steps := by
  cases ks with
  | nil =>
    rw [List.nil_append, List.map_eq_singleton_iff] at htokens
    obtain ⟨t, rfl, ht⟩ := htokens
    have hempty : atEnd [t] = true := beq_iff_eq.mpr ht
    rw [readTokens, if_pos hempty]
    constructor
    · rintro ⟨herror, -⟩
      cases herror
    · rintro (_ | _ | ⟨hne, _⟩)
      exact absurd rfl hne
  | cons k ks =>
    have hlen := congrArg List.length htokens
    rw [List.length_map, List.length_append, List.length_cons, List.length_singleton] at hlen
    have hall := htokens
    rw [List.cons_append, List.map_eq_cons_iff] at htokens
    obtain ⟨t, rest, rfl, ht, hrest⟩ := htokens
    have hend' := hend
    rw [List.mem_cons, not_or] at hend'
    rw [List.length_cons] at hlimit
    have hrow (steps : List Step) : Arrives (readRest b (t :: rest).length rest) steps ↔
        Step.DeriveAll ks steps :=
      readRest_iff hend'.2 (Nat.le_of_succ_le hlimit) hrest (by omega)
    by_cases hroot : k = .root
    · rw [readTokens_root (ht.trans hroot), arrives_cons]
      subst hroot
      constructor
      · rintro ⟨more, rfl, hmore⟩
        exact .root ((hrow more).mp hmore)
      · intro h
        cases h with
        | root h => exact ⟨_, rfl, (hrow _).mpr h⟩
        | name hk _ => cases hk
        | steps _ h => exact absurd rfl h.front.1
    · cases hword : k.word? with
      | some name =>
        rw [readTokens_word (ht ▸ hword), arrives_cons]
        constructor
        · rintro ⟨more, rfl, hmore⟩
          exact .name hword ((hrow more).mp hmore)
        · intro h
          cases h with
          | root h => exact absurd rfl hroot
          | name hk h =>
            rw [hword] at hk
            cases hk
            exact ⟨_, rfl, (hrow _).mpr h⟩
          | steps _ h => exact absurd hword (by rw [h.front.2]; exact nofun)
      | none =>
        rw [readTokens_other (ht ▸ Ne.symm hend'.1) (ht ▸ hroot) (ht ▸ hword),
          readRest_iff hend hlimit hall (by rw [hlen]; exact Nat.le_succ _)]
        constructor
        · exact .steps (List.cons_ne_nil _ _)
        · intro h
          cases h with
          | root h => exact absurd rfl hroot
          | name hk h =>
            rw [hword] at hk
            cases hk
          | steps _ h => exact h

end

/-- **The parser accepts exactly its grammar**, with validation left out and as much room for
filters as there are tokens: reading a text succeeds with the steps that its tokens derive, and
there are no two such rows of steps. -/
theorem parse_iff_derives {text : String} {tokens : List Token} {o : ParseOptions}
    (hlex : lex text = .ok tokens) (hvalidate : o.validate = false)
    (hdepth : tokens.length ≤ o.maxFilterDepth) :
    ∃ kinds, tokens.map Token.kind = kinds ++ [.eof] ∧
      (∀ steps, (∃ p, parse o text = ⟨some p, none⟩ ∧ p.steps = steps) ↔ Derives kinds steps) ∧
      ∀ steps steps', Derives kinds steps → Derives kinds steps' → steps = steps' := by
  obtain ⟨kinds, hkinds, hend⟩ := lex_eof hlex
  have hlimit : kinds.length ≤ o.maxFilterDepth := by
    have hlen := congrArg List.length hkinds
    rw [List.length_map, List.length_append] at hlen
    omega
  have hread (steps : List Step) :
      Arrives (readTokens ⟨o.maxFilterDepth, text.length⟩ tokens) steps ↔ Derives kinds steps :=
    readTokens_iff hend hlimit hkinds
  refine ⟨kinds, hkinds, fun steps => ?_, fun steps steps' h h' => ?_⟩
  · rw [← hread]
    unfold parse readText
    rw [hlex]
    dsimp only
    generalize readTokens ⟨o.maxFilterDepth, text.length⟩ tokens = result
    obtain ⟨segments, error?⟩ := result
    cases error? with
    | none =>
      dsimp only
      rw [hvalidate, if_neg Bool.false_ne_true]
      constructor
      · rintro ⟨p, hp, rfl⟩
        cases hp
        exact ⟨rfl, rfl⟩
      · rintro ⟨-, rfl⟩
        exact ⟨⟨segments⟩, rfl, rfl⟩
    | some e =>
      constructor
      · rintro ⟨p, hp, -⟩
        exact absurd (congrArg Outcome.error? hp) nofun
      · rintro ⟨herror, -⟩
        cases herror
  · exact ((hread steps).mpr h).2.symm.trans ((hread steps').mpr h').2

/-- a text with operators of all levels, a bare `..` in front of a bracket and one at the end -/
def mixedText : String := "a.true..[?!@.b == f(1, 'x') || @ near 2 && (@['c'])][1::-1].."

theorem parse_iff_derives_mixedText :
    ∃ tokens, lex mixedText = .ok tokens ∧ tokens.length ≤ 64 ∧
      ∃ kinds steps, tokens.map Token.kind = kinds ++ [.eof] ∧ Derives kinds steps ∧
        ∃ p, parse { validate := false } mixedText = ⟨some p, none⟩ ∧ p.steps = steps := by
  have hlength : ((lex mixedText).toOption.any fun tokens => tokens.length ≤ 64) = true := by
    decide +kernel
  have hparse : ((parse { validate := false } mixedText).path?.isSome
      && (parse { validate := false } mixedText).error?.isNone) = true := by
    decide +kernel
  cases hlex : lex mixedText with
  | error e =>
    rw [hlex] at hlength
    cases hlength
  | ok tokens =>
    rw [hlex] at hlength
    have hle : tokens.length ≤ 64 := of_decide_eq_true hlength
    obtain ⟨kinds, hkinds, hiff, -⟩ := parse_iff_derives (o := { validate := false }) hlex rfl hle
    generalize parse { validate := false } mixedText = outcome at hparse hiff
    obtain ⟨_ | p, _ | e⟩ := outcome <;> cases hparse
    have hp : ∃ q, (⟨some p, none⟩ : Outcome) = ⟨some q, none⟩ ∧ q.steps = p.steps := ⟨p, rfl, rfl⟩
    exact ⟨tokens, rfl, hle, kinds, p.steps, hkinds, (hiff _).mp hp, hp⟩

end Path
end PathQuery
