import PathQuery.Proofs.Pattern.Spelling
import Mathlib.Data.List.Forall2

/-!
# What the guard lets through

The guard runs over the characters of a pattern beside the reader of its items. As long as it sees
a group where the reader sees one, it knows of every open group whether there is an unbounded
quantifier in it.

* `passes`         the guard sees no group in some characters;
* `Agrees`         what the guard knows of the open groups is so;
* `Span.isPlain`   an item that the guard takes for what it is;
* `guard_sound`    no unbounded quantifier inside a repeated group, where all items are plain.
-/

namespace PathQuery.Pattern

/-! ## what is noted of the open groups -/

/-- everything that is noted in `groups` is noted in `groups'` -/
abbrev Notes (groups groups' : List Bool) : Prop :=
  List.Forall₂ (fun g g' => g = true → g' = true) groups groups'

theorem Notes.refl (groups : List Bool) : Notes groups groups :=
  List.forall₂_same.mpr fun _ _ => id

theorem Notes.trans {a b c : List Bool} (h : Notes a b) (h' : Notes b c) : Notes a c := by
  induction h generalizing c with
  | nil => exact h'
  | cons hab _ ih =>
    cases h' with
    | cons hbc h' => exact .cons (hbc ∘ hab) (ih h')

theorem notes_noteUnbounded (groups : List Bool) : Notes groups (noteUnbounded groups) := by
  cases groups with
  | nil => exact .nil
  | cons g groups => exact .cons (fun _ => rfl) (Notes.refl groups)

/-- notes an unbounded quantifier, if there is one -/
def noteIf (unbounded : Bool) (groups : List Bool) : List Bool :=
  if unbounded then noteUnbounded groups else groups

theorem notes_noteIf (unbounded : Bool) (groups : List Bool) :
    Notes groups (noteIf unbounded groups) := by
  cases unbounded with
  | false => exact .refl groups
  | true => exact notes_noteUnbounded groups

theorem noteIf_notes (unbounded : Bool) (groups : List Bool) :
    Notes (noteIf unbounded groups) (noteUnbounded groups) := by
  cases unbounded with
  | false => exact notes_noteUnbounded groups
  | true => exact .refl (noteUnbounded groups)

/-- the guard goes on behind some characters with no less noted, and still finds no fault -/
def GoesOn (groups : List Bool) (behind : List Char) : Prop :=
  ∃ groups', Notes groups groups' ∧ guardFrom groups' 0 behind = none

theorem GoesOn.mono {groups groups' : List Bool} {behind : List Char}
    (h : GoesOn groups' behind) (hnotes : Notes groups groups') : GoesOn groups behind := by
  obtain ⟨groups'', hnotes', hguard⟩ := h
  exact ⟨groups'', hnotes.trans hnotes', hguard⟩

/-! ## what the guard does with one character -/

section
variable (groups : List Bool) (rest : List Char)

theorem guardFrom_escape : guardFrom groups 0 ('\\' :: rest) = guardFrom groups 1 rest := rfl

theorem guardFrom_bracket :
    guardFrom groups 0 ('[' :: rest) = guardFrom groups (bracketLength rest) rest := rfl

theorem guardFrom_open :
    guardFrom groups 0 ('(' :: rest)
      = if maxGroupNesting ≤ groups.length then some .tooDeep
        else guardFrom (false :: groups) 0 rest := rfl

theorem guardFrom_close (g : Bool) :
    guardFrom (g :: groups) 0 (')' :: rest)
      = if g then if startsRepetition rest then some .nestedRepetition
          else guardFrom (noteUnbounded groups) 0 rest
        else guardFrom groups 0 rest := by
  cases g <;> rfl

theorem guardFrom_unbounded {c : Char} (h : c = '*' ∨ c = '+') :
    guardFrom groups 0 (c :: rest) = guardFrom (noteUnbounded groups) 0 rest := by
  rcases h with rfl | rfl <;> rfl

theorem guardFrom_brace :
    guardFrom groups 0 ('\x7b' :: rest) = match braceLength? '\x7b' rest with
      | some (n, true) => guardFrom (noteUnbounded groups) n rest
      | some (n, false) => guardFrom groups n rest
      | none => guardFrom groups 0 rest := rfl

theorem guardFrom_skip (used : List Char) :
    guardFrom groups used.length (used ++ rest) = guardFrom groups 0 rest := by
  induction used with
  | nil => rfl
  | cons c used ih => exact ih

theorem guardFrom_other {c : Char} (h : isQuiet c = true) (hstar : c ≠ '*') (hplus : c ≠ '+') :
    guardFrom groups 0 (c :: rest) = guardFrom groups 0 rest := by
  simp only [isQuiet, Bool.not_eq_true', Bool.or_eq_false_iff, beq_eq_false_iff_ne] at h
  obtain ⟨⟨⟨⟨hbackslash, hbracket⟩, hopen⟩, hclose⟩, hbrace⟩ := h
  conv_lhs => unfold guardFrom
  simp only [hbackslash, hbracket, hopen, hclose, hstar, hplus, hbrace, or_self, if_false]

end

theorem goesOn_quiet {c : Char} (h : isQuiet c = true) {groups : List Bool} {rest : List Char}
    (hguard : guardFrom groups 0 (c :: rest) = none) : GoesOn groups rest := by
  by_cases hc : c = '*' ∨ c = '+'
  · rw [guardFrom_unbounded groups rest hc] at hguard
    exact ⟨_, notes_noteUnbounded groups, hguard⟩
  · rw [not_or] at hc
    rw [guardFrom_other groups rest h hc.1 hc.2] at hguard
    exact ⟨groups, .refl groups, hguard⟩

/-! ## characters without groups -/

/-- the guard sees no group in the next `count` characters and is done with them behind the last;
the first `skip` have been dealt with -/
def passes : (count skip : Nat) → List Char → Bool
  | 0, skip, _ => skip == 0
  | _ + 1, _, [] => false
  | count + 1, skip, c :: rest =>
    match skip with
    | skip + 1 => passes count skip rest
    | 0 =>
      if c = '\\' then passes count 1 rest
      else if c = '[' then passes count (bracketLength rest) rest
      else if c = '\x7b' then passes count ((braceLength? c rest).elim 0 Prod.fst) rest
      else c != '(' && c != ')' && passes count 0 rest

theorem goesOn_of_passes {count skip : Nat} {cs : List Char} (h : passes count skip cs = true)
    {groups : List Bool} (hguard : guardFrom groups skip cs = none) :
    GoesOn groups (cs.drop count) := by
  induction count generalizing skip cs groups with
  | zero =>
    have hskip : skip = 0 := beq_iff_eq.mp h
    subst hskip
    exact ⟨groups, .refl groups, hguard⟩
  | succ count ih =>
    cases cs with
    | nil => cases h
    | cons c rest =>
      unfold passes at h
      cases skip with
      | succ skip => exact ih h hguard
      | zero =>
        dsimp only at h
        split at h
        · rename_i hc
          subst hc
          exact ih h hguard
        · split at h
          · rename_i hc
            subst hc
            exact ih h hguard
          · split at h
            · rename_i hc
              subst hc
              rw [guardFrom_brace] at hguard
              split at hguard <;> rename_i hlength <;> rw [hlength] at h
              · exact (ih h hguard).mono (notes_noteUnbounded groups)
              · exact ih h hguard
              · exact ih h hguard
            · rename_i hbackslash hbracket hbrace
              simp only [Bool.and_eq_true, bne_iff_ne] at h
              obtain ⟨⟨hopen, hclose⟩, h⟩ := h
              have hquiet : isQuiet c = true := by
                simp [isQuiet, hbackslash, hbracket, hopen, hclose, hbrace]
              obtain ⟨groups', hnotes, hguard⟩ := goesOn_quiet hquiet hguard
              exact (ih h hguard).mono hnotes

theorem passes_skip (used : List Char) (n : Nat) (cs : List Char) :
    passes (used.length + n) used.length (used ++ cs) = passes n 0 cs := by
  induction used with
  | nil => rw [List.length_nil, Nat.zero_add, List.nil_append]
  | cons c used ih =>
    rw [List.length_cons, Nat.add_right_comm]
    exact ih

theorem passes_quiet {used : List Char} (h : ∀ c ∈ used, isQuiet c = true) (n : Nat)
    (cs : List Char) : passes (used.length + n) 0 (used ++ cs) = passes n 0 cs := by
  induction used with
  | nil => rw [List.length_nil, Nat.zero_add, List.nil_append]
  | cons c used ih =>
    obtain ⟨hc, hused⟩ := List.forall_mem_cons.mp h
    simp only [isQuiet, Bool.not_eq_true', Bool.or_eq_false_iff, beq_eq_false_iff_ne] at hc
    obtain ⟨⟨⟨⟨hbackslash, hbracket⟩, hopen⟩, hclose⟩, hbrace⟩ := hc
    rw [List.length_cons, Nat.add_right_comm, List.cons_append, passes]
    simp only [hbackslash, hbracket, hbrace, if_false, bne_iff_ne.mpr hopen, bne_iff_ne.mpr hclose,
      Bool.true_and]
    exact ih hused

theorem braceLength_eq {inside : List Char} (h : '\x7d' ∉ inside) (before : Char)
    (cs : List Char) :
    braceLength? before (inside ++ '\x7d' :: cs)
      = some (inside.length + 1, inside.getLast?.getD before == ',') := by
  induction inside generalizing before with
  | nil => rfl
  | cons c inside ih =>
    rw [List.mem_cons, not_or] at h
    rw [List.cons_append, braceLength?, if_neg (Ne.symm h.1), ih h.2, Option.map_some,
      List.length_cons]
    cases inside <;> rfl

theorem Code.passes {tail : List Char} (h : Code tail) (cs : List Char) :
    Pattern.passes tail.length 0 (tail ++ cs) = true := by
  cases h with
  | bare h =>
    have hpasses := passes_quiet (fun c hc => quiet_of_isPropertyPart (h c hc)) 0 cs
    rwa [Nat.add_zero] at hpasses
  | @braced ds h =>
    have hinside : '\x7d' ∉ ds := fun hmem => absurd (h _ hmem) (by decide)
    have hpasses := passes_skip (ds ++ ['\x7d']) 0 cs
    rw [Nat.add_zero] at hpasses
    rw [List.length_cons, List.cons_append, Pattern.passes]
    simp only [List.append_assoc, List.singleton_append] at hpasses ⊢
    rw [braceLength_eq hinside]
    rw [List.length_append] at hpasses ⊢
    exact hpasses

/-! ## items -/

/-- how many characters behind the first of an item the guard deals with together with it -/
def skipBehind (c : Char) (rest : List Char) : Nat :=
  if c = '\\' then 1 else if c = '[' then bracketLength rest else 0

/-- what the guard has noted behind an item, and what it has made sure of -/
def Seen (groups : List Bool) (c : Char) (behind : List Char) : Item → Prop
  | .opening _ _ _ => groups.length < maxGroupNesting ∧ GoesOn (false :: groups) behind
  | .closing =>
      ∀ g outer, groups = g :: outer →
        (g = true → startsRepetition behind = false) ∧ GoesOn (noteIf g outer) behind
  | .quantifier q =>
      (q ≠ .optional → startsRepetition [c] = true) ∧ GoesOn (noteIf q.isUnbounded groups) behind
  | _ => GoesOn groups behind

section
variable {c : Char} {taken behind : List Char} {groups : List Bool}

theorem goesOn_lazy (h : Lazy taken) (hguard : guardFrom groups 0 (taken ++ behind) = none) :
    GoesOn groups behind := by
  rcases h with rfl | rfl
  · exact ⟨groups, .refl groups, hguard⟩
  · exact goesOn_quiet (by decide) hguard

/-- the guard is done with the characters of an item at its end -/
theorem goesOn_taken {skip : Nat} (h : passes taken.length skip (taken ++ behind) = true)
    (hguard : guardFrom groups skip (taken ++ behind) = none) : GoesOn groups behind := by
  have hgoes := goesOn_of_passes h hguard
  rwa [List.drop_left] at hgoes

theorem goesOn_close {g : Bool} {outer : List Bool}
    (hguard : guardFrom (g :: outer) 0 (')' :: behind) = none) :
    (g = true → startsRepetition behind = false) ∧ GoesOn (noteIf g outer) behind := by
  rw [guardFrom_close] at hguard
  cases g with
  | false => exact ⟨nofun, outer, .refl outer, hguard⟩
  | true =>
    rw [if_pos rfl] at hguard
    split at hguard
    · cases hguard
    · rename_i hrepetition
      exact ⟨fun _ => Bool.not_eq_true _ ▸ hrepetition, _, Notes.refl _, hguard⟩

theorem seen_opens {item : Item} (h : Opens taken item)
    (hplain : '[' ∈ taken → passes taken.length 0 (taken ++ behind) = true)
    (hguard : guardFrom groups 0 ('(' :: (taken ++ behind)) = none) :
    Seen groups '(' behind item := by
  rw [guardFrom_open] at hguard
  split at hguard
  · cases hguard
  rename_i hlength
  cases h with
  | @group _ mode noted name h =>
    refine ⟨Nat.not_le.mp hlength, ?_⟩
    by_cases hopen : '[' ∈ taken
    · exact goesOn_taken (hplain hopen) hguard
    · have hquiet := passes_quiet
        (fun c hc => (h c hc).resolve_left fun h => hopen (h ▸ hc)) 0 behind
      rw [Nat.add_zero] at hquiet
      exact goesOn_taken hquiet hguard
  | @setting cs mode h =>
    have hquiet := passes_quiet h 0 (')' :: behind)
    rw [Nat.add_zero] at hquiet
    rw [List.append_assoc] at hguard
    obtain ⟨groups', hnotes, hguard⟩ := goesOn_taken hquiet hguard
    cases hnotes with
    | @cons _ g _ outer _ hnotes =>
      exact (goesOn_close hguard).2.mono (Notes.trans hnotes (notes_noteIf g outer))

/-- braces are dealt with as a whole; a comma at their end tells that there is no bound -/
theorem goesOn_counted {inside cs : List Char} {q : Quantifier} (hinside : '\x7d' ∉ inside)
    (hq : q.isUnbounded = true → inside.getLast? = some ',') (h : Lazy cs)
    (hguard : guardFrom groups 0 ('\x7b' :: (inside ++ '\x7d' :: cs ++ behind)) = none) :
    GoesOn (noteIf q.isUnbounded groups) behind := by
  have hskip (groups : List Bool) :
      guardFrom groups (inside.length + 1) (inside ++ '\x7d' :: (cs ++ behind))
        = guardFrom groups 0 (cs ++ behind) := by
    have hbraces := guardFrom_skip groups (cs ++ behind) (inside ++ ['\x7d'])
    rwa [List.append_assoc, List.length_append] at hbraces
  rw [List.append_assoc, List.cons_append, guardFrom_brace, braceLength_eq hinside] at hguard
  cases hcomma : inside.getLast?.getD '\x7b' == ',' with
  | true =>
    rw [hcomma] at hguard
    exact (goesOn_lazy h ((hskip _).symm.trans hguard)).mono (noteIf_notes q.isUnbounded groups)
  | false =>
    rw [hcomma] at hguard
    have hbounded : q.isUnbounded = false := by
      by_contra hunbounded
      rw [hq (Bool.not_eq_false _ ▸ hunbounded)] at hcomma
      cases hcomma
    rw [hbounded]
    exact goesOn_lazy h ((hskip groups).symm.trans hguard)

theorem Item.Spells.seen {item : Item} (h : Item.Spells behind c taken item)
    (hplain : '[' ∈ taken →
      passes taken.length (skipBehind c (taken ++ behind)) (taken ++ behind) = true)
    (hguard : guardFrom groups 0 (c :: (taken ++ behind)) = none) :
    Seen groups c behind item := by
  cases h with
  | group h => exact seen_opens h hplain hguard
  | closing =>
    rintro g outer rfl
    exact goesOn_close hguard
  | bar =>
    rw [guardFrom_other _ _ (by decide) (by decide) (by decide)] at hguard
    exact ⟨groups, .refl groups, hguard⟩
  | @set inside p hp h =>
    rw [guardFrom_bracket] at hguard
    refine goesOn_taken ?_ hguard
    by_cases hopen : '[' ∈ inside ++ [']']
    · exact hplain hopen
    · have hinside : '[' ∉ inside := fun hmem => hopen (List.mem_append_left _ hmem)
      have hpasses := passes_skip (inside ++ [']']) 0 behind
      rw [Nat.add_zero] at hpasses
      rw [List.append_assoc, List.singleton_append] at hpasses ⊢
      rw [h hinside]
      rw [List.length_append] at hpasses ⊢
      exact hpasses
  | optional h =>
    rw [guardFrom_other _ _ (by decide) (by decide) (by decide)] at hguard
    exact ⟨fun h => absurd rfl h, goesOn_lazy h hguard⟩
  | unbounded q hc h =>
    rw [guardFrom_unbounded _ _ hc] at hguard
    refine ⟨fun _ => by rcases hc with rfl | rfl <;> rfl, ?_⟩
    exact (goesOn_lazy h hguard).mono (noteIf_notes q.isUnbounded groups)
  | counted hinside hq h => exact ⟨fun _ => rfl, goesOn_counted hinside hq h hguard⟩
  | @escape c cs p h hp =>
    rw [guardFrom_escape] at hguard
    exact goesOn_taken (h.passes behind) hguard
  | character hquiet hstar hplus hp =>
    rw [guardFrom_other _ _ hquiet hstar hplus] at hguard
    exact ⟨groups, .refl groups, hguard⟩

end

/-! ## what the guard knows of the open groups -/

def Content (n : Nat) (ps : List Pattern) : Prop :=
  ∀ p ∈ ps, p.Guarded ∧ p.groupDepth + n ≤ maxGroupNesting

/-- the open groups with what stands in each, innermost first, and at last what stands in none -/
inductive Levels : List Bool → List (List Pattern) → Prop
  | top {ps : List Pattern} (h : Content 0 ps) : Levels [] [ps]
  | group {g : Bool} {groups : List Bool} {ps : List Pattern} {outer : List (List Pattern)}
      (hg : ∀ p ∈ ps, p.repeatsForever = true → g = true) (h : Content (groups.length + 1) ps)
      (more : Levels groups outer) : Levels (g :: groups) (ps :: outer)

section
variable {groups groups' : List Bool} {ps ps' : List Pattern} {outer : List (List Pattern)}

theorem Levels.content (h : Levels groups (ps :: outer)) : Content groups.length ps := by
  cases h with
  | top h => exact h
  | group _ h _ => exact h

theorem Levels.mono (h : Levels groups outer) (hnotes : Notes groups groups') :
    Levels groups' outer := by
  induction h generalizing groups' with
  | top h =>
    cases hnotes
    exact .top h
  | group hg h _ ih =>
    cases hnotes with
    | cons hgg' hnotes =>
      refine .group (fun p hp hforever => hgg' (hg p hp hforever)) ?_ (ih hnotes)
      rwa [← hnotes.length_eq]

/-- the content of the innermost group changes, and there is no new unbounded quantifier in it -/
theorem Levels.change (h : Levels groups (ps :: outer)) (hps' : Content groups.length ps')
    (hforever : ∀ p' ∈ ps', p'.repeatsForever = true → ∃ p ∈ ps, p.repeatsForever = true) :
    Levels groups (ps' :: outer) := by
  cases h with
  | top _ => exact .top hps'
  | group hg _ more =>
    refine .group (fun p' hp' h => ?_) hps' more
    obtain ⟨p, hp, h⟩ := hforever p' hp' h
    exact hg p hp h

/-- the content of the innermost group changes, and that something in it is repeated is noted -/
theorem Levels.note (h : Levels groups (ps :: outer)) (hps' : Content groups.length ps') :
    Levels (noteUnbounded groups) (ps' :: outer) := by
  cases h with
  | top _ => exact .top hps'
  | group _ _ more => exact .group (fun _ _ _ => rfl) hps' more

end

/-- what stands around a group, as far as it goes -/
def Group.content (g : Group) : List Pattern := g.row ++ g.branches

/-- what stands in the open groups of a reading, and at last outside of them -/
def Reading.contents (r : Reading) : List (List Pattern) :=
  (r.row ++ r.branches) :: r.outer.map Group.content

/-- what the guard has noted of the open groups is so, and the last item is no group that must not
be repeated if a repetition is next -/
structure Agrees (groups : List Bool) (r : Reading) (cs : List Char) : Prop where
  mode : r.mode.verbose = false
  after : ∀ g ∈ r.outer, g.after.verbose = false
  nesting : groups.length ≤ maxGroupNesting
  levels : Levels groups r.contents
  last : ∀ noted body, r.row.head? = some (.group noted body) → body.repeatsForever = true →
    startsRepetition cs = false

def Item.mode? : Item → Option Mode
  | .opening mode _ _ => some mode
  | .setting mode => some mode
  | _ => none

theorem Agrees.mono {groups groups' : List Bool} {r : Reading} {cs : List Char}
    (h : Agrees groups r cs) (hnotes : Notes groups groups') : Agrees groups' r cs where
  mode := h.mode
  after := h.after
  nesting := hnotes.length_eq ▸ h.nesting
  levels := h.levels.mono hnotes
  last := h.last

/-- the content of a group is joined to one pattern when it closes -/
theorem Content.joins {n : Nat} (hn : n ≤ maxGroupNesting) :
    Joins fun p => p.Guarded ∧ p.groupDepth + n ≤ maxGroupNesting := by
  have hdepth (p : Pattern) : p.groupDepth + n ≤ maxGroupNesting ↔
      p.groupDepth ≤ maxGroupNesting - n := by omega
  simp only [hdepth]
  exact joins_guarded _

/-- an unbounded quantifier in what has been joined was in a part of it -/
theorem exists_forever {ps : List Pattern} {p : Pattern}
    (hjoined : (∀ q ∈ ps, q.repeatsForever = false) → p.repeatsForever = false)
    (h : p.repeatsForever = true) : ∃ q ∈ ps, q.repeatsForever = true := by
  by_contra hnone
  have hps : ∀ q ∈ ps, q.repeatsForever = false := by
    intro q hq
    by_contra hforever
    exact hnone ⟨q, hq, Bool.not_eq_false _ ▸ hforever⟩
  rw [hjoined hps] at h
  cases h

theorem repeatsForever_of_isSimple {p : Pattern} (h : p.isSimple = true) :
    p.repeatsForever = false := by
  cases p <;> first | rfl | cases h

theorem groupDepth_of_isSimple {p : Pattern} (h : p.isSimple = true) : p.groupDepth = 0 := by
  cases p <;> first | rfl | cases h

section
variable {groups : List Bool} {ps ps' : List Pattern} {outer : List (List Pattern)} {p : Pattern}

/-- a group that closes becomes an item of the one around it, which takes over what is noted -/
theorem Levels.close {g : Bool} (h : Levels (g :: groups) (ps :: ps' :: outer)) (noted : Bool)
    (hp : p.Guarded ∧ p.groupDepth + (groups.length + 1) ≤ maxGroupNesting)
    (hforever : p.repeatsForever = true → ∃ q ∈ ps, q.repeatsForever = true) :
    Levels (noteIf g groups) ((.group noted p :: ps') :: outer) := by
  cases h with
  | group hg _ more =>
    have hcontent : Content groups.length (.group noted p :: ps') := by
      refine List.forall_mem_cons.mpr ⟨⟨hp.1.group noted, ?_⟩, more.content⟩
      show p.groupDepth + 1 + groups.length ≤ maxGroupNesting
      omega
    cases g with
    | true => exact more.note hcontent
    | false =>
      refine more.change hcontent fun q hq h => ?_
      rcases List.mem_cons.mp hq with rfl | hq
      · obtain ⟨q, hq, h⟩ := hforever h
        cases hg q hq h
      · exact ⟨q, hq, h⟩

theorem Levels.add (h : Levels groups (ps :: outer)) (hn : groups.length ≤ maxGroupNesting)
    (hp : p.isSimple = true) : Levels groups ((p :: ps) :: outer) := by
  refine h.change (List.forall_mem_cons.mpr ⟨⟨guarded_of_isSimple hp, ?_⟩, h.content⟩)
    fun q hq hforever => ?_
  · rw [groupDepth_of_isSimple hp]
    omega
  · rcases List.mem_cons.mp hq with rfl | hq
    · rw [repeatsForever_of_isSimple hp] at hforever
      cases hforever
    · exact ⟨q, hq, hforever⟩

theorem Levels.repeated (h : Levels groups ((p :: ps) :: outer)) (q : Quantifier)
    (hq : ∀ noted body, p = .group noted body → body.repeatsForever = true → q = .optional) :
    Levels (noteIf q.isUnbounded groups) ((.repeated q p :: ps) :: outer) := by
  obtain ⟨hp, hps⟩ := List.forall_mem_cons.mp h.content
  have hcontent : Content groups.length (.repeated q p :: ps) :=
    List.forall_mem_cons.mpr ⟨⟨hp.1.repeated hq, hp.2⟩, hps⟩
  cases hbounded : q.isUnbounded with
  | true => exact h.note hcontent
  | false =>
    refine h.change hcontent fun p' hp' hforever => ?_
    rcases List.mem_cons.mp hp' with rfl | hp'
    · rw [repeatsForever, hbounded, Bool.false_or] at hforever
      exact ⟨p, List.mem_cons_self, hforever⟩
    · exact ⟨p', List.mem_cons_of_mem p hp', hforever⟩

end

section
variable {groups : List Bool} {r r' : Reading} {c : Char} {taken behind cs : List Char}
  {item : Item}

theorem Agrees.bar (h : Agrees groups r cs) :
    Levels groups ((Reading.sequence r.row :: r.branches) :: r.outer.map Group.content) := by
  have hcontent := h.levels.content
  refine h.levels.change ?_ fun p hp hforever => ?_
  · refine List.forall_mem_cons.mpr ⟨?_, fun p hp => hcontent p (List.mem_append_right _ hp)⟩
    exact (Content.joins h.nesting).sequence fun p hp => hcontent p (List.mem_append_left _ hp)
  · rcases List.mem_cons.mp hp with rfl | hp
    · obtain ⟨q, hq, hforever⟩ := exists_forever joins_bounded.sequence hforever
      exact ⟨q, List.mem_append_left _ hq, hforever⟩
    · exact ⟨p, List.mem_append_right _ hp, hforever⟩

/-- a group closes: it was noted if there is an unbounded quantifier in it -/
theorem Agrees.closing {g : Group} {outer : List Group} (h : Agrees groups r cs)
    (houter : r.outer = g :: outer) :
    ∃ b around, groups = b :: around ∧ (r.current.repeatsForever = true → b = true) ∧
      Levels (noteIf b around)
        ((.group g.noted r.current :: g.content) :: outer.map Group.content) := by
  have hlevels := h.levels
  unfold Reading.contents at hlevels
  rw [houter, List.map_cons] at hlevels
  have hcontent := hlevels.content
  have hcurrent := (Content.joins h.nesting).current
    (fun p hp => hcontent p (List.mem_append_left r.branches hp))
    (fun p hp => hcontent p (List.mem_append_right r.row hp))
  have hforever : r.current.repeatsForever = true →
      ∃ p ∈ r.row ++ r.branches, p.repeatsForever = true :=
    exists_forever fun hnone => joins_bounded.current
      (fun p hp => hnone p (List.mem_append_left r.branches hp))
      (fun p hp => hnone p (List.mem_append_right r.row hp))
  cases groups with
  | nil => cases hlevels
  | cons b around =>
    refine ⟨b, around, rfl, fun h => ?_, hlevels.close g.noted hcurrent hforever⟩
    obtain ⟨p, hp, h⟩ := hforever h
    cases hlevels with
    | group hnoted _ _ => exact hnoted p hp h

/-- the last item is repeated: only `?` may stand behind a group that repeats something without
bound -/
theorem Agrees.repeated {q : Quantifier} {p : Pattern} {row : List Pattern}
    (h : Agrees groups r cs) (hrow : r.row = p :: row)
    (hq : q ≠ .optional → startsRepetition cs = true) :
    Levels (noteIf q.isUnbounded groups)
      ((.repeated q p :: row ++ r.branches) :: r.outer.map Group.content) := by
  have hlevels := h.levels
  unfold Reading.contents at hlevels
  rw [hrow] at hlevels
  refine hlevels.repeated q ?_
  rintro noted body rfl hbody
  by_contra hne
  have hlast := h.last noted body (by rw [hrow]; rfl) hbody
  exact absurd (hq hne) (Bool.not_eq_true _ ▸ hlast)

/-- **One item**: the guard and the reader of items come out of it in step. -/
theorem Agrees.step (h : Agrees groups r (c :: (taken ++ behind)))
    (hspells : Item.Spells behind c taken item) (hseen : Seen groups c behind item)
    (hmode : ∀ mode ∈ item.mode?, mode.verbose = false) (htake : r.take item = some r') :
    ∃ groups', Agrees groups' r' behind ∧ guardFrom groups' 0 behind = none := by
  have finish {groups : List Bool} (hgoes : GoesOn groups behind)
      (hagrees : Agrees groups r' behind) :
      ∃ groups', Agrees groups' r' behind ∧ guardFrom groups' 0 behind = none := by
    obtain ⟨groups', hnotes, hguard⟩ := hgoes
    exact ⟨groups', hagrees.mono hnotes, hguard⟩
  unfold Reading.take at htake
  cases item with
  | opening mode noted name =>
    obtain ⟨hlength, hgoes⟩ := hseen
    dsimp only at htake
    split at htake <;> cases htake
    refine finish hgoes ⟨hmode mode rfl, List.forall_mem_cons.mpr ⟨h.mode, h.after⟩, hlength, ?_,
      nofun⟩
    exact .group nofun nofun h.levels
  | closing =>
    dsimp only at htake
    split at htake
    · cases htake
    rename_i g outer houter
    cases htake
    obtain ⟨b, around, rfl, hforever, hlevels⟩ := h.closing houter
    obtain ⟨hrepetition, hgoes⟩ := hseen b around rfl
    have hafter := h.after
    rw [houter, List.forall_mem_cons] at hafter
    refine finish hgoes ⟨hafter.1, hafter.2, ?_, hlevels, fun noted body hbody h => ?_⟩
    · rw [← (notes_noteIf b around).length_eq]
      exact Nat.le_of_succ_le h.nesting
    · cases hbody
      exact hrepetition (hforever h)
  | bar =>
    cases htake
    exact finish hseen ⟨h.mode, h.after, h.nesting, h.bar, nofun⟩
  | setting mode =>
    cases htake
    exact finish hseen ⟨hmode mode rfl, h.after, h.nesting, h.levels.add h.nesting rfl, nofun⟩
  | quantifier q =>
    obtain ⟨hrepetition, hgoes⟩ := hseen
    dsimp only at htake
    split at htake
    · cases htake
    · cases htake
    rename_i p row _ hrow
    cases htake
    refine finish hgoes ⟨h.mode, h.after, ?_, h.repeated hrow hrepetition, nofun⟩
    rw [← (notes_noteIf q.isUnbounded groups).length_eq]
    exact h.nesting
  | atom p =>
    cases htake
    have hsimple : p.isSimple = true := by
      cases hspells with
      | group h => cases h
      | set hp _ => exact hp
      | escape _ hp => exact hp
      | character _ _ _ hp => exact hp
    refine finish hseen ⟨h.mode, h.after, h.nesting, h.levels.add h.nesting hsimple, ?_⟩
    rintro noted body hbody -
    cases hbody
    cases hsimple

end

/-! ## the whole pattern -/

structure Span where
  first : Char
  /-- all that stands behind its first character -/
  tail : List Char
  item : Item
  /-- what stands behind the item -/
  behind : List Char

/-- the characters of the item behind its first one -/
def Span.inner (s : Span) : List Char := s.tail.take (s.tail.length - s.behind.length)

/-- the guard takes the item for what it is: nothing is skipped behind it, and if there is an
opening bracket inside, the guard sees no group there and ends where the item ends -/
def Span.isPlain (s : Span) : Bool :=
  s.item.mode?.all (!·.verbose) &&
    (!s.inner.contains '[' || passes s.inner.length (skipBehind s.first s.tail) s.tail)

def spansFrom : (tries : Nat) → Reading → List Char → List Span
  | 0, _, _ => []
  | tries + 1, r, cs =>
    match r.mode.skip cs with
    | [] => []
    | c :: rest =>
      match readItemFrom r.mode c rest with
      | none => []
      | some (item, behind) =>
        ⟨c, rest, item, behind⟩ ::
          match r.take item with
          | none => []
          | some r => spansFrom tries r behind

def spans (cs : List Char) : List Span := spansFrom (cs.length + 1) ⟨{}, [], [], [], []⟩ cs

theorem Span.inner_eq {c : Char} {taken behind : List Char} {item : Item} :
    (Span.mk c (taken ++ behind) item behind).inner = taken := by
  rw [inner, List.length_append, Nat.add_sub_cancel, List.take_left]

theorem agrees_start (cs : List Char) : Agrees [] ⟨{}, [], [], [], []⟩ cs where
  mode := rfl
  after := nofun
  nesting := Nat.zero_le maxGroupNesting
  levels := .top nofun
  last := nofun

/-- **All items**: as long as they are plain, the guard stays in step with the reader. -/
theorem Agrees.whole {tries : Nat} {groups : List Bool} {r : Reading} {cs : List Char}
    {p : Pattern} (h : Agrees groups r cs) (hread : readItems tries r cs = some p)
    (hguard : guardFrom groups 0 cs = none)
    (hplain : ∀ s ∈ spansFrom tries r cs, s.isPlain = true) :
    p.Guarded ∧ p.groupDepth ≤ maxGroupNesting := by
  induction tries generalizing groups r cs with
  | zero => cases hread
  | succ tries ih =>
    unfold readItems at hread
    unfold spansFrom at hplain
    rw [Mode.skip_eq h.mode] at hread hplain
    cases cs with
    | nil =>
      dsimp only at hread
      split at hread <;> cases hread
      have hcontent (q : Pattern) (hq : q ∈ r.row ++ r.branches) :
          q.Guarded ∧ q.groupDepth ≤ maxGroupNesting :=
        ⟨(h.levels.content q hq).1, Nat.le_of_add_right_le (h.levels.content q hq).2⟩
      exact (joins_guarded maxGroupNesting).current
        (fun q hq => hcontent q (List.mem_append_left r.branches hq))
        (fun q hq => hcontent q (List.mem_append_right r.row hq))
    | cons c rest =>
      dsimp only at hread hplain
      split at hread
      · cases hread
      rename_i item behind hitem
      split at hread
      · cases hread
      rename_i r' htake
      simp only [hitem, htake, List.forall_mem_cons] at hplain
      obtain ⟨hspan, hplain⟩ := hplain
      obtain ⟨taken, rfl, hspells⟩ := readItemFrom_eq h.mode hitem
      rw [Span.isPlain, Span.inner_eq, Bool.and_eq_true, Bool.or_eq_true] at hspan
      obtain ⟨hmode, hinner⟩ := hspan
      have hseen := hspells.seen (fun hopen => hinner.resolve_left (by simpa using hopen)) hguard
      have hmode : ∀ mode ∈ item.mode?, mode.verbose = false := by
        simpa [Option.all_eq_true] using hmode
      obtain ⟨groups', hagrees, hguard⟩ := h.step hspells hseen hmode htake
      exact ih hagrees hread hguard hplain

/-- **No unbounded quantifier inside a repeated group**: where the guard accepts a pattern and
takes all its items for what they are, only `?` may stand on a group with an unbounded
quantifier in it, and groups are not nested deeper than the guard allows. -/
theorem guard_sound {text : String} {p : Pattern} (hread : read? text.toList = some p)
    (hguard : guardPattern text = .ok ()) (hplain : ∀ s ∈ spans text.toList, s.isPlain = true) :
    (∀ r ∈ p.parts, ∀ qs body, r.stack = some (qs, body) → body.repeatsForever = true →
      ∀ q ∈ qs.getLast?, q = .optional) ∧ p.groupDepth ≤ maxGroupNesting := by
  refine (agrees_start text.toList).whole hread ?_ hplain
  unfold guardPattern guardFault? at hguard
  split at hguard
  · cases hguard
  · rename_i hfault
    split at hfault
    · cases hfault
    · exact hfault

/-- brackets inside of brackets, a group with a name, a group with an unbounded quantifier under
`?`, and Unicode classes in brackets and outside of them -/
def sampleText : String := "(?i:x[[:alpha:]_]|(?<n>(a+)?\\x41{2,3}))?|[^])\\PN]\\p{Greek}{3,}"

theorem guard_sound_sampleText : ∃ p, read? sampleText.toList = some p ∧
    guardPattern sampleText = .ok () ∧ (∀ s ∈ spans sampleText.toList, s.isPlain = true) ∧
    (∀ r ∈ p.parts, ∀ qs body, r.stack = some (qs, body) → body.repeatsForever = true →
      ∀ q ∈ qs.getLast?, q = .optional) ∧ p.groupDepth ≤ maxGroupNesting := by
  have hplain : ∀ s ∈ spans sampleText.toList, s.isPlain = true := by decide +kernel
  have hsome : (read? sampleText.toList).isSome = true := by decide +kernel
  obtain ⟨p, hread⟩ := Option.isSome_iff_exists.mp hsome
  exact ⟨p, hread, by rfl, hplain, guard_sound hread (by rfl) hplain⟩

/-- `+` on such a group, behind the three kinds of items that are not plain: brackets that
end behind their first closing one, blanks of the verbose mode, a bracket in a name -/
example : ∀ text ∈ ["(a+[[:alpha:])])+", "(?x)(a+) +", "(?P<a[>b+)+"],
    guardPattern text = .ok () ∧
      ((read? text.toList).any fun p => p.parts.any fun r => r.stack.any fun (qs, body) =>
        qs == [.plus] && body.repeatsForever) = true := by
  decide +kernel

/-- quantifiers on top of a `?` escape the guard -/
example : guardPattern "(a+)?+" = .ok () ∧
    (read? "(a+)?+".toList).any (fun p => p.stack.any fun (qs, body) =>
      qs == [.plus, .optional] && body.repeatsForever) = true := by
  decide +kernel

end PathQuery.Pattern
