import PathQuery.Path.Parser
import PathQuery.Proofs.Filter.Repeats
import PathQuery.Proofs.Path.Limits
import PathQuery.Proofs.Token.Lexemes

/-!
# What is kept in front of a fault

A text that cannot be read to its end can still be read up to the step that is at fault. The steps
in front of it are those of a text of their own, the beginning of the whole one: a step depends on
its own tokens and, if it has none but `..`, on the one behind it, which the end of a text may stand
for.

* `closes_readSegment`   what one step depends on;
* `readTokens_stops`     the segments in front of a fault are those of the tokens in front of it;
* `parse_partial`        what is kept of a path is the path of the beginning of the text.
-/

namespace PathQuery
open Token Token.Reader

namespace Step

/-- the tokens begin in the same way, or there are no more of them -/
def Behind (rest rest' : List Token) : Prop := Alike rest rest' ∨ atEnd rest' = true

section
variable {b : Filter.Bounds} {finish finish' n n' : ℕ} {B : List Token → List Token → Prop}

theorem closes_closed (step : Step) : Closes B (closed finish step) (closed finish' step) :=
  (Closes.expect finish finish' _ _).bind fun _ _ _ => Repeats.pure step

def integerOf? (t : Token) : Option Int :=
  match t.kind with
  | .integer n => some n
  | _ => none

theorem repeats_readInteger : RepeatsAll readInteger? readInteger? := by
  refine RepeatsAll.of_front (g := fun t? => t?.bind integerOf?)
    (p := fun t? => t?.any fun t => (integerOf? t).isSome) fun tokens => ?_
  cases tokens with
  | nil => rfl
  | cons t tokens =>
    obtain ⟨kind, position⟩ := t
    cases kind <;> rfl

theorem closes_readSlice (start : Option Int) :
    Closes B (readSlice finish start) (readSlice finish' start) := by
  refine .of_bind repeats_readInteger fun stop => .of_bind (.skipIf .colon) fun more => ?_
  dsimp only
  split
  · exact .of_bind repeats_readInteger fun step => closes_closed _
  · exact closes_closed _

theorem closes_readBracket (opening : ℕ) :
    Closes B (readBracket b opening) (readBracket (b.endingAt finish) opening) := by
  refine .of_bind (fun _ _ => Repeats.next _ _) fun t => ?_
  cases t.kind with
  | star => exact closes_closed _
  | question =>
    exact .of_bind (Filter.repeats_read b.limit b.finish finish) fun f => closes_closed _
  | text name => exact closes_closed _
  | integer i =>
    refine .of_bind (.skipIf .colon) fun more => ?_
    split
    · exact closes_readSlice _
    · exact closes_closed _
  | colon => exact closes_readSlice _
  | closeBracket => exact Closes.throw
  | _ => exact Closes.refuse _ _

theorem closes_readMember : Closes B (readMember finish) (readMember finish') := by
  refine (Closes.next finish finish').bind fun t n n' => ?_
  split
  · exact Repeats.pure _
  · split
    · exact Repeats.pure _
    · exact Repeats.refuse _ _

/-- the token behind two dots is taken, whatever is behind it, or it is left where it is -/
theorem readSought_cases {t : Token} {tokens rest : List Token} {step : Step}
    (h : readSought (t :: tokens) = .ok step rest) :
    (rest = tokens ∧ ∀ more, readSought (t :: more) = .ok step more) ∨
      (rest = t :: tokens ∧ step = .descendants none) := by
  obtain ⟨kind, position⟩ := t
  cases kind with
  | identifier name => cases h; exact .inl ⟨rfl, fun _ => rfl⟩
  | bool value => cases h; exact .inl ⟨rfl, fun _ => rfl⟩
  | null => cases h; exact .inl ⟨rfl, fun _ => rfl⟩
  | operator known =>
    cases known with
    | textTest test => cases h; exact .inl ⟨rfl, fun _ => rfl⟩
    | pattern => cases h; exact .inl ⟨rfl, fun _ => rfl⟩
    | _ => cases h
  | text value => cases h; exact .inl ⟨rfl, fun _ => rfl⟩
  | star => cases h; exact .inl ⟨rfl, fun _ => rfl⟩
  | openBracket => cases h; exact .inr ⟨rfl, rfl⟩
  | eof => cases h; exact .inr ⟨rfl, rfl⟩
  | _ => cases h

theorem readSought_atEnd {rest : List Token} (h : atEnd rest = true) :
    readSought rest = .ok (.descendants none) rest := by
  cases rest with
  | nil => rfl
  | cons t rest =>
    obtain ⟨kind, position⟩ := t
    obtain rfl : kind = .eof := beq_iff_eq.mp h
    rfl

theorem repeatsAll_readSought : RepeatsAll readSought readSought := by
  refine RepeatsAll.front.bind fun t? => ?_
  cases t? with
  | none => exact RepeatsAll.pure _
  | some t =>
    dsimp only
    split
    · exact RepeatsAll.skip.bind fun _ => RepeatsAll.pure _
    · split
      · exact RepeatsAll.skip.bind fun _ => RepeatsAll.pure _
      · exact RepeatsAll.skip.bind fun _ => RepeatsAll.pure _
      · exact RepeatsAll.pure _
      · exact RepeatsAll.pure _
      · exact fun _ _ => Repeats.refuse _ _

/-- what two dots are followed by is repeated where the tokens end, too: no token is needed there -/
theorem repeats_readSought : Repeats n n' Behind readSought readSought where
  takes := (repeatsAll_readSought 0 0).takes
  gives := by
    rintro taken rest rest' step hn hn' (hfront | hend) hread
    · exact (repeatsAll_readSought n n').gives hn hn' hfront hread
    cases taken with
    | nil =>
      have hstep : step = .descendants none := by
        cases rest with
        | nil => cases hread; rfl
        | cons t rest =>
          obtain ⟨hrest, -⟩ | ⟨-, hstep⟩ := readSought_cases hread
          · exact absurd hrest (List.cons_ne_self t rest)
          · exact hstep
      rw [hstep]
      exact readSought_atEnd hend
    | cons t taken =>
      obtain ⟨hrest, hmore⟩ | ⟨hrest, -⟩ := readSought_cases hread
      · rw [List.self_eq_append_left.mp hrest]
        exact hmore rest'
      · have hlength : rest.length = (taken ++ rest).length + 1 := congrArg List.length hrest
        rw [List.length_append] at hlength
        omega
  refuses := (repeatsAll_readSought 0 0).refuses

/-- **A step depends on its own tokens,** and on the one behind them if it is `..` and nothing else,
which may as well be the last. -/
theorem closes_readSegment (b : Filter.Bounds) (finish : ℕ) :
    Closes Behind (readSegment b) (readSegment (b.endingAt finish)) := by
  refine (Closes.next _ _).bind fun t n n' => ?_
  have placed {r r' : Reader Step} (h : Repeats n n' Behind r r') :
      Repeats n n' Behind (r >>= fun step => pure (⟨step, t.position⟩ : Segment))
        (r' >>= fun step => pure ⟨step, t.position⟩) := by
    refine h.bind_of (Q := fun _ k => k = 0) (h.takes.mono fun step k _ =>
      ⟨Repeats.pure _, Takes.pure rfl⟩) ?_
    rintro _ taken rest rest' hnil hbehind
    rw [List.length_eq_zero_iff.mp hnil]
    exact hbehind
  dsimp only
  cases t.kind with
  | dot => exact placed (closes_readMember.repeats _ _)
  | dots => exact placed repeats_readSought
  | openBracket => exact placed ((closes_readBracket _).repeats _ _)
  | _ => exact placed (Repeats.refuse _ _)

end
end Step

namespace Path

variable {b : Filter.Bounds}

/-- the segments of the tokens in front of a fault are all segments of these tokens by themselves -/
theorem readRest_stops {tries : ℕ} {tokens : List Token} {segments : List Segment} {e : PathError}
    (h : readRest b tries tokens = (segments, some e)) :
    e.IsParse ∧ ∃ taken rest, tokens = taken ++ rest ∧ atEnd rest = false ∧
      ∀ finish ending tries', atEnd ending = true → taken.length ≤ tries' →
        readRest (b.endingAt finish) tries' (taken ++ ending) = (segments, none) := by
  induction tries generalizing tokens segments with
  | zero => cases h
  | succ tries ih =>
    unfold readRest at h
    split at h
    · cases h
    rename_i hatEnd
    split at h
    · rename_i segment rest hread
      generalize hmore : readRest b tries rest = result at h
      obtain ⟨more, error?⟩ := result
      cases h
      obtain ⟨he, taken', rest', rfl, hend, hagain⟩ := ih hmore
      obtain ⟨taken, rfl, hpos⟩ := (Step.closes_readSegment b b.finish).takes hread
      refine ⟨he, taken ++ taken', rest', (List.append_assoc _ _ _).symm, hend, ?_⟩
      intro finish ending tries' hending htries
      rw [List.length_append] at htries
      obtain ⟨n, rfl⟩ : ∃ n, tries' = n + 1 := ⟨tries' - 1, by omega⟩
      have hbehind : Step.Behind (taken' ++ rest') (taken' ++ ending) := by
        cases taken' with
        | nil => exact .inr hending
        | cons t taken' => exact .inl rfl
      have hread' := ((Step.closes_readSegment b finish).repeats _ _).gives
        (Nat.le_refl _) (Nat.le_refl _) hbehind hread
      have hatEnd' : ¬atEnd (taken ++ (taken' ++ ending)) = true := by
        cases taken with
        | nil => cases hpos
        | cons t taken => exact hatEnd
      rw [List.append_assoc, readRest, if_neg hatEnd', hread']
      dsimp only
      rw [hagain finish ending n hending (by omega)]
    · rename_i e' rest hread
      cases h
      have he := ((Step.closes_readSegment b b.finish).repeats 0 0).refuses hread
      refine ⟨he, [], tokens, rfl, Bool.eq_false_iff.mpr hatEnd, ?_⟩
      intro finish ending tries' hending _
      cases tries' with
      | zero => rfl
      | succ n => exact if_pos hending

/-- the first token of a path is a step of its own, or the further steps begin with it -/
theorem readTokens_cons {t : Token} (ht : t.kind ≠ .eof) :
    (∃ s, ∀ b tokens, readTokens b (t :: tokens) =
      (s :: (readRest b (tokens.length + 1) tokens).1, (readRest b (tokens.length + 1) tokens).2)) ∨
    ∀ b tokens, readTokens b (t :: tokens) = readRest b (tokens.length + 1) (t :: tokens) := by
  have hatEnd (tokens : List Token) : ¬atEnd (t :: tokens) = true := fun h => ht (beq_iff_eq.mp h)
  have hhead : (∃ s, ∀ tokens, Step.readHead? (t :: tokens) = .ok (some s) tokens) ∨
      ∀ tokens, Step.readHead? (t :: tokens) = .ok none (t :: tokens) := by
    unfold Step.readHead?
    simp only [bind_ok (front_eq _), List.head?_cons]
    split
    · exact .inl ⟨_, fun _ => rfl⟩
    · cases t.kind.word? with
      | some name => exact .inl ⟨_, fun _ => rfl⟩
      | none => exact .inr fun _ => rfl
  obtain ⟨s, hhead⟩ | hhead := hhead
  · refine .inl ⟨s, fun b tokens => ?_⟩
    rw [readTokens, if_neg (hatEnd tokens), hhead]
    rfl
  · refine .inr fun b tokens => ?_
    rw [readTokens, if_neg (hatEnd tokens), hhead]
    rfl

/-- the segments that were read in front of a fault are those of the tokens in front of it -/
theorem readTokens_stops {tokens : List Token} {segments : List Segment} {e : PathError}
    (h : readTokens b tokens = (segments, some e)) :
    e.IsParse ∧ (segments ≠ [] → ∃ taken rest, tokens = taken ++ rest ∧ atEnd rest = false ∧
      ∀ finish ending, atEnd ending = true →
        readTokens (b.endingAt finish) (taken ++ ending) = (segments, none)) := by
  by_cases hatEnd : atEnd tokens = true
  · rw [readTokens, if_pos hatEnd] at h
    cases h
    exact ⟨⟨_, _, _, rfl⟩, fun hne => absurd rfl hne⟩
  cases tokens with
  | nil => exact absurd rfl hatEnd
  | cons t tokens =>
    obtain ⟨s, hcons⟩ | hcons := readTokens_cons fun heof => hatEnd (beq_iff_eq.mpr heof)
    · rw [hcons] at h
      obtain ⟨rfl, herror⟩ := Prod.mk.inj h
      obtain ⟨he, taken, rest, rfl, hend, hagain⟩ := readRest_stops (Prod.ext rfl herror)
      refine ⟨he, fun _ => ⟨t :: taken, rest, rfl, hend, fun finish ending hending => ?_⟩⟩
      have hlength : taken.length ≤ (taken ++ ending).length + 1 := by
        rw [List.length_append]
        omega
      rw [List.cons_append, hcons, hagain finish ending _ hending hlength]
    · rw [hcons] at h
      obtain ⟨he, taken, rest, htokens, hend, hagain⟩ := readRest_stops h
      refine ⟨he, fun hne => ⟨taken, rest, htokens, hend, fun finish ending hending => ?_⟩⟩
      cases taken with
      | nil =>
        have hnone := congrArg Prod.fst (hagain finish ending 0 hending (Nat.zero_le 0))
        exact absurd hnone.symm hne
      | cons t' taken =>
        obtain ⟨rfl, -⟩ := List.cons.inj htokens
        rw [List.cons_append, hcons]
        exact hagain finish ending _ hending (by rw [List.length_cons, List.length_append]; omega)

theorem readText_of_lex {limit : ℕ} {text : String} {tokens : List Token}
    (h : lex text = .ok tokens) :
    readText limit text = (⟨(readTokens ⟨limit, text.length⟩ tokens).1⟩,
      (readTokens ⟨limit, text.length⟩ tokens).2) := by
  unfold readText
  rw [h]

/-- a text that cannot be read has a fault of a lexeme, or one of parsing behind the segments of the
beginning of the text -/
theorem readText_error {limit : ℕ} {text : String} {p : Path} {e : PathError}
    (h : readText limit text = (p, some e)) :
    (e.IsLex ∧ p = ⟨[]⟩) ∨ (e.IsParse ∧ (p.segments ≠ [] →
      ∃ before behind, text = before ++ behind ∧ readText limit before = (p, none))) := by
  cases hlex : lex text with
  | error e' =>
    unfold readText at h
    rw [hlex] at h
    cases h
    exact .inl ⟨lexFrom_error hlex, rfl⟩
  | ok tokens =>
    rw [readText_of_lex hlex] at h
    obtain ⟨rfl, herror⟩ := Prod.mk.inj h
    obtain ⟨he, hprefix⟩ := readTokens_stops (Prod.ext rfl herror)
    refine .inr ⟨he, fun hne => ?_⟩
    obtain ⟨taken, rest, rfl, hend, hagain⟩ := hprefix hne
    have hrest : rest ≠ [] := fun hnil => Bool.false_ne_true (hend.symm.trans (hnil ▸ rfl))
    obtain ⟨before, behind, finish, htext, hbefore⟩ := lexFrom_before hlex hrest
    refine ⟨String.ofList before, String.ofList behind, ?_, ?_⟩
    · rw [← String.ofList_append, ← htext, String.ofList_toList]
    · have hlex' : lex (String.ofList before) = .ok (taken ++ [⟨.eof, finish⟩]) := by
        rw [lex, String.toList_ofList, hbefore]
      have hread := hagain (String.ofList before).length [⟨.eof, finish⟩] rfl
      obtain ⟨hsegments, hnone⟩ := Prod.ext_iff.mp hread
      rw [readText_of_lex hlex']
      exact Prod.ext (congrArg Path.mk hsegments) hnone

section
variable {o : ParseOptions} {text : String} {p : Path}

/-- what has been read to its end is kept if no fault is looked for -/
theorem parse_unchecked (hv : o.validate = false) (h : readText o.maxFilterDepth text = (p, none)) :
    parse o text = ⟨some p, none⟩ := by
  unfold parse
  rw [h]
  dsimp only
  rw [hv]
  rfl

/-- a path that is read without fault has been read to its end -/
theorem readText_of_parse (h : parse o text = ⟨some p, none⟩) :
    readText o.maxFilterDepth text = (p, none) := by
  unfold parse at h
  generalize readText o.maxFilterDepth text = result at h ⊢
  obtain ⟨q, readError?⟩ := result
  cases readError? with
  | some e => exact absurd (congrArg Outcome.error? h) nofun
  | none =>
    dsimp only at h
    split at h
    · exact Prod.ext (Option.some.inj (congrArg Outcome.path? h)) rfl
    · exact absurd (congrArg Outcome.error? h) nofun

/-- a path is kept where nothing stands against it or where that is asked for; what stands against
it was found while reading it, or in the whole of it -/
theorem parse_kept {readError? : Option PathError}
    (h : readText o.maxFilterDepth text = (p, readError?)) : ∃ error?,
      (∀ keep, parse { o with allowPartial := keep } text
        = ⟨if error?.isNone || keep then some p else none, error?⟩) ∧
      ∀ e, error? = some e → readError? = some e ∨ (readError? = none ∧ e.IsValidation) := by
  cases readError? with
  | some e =>
    refine ⟨some e, fun keep => ?_, fun _ => .inl⟩
    unfold parse
    rw [h]
    rfl
  | none =>
    by_cases hv : o.validate = true
    · cases hvalid : p.validate o.maxDescents with
      | error e =>
        refine ⟨some e, fun keep => ?_, fun e' he => .inr ⟨rfl, ?_⟩⟩
        · unfold parse
          rw [h]
          dsimp only
          rw [if_pos hv, hvalid]
          rfl
        · cases he
          exact validate_error hvalid
      | ok u =>
        refine ⟨none, fun keep => ?_, nofun⟩
        unfold parse
        rw [h]
        dsimp only
        rw [if_pos hv, hvalid]
        rfl
    · exact ⟨none, fun keep => parse_unchecked (Bool.eq_false_iff.mpr hv) h, nofun⟩

end

/-- **What is kept of a path is the path of the beginning of the text.** Keeping it changes neither
the error nor what the outcome comes to. Nothing is kept in front of a fault of a lexeme; in front
of a fault that validation finds, the whole path is; and in front of a fault of parsing, the
segments are those of the path that the text in front of the step at fault spells. -/
theorem parse_partial (o : ParseOptions) (text : String) :
    let part := parse { o with allowPartial := true } text
    let whole := parse { o with allowPartial := false } text
    let unchecked := { o with validate := false }
    part.success = whole.success ∧ part.error? = whole.error? ∧ part.toExcept = whole.toExcept ∧
    ∀ e, part.error? = some e → ∃ p, part.path? = some p ∧
      ((e.IsLex ∧ p = ⟨[]⟩) ∨
        (e.IsValidation ∧ parse unchecked text = ⟨some p, none⟩) ∨
        (e.IsParse ∧ (p.segments ≠ [] → ∃ before behind, text = before ++ behind ∧
          parse unchecked before = ⟨some p, none⟩))) := by
  intro part whole unchecked
  obtain ⟨p, readError?, hread⟩ : ∃ p readError?,
      readText o.maxFilterDepth text = (p, readError?) := ⟨_, _, rfl⟩
  obtain ⟨error?, hkept, hfound⟩ := parse_kept hread
  have hpart : part = ⟨some p, error?⟩ := by
    rw [show part = _ from hkept true, Bool.or_true, if_pos rfl]
  have hwhole : whole = ⟨if error?.isNone then some p else none, error?⟩ := by
    rw [show whole = _ from hkept false, Bool.or_false]
  rw [hpart, hwhole]
  refine ⟨rfl, rfl, by cases error? <;> rfl, fun e he => ⟨p, rfl, ?_⟩⟩
  obtain rfl | ⟨rfl, hvalid⟩ := hfound e he
  · obtain ⟨hlex, hnil⟩ | ⟨hparse, hprefix⟩ := readText_error hread
    · exact .inl ⟨hlex, hnil⟩
    · refine .inr (.inr ⟨hparse, fun hne => ?_⟩)
      obtain ⟨before, behind, htext, hbefore⟩ := hprefix hne
      exact ⟨before, behind, htext, parse_unchecked (o := unchecked) rfl hbefore⟩
  · exact .inr (.inl ⟨hvalid, parse_unchecked (o := unchecked) rfl hread⟩)

/-- the path in front of a step that ends in the middle -/
theorem parse_partial_open :
    let text := "a[0]..[?@.b"
    let p : Path := ⟨[⟨.property "a", 0⟩, ⟨.index 0, 1⟩, ⟨.descendants none, 4⟩]⟩
    let part := parse { allowPartial := true } text
    part.path? = some p ∧ ∃ before behind, text = before ++ behind ∧
      parse { validate := false } before = ⟨some p, none⟩ := by
  intro text p part
  have hlex : lex text = .ok [⟨.identifier "a", 0⟩, ⟨.openBracket, 1⟩, ⟨.integer 0, 2⟩,
      ⟨.closeBracket, 3⟩, ⟨.dots, 4⟩, ⟨.openBracket, 6⟩, ⟨.question, 7⟩, ⟨.current, 8⟩, ⟨.dot, 9⟩,
      ⟨.identifier "b", 10⟩, ⟨.eof, 11⟩] := by decide +kernel
  have hread : readText 64 text = (p, some (.parse (.expected "]") "end of input" 11)) :=
    (readText_of_lex hlex).trans rfl
  have hpart : part = ⟨some p, some (.parse (.expected "]") "end of input" 11)⟩ := by
    show parse { allowPartial := true } text = _
    unfold parse
    rw [show readText 64 text = _ from hread]
    rfl
  obtain ⟨-, -, -, hkept⟩ := parse_partial {} text
  obtain ⟨p', hp', hcases⟩ := hkept _ (congrArg Outcome.error? hpart)
  cases hp'.symm.trans (congrArg Outcome.path? hpart)
  obtain ⟨⟨_, _, _, hlex⟩, -⟩ | ⟨⟨_, _, hvalid⟩, -⟩ | ⟨-, hprefix⟩ := hcases
  · cases hlex
  · cases hvalid
  · exact ⟨hp', hprefix (List.cons_ne_nil _ _)⟩

end Path
end PathQuery
