import PathQuery.Proofs.Token.Strict
import PathQuery.Proofs.Token.Texts

/-!
# Where the fault of a text is

Each reader of lexemes counts the place of a fault in its own way. In the end every fault stands at
the character that the error names, and it is one that such a character can have.

* `LexFault.Fits`      the characters that a fault is found at;
* `Flaw.Marks`         a flaw names the character that stands at its offset;
* `scan_marks`         so do the flaws of all lexemes;
* `lex_error_marks`    and the errors of all texts.
-/

namespace PathQuery

open Token in
/-- what is known of the character at which a fault is found -/
def LexFault.Fits : LexFault → Char → Prop
  | noToken, c => isSeparator c = false ∧ ∀ rest lexeme, scan c rest ≠ .ok lexeme
  | threeDots, c => c = '.'
  | loneSymbol d, c => c = d ∧ (c = '=' ∨ c = '&' ∨ c = '|')
  | bareMinus, c => c = '-'
  | emptyExponent, c => c = 'e' ∨ c = 'E'
  | floatRange, c => c.isDigit = true ∨ c = '-'
  | integerRange, c => c.isDigit = true ∨ c = '-'
  | unterminated, c => IsQuote c
  | unknownEscape, c => shortEscape? c = none ∧ c ≠ 'u'
  | badHexDigit, c => hexValue? c = none
  | shortEscape, c => c = 'u'
  | loneLowSurrogate, c => c = 'u'
  | unpairedHighSurrogate, c => c = 'u'
  | invalidLowSurrogate, c => c = 'u'
  | other _, _ => False

namespace Token

/-- the flaw is one of the character that stands at its offset -/
structure Flaw.Marks (flaw : Flaw) (cs : List Char) : Prop where
  named : cs[flaw.offset]? = some flaw.character
  fits : flaw.fault.Fits flaw.character

/-! ## quoted texts -/

section
variable {cs : List Char} {flaw : Flaw}

theorem readHex_marks {u count offset value : ℕ} {ds : List Char} (hu : cs[u]? = some 'u')
    (hds : Reached cs offset ds) (h : readHex u count offset value ds = .error flaw) :
    flaw.Marks cs := by
  induction count generalizing offset value ds with
  | zero => cases h
  | succ count ih =>
    cases ds with
    | nil =>
      cases h
      exact ⟨hu, rfl⟩
    | cons c ds =>
      rw [readHex] at h
      split at h
      · exact ih hds.next h
      · rename_i hvalue
        cases h
        exact ⟨hds.getElem?, hvalue⟩

/-- the letter of the escape stands behind its backslash, at `start`, and the digits behind that -/
theorem readCode_marks {start : ℕ} {digits : List Char} (hu : cs[start + 1]? = some 'u')
    (hdigits : Reached cs (start + 2) digits) (h : readCode start digits = .error flaw) :
    flaw.Marks cs := by
  unfold readCode at h
  split at h
  · rename_i flaw' hhigh
    cases h
    exact readHex_marks hu hdigits hhigh
  rename_i high hhigh
  obtain ⟨part, tail, rfl, hpart, -⟩ := readHex_fixed hhigh
  have htail : Reached cs (start + 6) tail := by
    have hbehind := hdigits.behind
    rwa [hpart] at hbehind
  rw [← hpart, List.drop_left] at h
  split at h
  · cases h
    exact ⟨hu, rfl⟩
  split at h
  · split at h
    · -- the second half of a pair has a letter of its own
      have hu' : cs[start + 7]? = some 'u' := htail.next.getElem?
      split at h
      · rename_i flaw' hlow
        cases h
        exact readHex_marks hu' htail.next.next hlow
      · split at h
        · cases h
        · cases h
          exact ⟨hu', rfl⟩
    · cases h
      exact ⟨hu, rfl⟩
  · cases h

theorem readSpelling_marks {quote c : Char} {start : ℕ} {rest : List Char}
    (hfirst : cs[0]? = some quote) (hquote : IsQuote quote) (hrest : Reached cs start (c :: rest))
    (h : readSpelling quote start c rest = .error flaw) : flaw.Marks cs := by
  unfold readSpelling at h
  split at h
  · cases rest with
    | nil =>
      cases h
      exact ⟨hfirst, hquote⟩
    | cons e digits =>
      dsimp only at h
      split at h
      · cases h
      rename_i hshort
      split at h
      · rename_i hu
        exact readCode_marks (hu ▸ hrest.next.getElem?) hrest.next.next h
      · rename_i hu
        cases h
        exact ⟨hrest.next.getElem?, hshort, hu⟩
  · cases h

theorem readText_marks {quote : Char} {offset : ℕ} {rest : List Char}
    (hfirst : cs[0]? = some quote) (hquote : IsQuote quote) (hrest : Reached cs offset rest)
    (h : readText quote offset rest = .error flaw) : flaw.Marks cs := by
  induction offset, rest using readText.induct quote with
  | case1 offset =>
    rw [readText] at h
    cases h
    exact ⟨hfirst, hquote⟩
  | case2 offset rest =>
    rw [readText, if_pos rfl] at h
    cases h
  | case3 offset c rest hc flaw' hflaw =>
    rw [readText, if_neg hc, hflaw] at h
    cases h
    exact readSpelling_marks hfirst hquote hrest hflaw
  | case4 offset c rest hc d more hspelling flaw' hflaw ih =>
    rw [readText, if_neg hc, hspelling] at h
    dsimp only at h
    rw [hflaw] at h
    cases h
    obtain ⟨part, tail, rfl, hpart, -⟩ := readSpelling_fixed hspelling
    have hbehind := hrest.next.behind
    rw [hpart] at hbehind
    rw [← hpart, List.drop_left, hpart] at ih hflaw
    exact ih hbehind hflaw
  | case5 offset c rest hc d more hspelling ds close hmore ih =>
    rw [readText, if_neg hc, hspelling] at h
    dsimp only at h
    rw [hmore] at h
    cases h

end

/-! ## lexemes -/

section
variable {c : Char} {rest : List Char} {flaw : Flaw}

theorem Flaw.Marks.first {fault : LexFault} (h : fault.Fits c) :
    Flaw.Marks ⟨fault, c, 0⟩ (c :: rest) :=
  ⟨rfl, h⟩

theorem scanText_marks (hc : IsQuote c) (h : scanText c rest = .error flaw) :
    flaw.Marks (c :: rest) := by
  unfold scanText at h
  split at h
  · rename_i flaw' hflaw
    cases h
    exact readText_marks rfl hc (Reached.start (c :: rest)).next hflaw
  · cases h

theorem numberLexeme_marks (hc : c.isDigit = true ∨ c = '-') {isInteger : Bool} {cs : List Char}
    (h : numberLexeme c isInteger cs = .error flaw) : flaw.Marks (c :: rest) := by
  unfold numberLexeme at h
  split at h
  · split at h <;> cases h
    exact .first hc
  · split at h
    · split at h <;> cases h
      exact .first hc
    · cases h
      exact .first hc

theorem exponentPart_eq_none {behind : List Char} (h : exponentPart? behind = none) :
    ∃ e more, behind = e :: more ∧ (e = 'e' ∨ e = 'E') := by
  cases behind with
  | nil => cases h
  | cons e more =>
    refine ⟨e, more, rfl, isExponent_iff.mp ?_⟩
    by_contra he
    have hhead : ∀ d ∈ (e :: more).head?, isExponent d = false := by
      intro d hd
      cases hd
      exact Bool.eq_false_iff.mpr he
    rw [exponentPart_eq_nil hhead] at h
    cases h

theorem scanNumber_marks (hc : c.isDigit = true ∨ c = '-') (h : scanNumber c rest = .error flaw) :
    flaw.Marks (c :: rest) := by
  obtain ⟨negative, body, hsplit⟩ : ∃ negative body,
    Decimal.splitSign (c :: rest) = (negative, body) := ⟨_, _, rfl⟩
  obtain ⟨whole, fraction, behind, rfl, hwhole, hafter, hfraction⟩ := exists_number_parts body
  obtain ⟨hnegative, htext⟩ := Strict.splitSign_cases hsplit
  rw [scanNumber_eq hsplit hwhole hafter (hfraction behind (.refl behind))] at h
  split at h
  · rename_i hminus
    cases h
    rw [hnegative, Bool.and_eq_true, decide_eq_true_eq] at hminus
    rw [hminus.1]
    exact .first rfl
  dsimp only at h
  split at h
  · rename_i hexponent
    cases h
    obtain ⟨e, more, rfl, he⟩ := exponentPart_eq_none hexponent
    refine ⟨?_, he⟩
    rw [htext, ← List.append_assoc, ← List.append_assoc,
      List.getElem?_append_right (Nat.le_refl _), Nat.sub_self]
    rfl
  · exact numberLexeme_marks hc h

theorem scanOperator_marks (hc : isOperatorSymbol c = true)
    (h : scanOperator c rest.head? = .error flaw) : flaw.Marks (c :: rest) := by
  simp only [isOperatorSymbol, Bool.or_eq_true, beq_iff_eq, or_assoc] at hc
  unfold scanOperator at h
  split_ifs at h with heq _ hnot _ hless _ hgreater _ hand _ hor
  all_goals cases h
  · exact .first ⟨rfl, .inl heq⟩
  · exact .first ⟨rfl, .inr (.inl hand)⟩
  · exact .first ⟨rfl, .inr (.inr (by tauto))⟩

theorem scanDots_marks (h : scanDots rest = .error flaw) : flaw.Marks ('.' :: rest) := by
  unfold scanDots at h
  split at h
  · cases h
    exact ⟨rfl, rfl⟩
  · cases h
  · cases h

/-- **The flaw of a lexeme is one of the character that stands at its offset.** -/
theorem scan_marks (hc : isSeparator c = false) (h : scan c rest = .error flaw) :
    flaw.Marks (c :: rest) := by
  by_cases hquote : c = '\'' ∨ c = '"'
  · rw [scan, if_pos hquote] at h
    exact scanText_marks hquote h
  by_cases hnumber : c.isDigit ∨ c = '-'
  · rw [scan, if_neg hquote, if_pos hnumber] at h
    exact scanNumber_marks hnumber h
  by_cases hoperator : isOperatorSymbol c = true
  · rw [scan, if_neg hquote, if_neg hnumber, if_pos hoperator] at h
    exact scanOperator_marks hoperator h
  by_cases hroot : c = '$'
  · rw [scan, if_neg hquote, if_neg hnumber, if_neg hoperator, if_pos hroot] at h
    split at h <;> cases h
  by_cases hdot : c = '.'
  · rw [scan, if_neg hquote, if_neg hnumber, if_neg hoperator, if_neg hroot, if_pos hdot] at h
    subst hdot
    exact scanDots_marks h
  cases hsymbol : punctuation? c with
  | some kind =>
    rw [scan_punctuation hsymbol] at h
    cases h
  | none =>
    by_cases hname : isNameStart c = true
    · rw [scan_of_isNameStart hname fun hc => absurd hc hroot] at h
      cases h
    · have hscan (rest : List Char) : scan c rest = .error ⟨.noToken, c, 0⟩ := by
        rw [scan, if_neg hquote, if_neg hnumber, if_neg hoperator, if_neg hroot, if_neg hdot,
          hsymbol]
        exact if_neg hname
      rw [hscan] at h
      cases h
      refine .first ⟨hc, fun rest lexeme hok => ?_⟩
      rw [hscan] at hok
      cases hok

end

/-! ## texts -/

theorem lexFrom_error_marks {cs rest : List Char} {position : ℕ} {e : PathError}
    (hrest : Reached cs position rest) (h : lexFrom position rest = .error e) :
    ∃ fault c p, e = .lex fault c p ∧ cs[p]? = some c ∧ fault.Fits c := by
  induction position, rest using lexFrom.induct with
  | case1 position =>
    rw [lexFrom] at h
    cases h
  | case2 position c rest hc ih =>
    rw [lexFrom_separator hc] at h
    exact ih hrest.next h
  | case3 position c rest hc flaw hscan =>
    rw [lexFrom, if_neg hc, hscan] at h
    cases h
    obtain ⟨hnamed, hfits⟩ := scan_marks (Bool.eq_false_iff.mpr hc) hscan
    obtain ⟨done, rfl, rfl⟩ := hrest
    refine ⟨_, _, _, rfl, ?_, hfits⟩
    rw [List.getElem?_append_right (Nat.le_add_right _ _), Nat.add_sub_cancel_left, hnamed]
  | case4 position c rest hc lexeme hscan e' hmore ih =>
    rw [lexFrom, if_neg hc, hscan] at h
    dsimp only at h
    rw [hmore] at h
    cases h
    obtain ⟨part, tail, rfl, hpart, -⟩ := scan_settled hscan
    have hbehind := hrest.next.behind
    rw [hpart] at hbehind
    rw [← hpart, List.drop_left, hpart] at ih hmore
    exact ih hbehind hmore
  | case5 position c rest hc lexeme hscan more hmore =>
    rw [lexFrom, if_neg hc, hscan] at h
    dsimp only at h
    rw [hmore] at h
    cases h

/-- **A text that cannot be read is refused at the character that is named.** The error is a fault
of a lexeme; its position is that of a character of the text, and it names the character that stands
there, which is one that such a fault is found at. -/
theorem lex_error_marks (text : String) (e : PathError) (h : lex text = .error e) :
    ∃ fault c position, e = .lex fault c position ∧ position < text.length ∧
      text.toList[position]? = some c ∧ fault.Fits c := by
  obtain ⟨fault, c, position, he, hc, hfits⟩ :=
    lexFrom_error_marks (Reached.start text.toList) h
  obtain ⟨hlt, -⟩ := List.getElem?_eq_some_iff.mp hc
  rw [String.length_toList] at hlt
  exact ⟨fault, c, position, he, hlt, hc, hfits⟩

/-- the second half of a pair, counted from the start of the text -/
theorem lex_error_marks_pair :
    let text := "$.é ['\\ud83d\\u0041']"
    lex text = .error (.lex .invalidLowSurrogate 'u' 13) ∧
      ∃ fault c position, PathError.lex .invalidLowSurrogate 'u' 13 = .lex fault c position ∧
        position < text.length ∧ text.toList[position]? = some c ∧ fault.Fits c := by
  intro text
  have hlex : lex text = .error (.lex .invalidLowSurrogate 'u' 13) := by decide +kernel
  exact ⟨hlex, lex_error_marks text _ hlex⟩

end Token
end PathQuery
