import PathQuery.Proofs.Token.Lookahead

/-!
# Every character that is asked for is there

The readers of lexemes take a text from its front. The ones here walk along it by index: each is
told the index at which its lexeme starts and answers with that of the last character it has taken.
They give up where the character at an index is asked for and is not there, where a part of the
text is asked for that does not lie in it, where the index before the first is asked for, and where
a walk takes more steps than the text has characters.

* `Checked`        answers that can be given up;
* `Reached`        the characters that are still to come at an index;
* `Strict.lex`     the tokens of a text, read by index;
* `Strict.lex_eq`  nothing is given up, and the tokens are the same.
-/

namespace PathQuery.Token

/-- an answer or an error, or nothing where an index is out of bounds -/
abbrev Checked (α : Type) := ExceptT PathError Option α

namespace Strict

def giveUp {α : Type} : Checked α := ExceptT.lift none

/-- the character at an index, which has to be there -/
def charAt (cs : List Char) (i : ℕ) : Checked Char :=
  match cs[i]? with
  | some c => pure c
  | none => giveUp

/-- an answer about the lexeme that starts at an index; a flaw is counted from there -/
def place {α : Type} (start : ℕ) : Except Flaw α → Checked α
  | .error flaw => throw (.lex flaw.fault flaw.character (start + flaw.offset))
  | .ok a => pure a

/-- the characters from an index up to another, which have to be there -/
def between (cs : List Char) (i j : ℕ) : Checked (List Char) :=
  if i ≤ j ∧ j ≤ cs.length then pure ((cs.drop i).take (j - i)) else giveUp

def before (i : ℕ) : Checked ℕ := if 0 < i then pure (i - 1) else giveUp

/-- whether there is such a character at an index; nothing is there behind the end -/
def isAt (p : Char → Bool) (cs : List Char) (i : ℕ) : Bool := cs[i]?.any p

/-- the first index from `i` on without such a character -/
def skip (p : Char → Bool) (cs : List Char) : (tries i : ℕ) → Checked ℕ
  | 0, _ => giveUp
  | tries + 1, i => do
    if i < cs.length then
      let c ← charAt cs i
      if p c then skip p cs tries (i + 1) else pure i
    else pure i

def skipDigits (cs : List Char) (i : ℕ) : Checked ℕ := skip Char.isDigit cs (cs.length + 1) i

/-! ## quoted texts -/

/-- `count` hexadecimal digits from index `i` on, of an escape whose letter stands at `u` -/
def hex (cs : List Char) (u : ℕ) : (count i value : ℕ) → Checked ℕ
  | 0, _, value => pure value
  | count + 1, i, value =>
    match cs[i]? with
    | none => throw (.lex .shortEscape 'u' u)
    | some c =>
      match hexValue? c with
      | some d => hex cs u count (i + 1) (16 * value + d)
      | none => throw (.lex .badHexDigit c i)

/-- the character of an escape by code, and the index of its last digit -/
def code (cs : List Char) (backslash : ℕ) : Checked (Char × ℕ) := do
  let high ← hex cs (backslash + 1) 4 (backslash + 2) 0
  if isLowSurrogate high then throw (.lex .loneLowSurrogate 'u' (backslash + 1))
  else if isHighSurrogate high then
    let pair := backslash + 6
    if isAt (· == '\\') cs pair && isAt (· == 'u') cs (pair + 1) then
      let low ← hex cs (pair + 1) 4 (pair + 2) 0
      if isLowSurrogate low then pure (ofSurrogates high low, pair + 5)
      else throw (.lex .invalidLowSurrogate 'u' (pair + 1))
    else throw (.lex .unpairedHighSurrogate 'u' (backslash + 1))
  else pure (Char.ofNat high, backslash + 5)

/-- the characters from index `i` up to the closing quote behind those that were read before, and
the index of that quote -/
def textFrom (cs : List Char) (quote : Char) (start : ℕ) :
    (tries i : ℕ) → List Char → Checked (List Char × ℕ)
  | 0, _, _ => giveUp
  | tries + 1, i, value =>
    match cs[i]? with
    | none => throw (.lex .unterminated quote start)
    | some c =>
      if c = quote then pure (value, i)
      else if c ≠ '\\' then textFrom cs quote start tries (i + 1) (value ++ [c])
      else
        match cs[i + 1]? with
        | none => throw (.lex .unterminated quote start)
        | some e =>
          match shortEscape? e with
          | some d => textFrom cs quote start tries (i + 2) (value ++ [d])
          | none =>
            if e = 'u' then do
              let (d, last) ← code cs i
              textFrom cs quote start tries (last + 1) (value ++ [d])
            else throw (.lex .unknownEscape e (i + 1))

def text (cs : List Char) (start : ℕ) : Checked (Kind × ℕ) := do
  let quote ← charAt cs start
  let (value, close) ← textFrom cs quote start cs.length (start + 1) []
  pure (.text (String.ofList value), close)

/-! ## numbers, symbols and words -/

/-- the index behind the sign of a number, a minus -/
def afterSign (cs : List Char) (start : ℕ) : Checked ℕ := do
  let c ← charAt cs start
  if c = '-' then
    if isAt Char.isDigit cs (start + 1) then pure (start + 1)
    else throw (.lex .bareMinus '-' start)
  else pure start

/-- whether there is a fraction at an index, and the index behind it -/
def afterFraction (cs : List Char) (i : ℕ) : Checked (Bool × ℕ) := do
  if isAt (· == '.') cs i && isAt Char.isDigit cs (i + 1) then
    let j ← skipDigits cs (i + 1)
    pure (true, j)
  else pure (false, i)

/-- whether there is an exponent at an index, and the index behind it -/
def afterExponent (cs : List Char) (i : ℕ) : Checked (Bool × ℕ) := do
  if isAt isExponent cs i then
    let j := if isAt isSign cs (i + 1) then i + 2 else i + 1
    if isAt Char.isDigit cs j then
      let j ← skipDigits cs j
      pure (true, j)
    else
      let c ← charAt cs i
      throw (.lex .emptyExponent c i)
  else pure (false, i)

def number (cs : List Char) (start : ℕ) : Checked (Kind × ℕ) := do
  let i ← afterSign cs start
  let i ← skipDigits cs i
  let (hasFraction, i) ← afterFraction cs i
  let (hasExponent, i) ← afterExponent cs i
  let part ← between cs start i
  let c ← charAt cs start
  let lexeme ← place start (numberLexeme c (!hasFraction && !hasExponent) part)
  let last ← before i
  pure (lexeme.kind, last)

def operator (cs : List Char) (i : ℕ) : Checked (Kind × ℕ) := do
  let c ← charAt cs i
  let lexeme ← place i (scanOperator c cs[i + 1]?)
  pure (lexeme.kind, i + lexeme.more)

def word (cs : List Char) (start : ℕ) : Checked (Kind × ℕ) := do
  let j ← skip isNamePart cs (cs.length + 1) (start + 1)
  let part ← between cs start j
  let last ← before j
  pure (wordKind (String.ofList part), last)

def symbol (cs : List Char) (i : ℕ) : Checked (Kind × ℕ) := do
  let c ← charAt cs i
  if c = '$' then if isAt isNamePart cs (i + 1) then word cs i else pure (.root, i)
  else if c = '.' then
    if isAt (· == '.') cs (i + 1) then
      if isAt (· == '.') cs (i + 2) then throw (.lex .threeDots '.' (i + 2))
      else pure (.dots, i + 1)
    else pure (.dot, i)
  else
    match punctuation? c with
    | some kind => pure (kind, i)
    | none => if isNameStart c then word cs i else throw (.lex .noToken c i)

/-! ## tokens -/

/-- the lexeme at an index and the index of its last character -/
def lexeme (cs : List Char) (i : ℕ) : Checked (Kind × ℕ) := do
  let c ← charAt cs i
  if c = '\'' ∨ c = '"' then text cs i
  else if c.isDigit ∨ c = '-' then number cs i
  else if isOperatorSymbol c then operator cs i
  else symbol cs i

def tokensFrom (cs : List Char) : (tries i : ℕ) → Checked (List Token)
  | 0, _ => giveUp
  | tries + 1, i => do
    if i < cs.length then
      let c ← charAt cs i
      if isSeparator c then tokensFrom cs tries (i + 1)
      else
        let (kind, last) ← lexeme cs i
        let tokens ← tokensFrom cs tries (last + 1)
        pure (⟨kind, i⟩ :: tokens)
    else pure [⟨.eof, cs.length⟩]

def lex (text : String) : Option (Except PathError (List Token)) :=
  tokensFrom text.toList (text.toList.length + 1) 0

end Strict

/-! ## what is still to come -/

def Reached (cs : List Char) (i : ℕ) (rest : List Char) : Prop :=
  ∃ done, cs = done ++ rest ∧ done.length = i

namespace Reached

variable {cs rest : List Char} {i : ℕ}

theorem start (cs : List Char) : Reached cs 0 cs := ⟨[], rfl, rfl⟩

theorem behind {part : List Char} (h : Reached cs i (part ++ rest)) :
    Reached cs (i + part.length) rest := by
  obtain ⟨done, rfl, rfl⟩ := h
  exact ⟨done ++ part, (List.append_assoc _ _ _).symm, List.length_append⟩

theorem next {c : Char} (h : Reached cs i (c :: rest)) : Reached cs (i + 1) rest := by
  rw [← List.singleton_append] at h
  exact h.behind

theorem length (h : Reached cs i rest) : i + rest.length = cs.length := by
  obtain ⟨done, rfl, rfl⟩ := h
  exact List.length_append.symm

theorem getElem? (h : Reached cs i rest) : cs[i]? = rest.head? := by
  obtain ⟨done, rfl, rfl⟩ := h
  rw [List.getElem?_append_right (Nat.le_refl _), Nat.sub_self, List.head?_eq_getElem?]

theorem isAt (h : Reached cs i rest) (p : Char → Bool) : Strict.isAt p cs i = rest.head?.any p := by
  rw [Strict.isAt, h.getElem?]

theorem isAt_two (h : Reached cs i rest) {p q : Char → Bool} :
    (Strict.isAt p cs i && Strict.isAt q cs (i + 1)) = true ↔
      ∃ a b more, rest = a :: b :: more ∧ p a = true ∧ q b = true := by
  rw [Bool.and_eq_true, h.isAt, Option.any_eq_true]
  constructor
  · rintro ⟨⟨a, ha, hp⟩, hq⟩
    obtain ⟨rest, rfl⟩ := List.head?_eq_some_iff.mp ha
    rw [h.next.isAt, Option.any_eq_true] at hq
    obtain ⟨b, hb, hq⟩ := hq
    obtain ⟨more, rfl⟩ := List.head?_eq_some_iff.mp hb
    exact ⟨a, b, more, rfl, hp, hq⟩
  · rintro ⟨a, b, more, rfl, hp, hq⟩
    exact ⟨⟨a, rfl, hp⟩, by rw [h.next.isAt]; exact hq⟩

theorem charAt {c : Char} (h : Reached cs i (c :: rest)) : Strict.charAt cs i = pure c := by
  rw [Strict.charAt, h.getElem?]
  rfl

theorem between {part : List Char} (h : Reached cs i (part ++ rest)) :
    Strict.between cs i (i + part.length) = pure part := by
  have hlen := h.behind.length
  rw [Strict.between, if_pos ⟨Nat.le_add_right _ _, by omega⟩]
  obtain ⟨done, rfl, rfl⟩ := h
  rw [List.drop_left, Nat.add_sub_cancel_left, List.take_left]

theorem skip {p : Char → Bool} {part : List Char} {tries : ℕ} (h : Reached cs i (part ++ rest))
    (hpart : ∀ c ∈ part, p c = true) (hrest : ∀ c ∈ rest.head?, p c = false)
    (htries : part.length < tries) : Strict.skip p cs tries i = pure (i + part.length) := by
  induction part generalizing i tries with
  | nil =>
    obtain ⟨tries, rfl⟩ := Nat.exists_eq_add_one.mpr htries
    rw [Strict.skip]
    cases rest with
    | nil =>
      have hlen := h.length
      rw [if_neg (by rw [← hlen]; exact Nat.lt_irrefl _)]
      rfl
    | cons c rest =>
      have hlen := h.length
      rw [List.nil_append, List.length_cons] at hlen
      rw [if_pos (by omega), h.charAt, pure_bind,
        if_neg (by rw [hrest c rfl]; exact Bool.false_ne_true)]
      rfl
  | cons c part ih =>
    obtain ⟨hc, hpart⟩ := List.forall_mem_cons.mp hpart
    obtain ⟨tries, rfl⟩ := Nat.exists_eq_add_one.mpr (Nat.zero_lt_of_lt htries)
    rw [List.length_cons] at htries
    have hlen := h.length
    rw [List.cons_append, List.length_cons] at hlen
    rw [Strict.skip, if_pos (by omega), h.charAt, pure_bind, if_pos hc,
      ih h.next hpart (Nat.lt_of_succ_lt_succ htries), List.length_cons, Nat.add_assoc,
      Nat.add_comm 1]

theorem skipDigits {part : List Char} (h : Reached cs i (part ++ rest))
    (hpart : ∀ c ∈ part, c.isDigit = true) (hrest : ∀ c ∈ rest.head?, c.isDigit = false) :
    Strict.skipDigits cs i = pure (i + part.length) := by
  have hlen := h.behind.length
  exact h.skip hpart hrest (by omega)

end Reached

namespace Strict

variable {cs : List Char}

/-- where a lexeme that starts at an index ends -/
def ending (i : ℕ) (lexeme : Lexeme) : Kind × ℕ := (lexeme.kind, i + lexeme.more)

/-! ## the readers agree -/

theorem hex_eq (u offset : ℕ) {start count value : ℕ} {ds : List Char}
    (h : Reached cs (start + offset) ds) :
    hex cs (start + u) count (start + offset) value
      = place start (readHex u count offset value ds) := by
  induction count generalizing offset value ds with
  | zero => rw [hex, readHex]; rfl
  | succ count ih =>
    rw [hex, h.getElem?]
    cases ds with
    | nil => rfl
    | cons c ds =>
      rw [readHex]
      dsimp only [List.head?_cons]
      cases hexValue? c with
      | none => rfl
      | some d => exact ih (offset + 1) h.next

theorem code_eq {start offset : ℕ} {digits : List Char}
    (h : Reached cs (start + offset + 2) digits) :
    code cs (start + offset) =
      (fun r => (r.1, start + offset + r.2)) <$> place start (readCode offset digits) := by
  have hhex : hex cs (start + offset + 1) 4 (start + offset + 2) 0
      = place start (readHex (offset + 1) 4 (offset + 2) 0 digits) :=
    hex_eq (offset + 1) (offset + 2) h
  rw [code, hhex, readCode]
  cases hread : readHex (offset + 1) 4 (offset + 2) 0 digits with
  | error flaw => rfl
  | ok high =>
    obtain ⟨part, tail, rfl, hpart, -⟩ := readHex_fixed hread
    have htail : Reached cs (start + offset + 6) tail := by
      have hbehind := h.behind
      rwa [hpart] at hbehind
    have hdrop : (part ++ tail).drop 4 = tail := by rw [← hpart, List.drop_left]
    show (if isLowSurrogate high then _ else _) = _
    dsimp only
    rw [hdrop]
    by_cases hlow : isLowSurrogate high = true
    · rw [if_pos hlow, if_pos hlow]
      rfl
    rw [if_neg hlow, if_neg hlow]
    by_cases hhigh : isHighSurrogate high = true
    · rw [if_pos hhigh, if_pos hhigh]
      have htwo := htail.isAt_two (p := (· == '\\')) (q := (· == 'u'))
      by_cases hpair : ∃ digits, tail = '\\' :: 'u' :: digits
      · obtain ⟨digits, rfl⟩ := hpair
        have hhex' : hex cs (start + offset + 6 + 1) 4 (start + offset + 6 + 2) 0
            = place start (readHex (offset + 7) 4 (offset + 8) 0 digits) :=
          hex_eq (offset + 7) (offset + 8) htail.next.next
        rw [if_pos (htwo.mpr ⟨_, _, digits, rfl, rfl, rfl⟩), hhex']
        simp only []
        cases readHex (offset + 7) 4 (offset + 8) 0 digits with
        | error flaw => rfl
        | ok low =>
          show (if isLowSurrogate low then _ else _) = _
          dsimp only
          generalize ofSurrogates high low = d
          by_cases hlow' : isLowSurrogate low = true
          · rw [if_pos hlow', if_pos hlow', Nat.add_assoc _ 6 5]
            rfl
          · rw [if_neg hlow', if_neg hlow', Nat.add_assoc _ 6 1]
            rfl
      · rw [if_neg fun hboth => ?_]
        · split
          · exact absurd ⟨_, rfl⟩ hpair
          · rfl
        · obtain ⟨a, b, digits, rfl, ha, hb⟩ := htwo.mp hboth
          rw [beq_iff_eq] at ha hb
          exact hpair ⟨digits, by rw [ha, hb]⟩
    · rw [if_neg hhigh, if_neg hhigh]
      rfl

theorem readText_spelling {quote c d : Char} {offset more : ℕ} {part tail : List Char}
    (hquote : c ≠ quote) (hpart : part.length = more)
    (h : readSpelling quote offset c (part ++ tail) = .ok (d, more)) :
    readText quote offset (c :: (part ++ tail)) =
      (fun r => (d :: r.1, r.2)) <$> readText quote (offset + 1 + more) tail := by
  rw [readText, if_neg hquote, h]
  dsimp only
  rw [← hpart, List.drop_left]
  cases readText quote (offset + 1 + part.length) tail <;> rfl

theorem readText_flaw {quote c : Char} {offset : ℕ} {rest : List Char} {flaw : Flaw}
    (hquote : c ≠ quote) (h : readSpelling quote offset c rest = .error flaw) :
    readText quote offset (c :: rest) = .error flaw := by
  rw [readText, if_neg hquote, h]

theorem textFrom_eq (start offset : ℕ) {quote : Char} {tries : ℕ} {rest value : List Char}
    (h : Reached cs (start + offset) rest) (htries : rest.length < tries) :
    textFrom cs quote start tries (start + offset) value =
      (fun r => (value ++ r.1, start + r.2)) <$> place start (readText quote offset rest) := by
  induction tries generalizing offset rest value with
  | zero => exact absurd htries (Nat.not_lt_zero _)
  | succ tries ih =>
    -- one character, and what is read behind its spelling
    have step {c d : Char} {more : ℕ} (part : List Char) {tail : List Char} (hquote : c ≠ quote)
        (hpart : part.length = more)
        (hspelling : readSpelling quote offset c (part ++ tail) = .ok (d, more))
        (htail : Reached cs (start + (offset + 1 + more)) tail) (hlt : tail.length < tries) :
        textFrom cs quote start tries (start + (offset + 1 + more)) (value ++ [d]) =
          (fun r => (value ++ r.1, start + r.2)) <$>
            place start (readText quote offset (c :: (part ++ tail))) := by
      rw [ih _ htail hlt, readText_spelling hquote hpart hspelling]
      cases readText quote (offset + 1 + more) tail with
      | error flaw => rfl
      | ok r =>
        show (pure (value ++ [d] ++ r.1, start + r.2) : Checked _) = pure (_, start + r.2)
        rw [List.append_assoc]
        rfl
    rw [textFrom, h.getElem?]
    cases rest with
    | nil =>
      rw [readText]
      rfl
    | cons c rest =>
      rw [List.length_cons] at htries
      dsimp only [List.head?_cons]
      by_cases hquote : c = quote
      · rw [if_pos hquote, readText, if_pos hquote]
        show _ = (pure (value ++ [], start + offset) : Checked _)
        rw [List.append_nil]
      rw [if_neg hquote]
      by_cases hc : c = '\\'
      · rw [if_neg (not_not.mpr hc), h.next.getElem?]
        cases rest with
        | nil =>
          have hflaw : readSpelling quote offset c [] = .error ⟨.unterminated, quote, 0⟩ := by
            simp only [readSpelling, if_pos hc]
          rw [readText_flaw hquote hflaw]
          rfl
        | cons e digits =>
          rw [List.length_cons] at htries
          dsimp only [List.head?_cons]
          cases hshort : shortEscape? e with
          | some d =>
            have hspelling : readSpelling quote offset c (e :: digits) = .ok (d, 1) := by
              simp only [readSpelling, if_pos hc, hshort]
            exact step [e] hquote rfl hspelling h.next.next (by omega)
          | none =>
            dsimp only
            by_cases he : e = 'u'
            · have hspelling : readSpelling quote offset c (e :: digits)
                  = readCode offset digits := by
                simp only [readSpelling, if_pos hc, hshort, if_pos he]
              rw [if_pos he, code_eq h.next.next]
              cases hcode : readCode offset digits with
              | error flaw =>
                rw [readText_flaw hquote (hspelling.trans hcode)]
                rfl
              | ok r =>
                obtain ⟨d, more⟩ := r
                obtain ⟨n, rfl, part, tail, rfl, hpart, -⟩ := readCode_fixed hcode
                have htail := h.next.next.behind
                rw [List.length_append] at htries
                rw [hpart, show start + offset + 1 + 1 + n = start + (offset + 1 + (n + 1)) by
                  omega] at htail
                have hmore := step (e :: part) hquote (congrArg (· + 1) hpart)
                  (hspelling.trans hcode) htail (by omega)
                rw [show start + (offset + 1 + (n + 1)) = start + offset + (n + 1) + 1 by
                  omega] at hmore
                exact hmore
            · have hflaw : readSpelling quote offset c (e :: digits)
                  = .error ⟨.unknownEscape, e, offset + 1⟩ := by
                simp only [readSpelling, if_pos hc, hshort, if_neg he]
              rw [if_neg he, readText_flaw hquote hflaw]
              rfl
      · have hspelling : readSpelling quote offset c rest = .ok (c, 0) := by
          simp only [readSpelling, if_neg hc]
        rw [if_pos hc]
        exact step [] hquote rfl hspelling h.next (by omega)

theorem text_eq {c : Char} {rest : List Char} {i : ℕ} (h : Reached cs i (c :: rest)) :
    text cs i = ending i <$> place i (scanText c rest) := by
  have hlen := h.length
  rw [List.length_cons] at hlen
  have hread : textFrom cs c i cs.length (i + 1) [] = _ :=
    textFrom_eq i 1 h.next (by omega)
  rw [text, h.charAt, pure_bind, hread, scanText]
  cases readText c 1 rest <;> rfl

theorem afterFraction_eq {fraction behind : List Char} {i : ℕ}
    (h : Reached cs i (fraction ++ behind))
    (hfraction : fractionPart (fraction ++ behind) = fraction) :
    afterFraction cs i = pure (!fraction.isEmpty, i + fraction.length) := by
  have htwo := h.isAt_two (p := (· == '.')) (q := Char.isDigit)
  rw [afterFraction]
  obtain ⟨hnil, hnone⟩ | ⟨d, ds, more, hrest, hds, hmore, hpoint⟩ :=
    fractionPart_cases (fraction ++ behind)
  · rw [hfraction] at hnil
    subst hnil
    rw [if_neg fun hboth => ?_]
    · rfl
    · obtain ⟨a, b, more, hrest, ha, hb⟩ := htwo.mp hboth
      rw [beq_iff_eq] at ha
      rw [hnone (b :: more) (by rw [hrest, ha]) b rfl] at hb
      cases hb
  · rw [hfraction] at hpoint
    subst hpoint
    rw [if_pos (htwo.mpr ⟨_, d, _, hrest, rfl, hds d List.mem_cons_self⟩)]
    rw [hrest] at h
    rw [h.next.skipDigits hds hmore, pure_bind, List.length_cons, Nat.add_assoc, Nat.add_comm 1]
    rfl

theorem afterExponent_eq {behind : List Char} {i : ℕ} (h : Reached cs i behind) :
    afterExponent cs i = match exponentPart? behind with
      | some exponent => pure (!exponent.isEmpty, i + exponent.length)
      | none => throw (.lex .emptyExponent (behind.headD 'e') i) := by
  rw [afterExponent, h.isAt]
  cases behind with
  | nil => rfl
  | cons e rest =>
    rw [List.head?_cons, Option.any_some]
    by_cases he : isExponent e = true
    · rw [if_pos he]
      obtain ⟨digits, hrest⟩ := exists_exponentSign rest
      have hsign : (if isAt isSign cs (i + 1) then i + 2 else i + 1)
          = i + 1 + (exponentSign rest).length := by
        rw [h.next.isAt, length_exponentSign]
        split <;> rfl
      have hdigits : Reached cs (i + 1 + (exponentSign rest).length) digits := by
        have hnext := h.next
        rw [hrest] at hnext
        exact hnext.behind
      dsimp only
      rw [hsign, hdigits.isAt, exponentPart_cons he hrest]
      have hall : ∀ c ∈ digits.takeWhile Char.isDigit, c.isDigit = true :=
        fun _ hc => List.mem_takeWhile_imp hc
      have hempty := isEmpty_takeWhile Char.isDigit digits
      cases hany : digits.head?.any Char.isDigit with
      | false =>
        rw [hany, Bool.not_false] at hempty
        rw [if_neg Bool.false_ne_true, if_pos hempty, h.charAt]
        rfl
      | true =>
        rw [hany, Bool.not_true] at hempty
        rw [← List.takeWhile_append_dropWhile (p := Char.isDigit) (l := digits)] at hdigits
        rw [if_pos rfl, if_neg (by rw [hempty]; exact Bool.false_ne_true),
          hdigits.skipDigits hall (dropWhile_head digits), pure_bind]
        dsimp only
        rw [List.length_cons, List.length_append]
        congr 2
        omega
    · have hnone : exponentPart? (e :: rest) = some [] := by
        refine exponentPart_eq_nil fun c hc => ?_
        cases hc
        exact Bool.eq_false_iff.mpr he
      rw [if_neg he, hnone]
      rfl

theorem before_add {i n : ℕ} (h : 0 < n) : before (i + n) = pure (i + (n - 1)) := by
  rw [before, if_pos (Nat.add_pos_right i h), Nat.add_sub_assoc h]

theorem splitSign_cases {c : Char} {rest body : List Char} {negative : Bool}
    (hsplit : Decimal.splitSign (c :: rest) = (negative, body)) :
    negative = decide (c = '-') ∧ c :: rest = (if negative then ['-'] else []) ++ body := by
  unfold Decimal.splitSign at hsplit
  split at hsplit
  · rename_i heq
    cases hsplit
    exact ⟨(decide_eq_true (List.cons.inj heq).1).symm, heq⟩
  · rename_i hne
    cases hsplit
    refine ⟨(decide_eq_false fun hc => ?_).symm, rfl⟩
    exact hne rest (by rw [hc])

theorem afterSign_eq {c : Char} {rest whole after : List Char} {negative : Bool} {i : ℕ}
    (h : Reached cs i (c :: rest))
    (hsplit : Decimal.splitSign (c :: rest) = (negative, whole ++ after))
    (hwhole : ∀ d ∈ whole, d.isDigit = true) (hafter : ∀ d ∈ after.head?, d.isDigit = false) :
    afterSign cs i =
      if negative && whole.isEmpty then throw (.lex .bareMinus '-' i)
      else pure (i + (if negative then ['-'] else []).length) := by
  obtain ⟨hnegative, hbody⟩ := splitSign_cases hsplit
  rw [afterSign, h.charAt, pure_bind]
  by_cases hminus : c = '-'
  · rw [decide_eq_true hminus] at hnegative
    subst hnegative
    have hrest : rest = whole ++ after := (List.cons.inj hbody).2
    subst hrest
    have hempty := isEmpty_takeWhile Char.isDigit (whole ++ after)
    rw [takeWhile_append_of_head hwhole hafter] at hempty
    rw [if_pos hminus, h.next.isAt, hempty, Bool.true_and]
    cases (whole ++ after).head?.any Char.isDigit <;> rfl
  · rw [decide_eq_false hminus] at hnegative
    subst hnegative
    exact if_neg hminus

theorem number_eq {c : Char} {rest : List Char} {i : ℕ} (h : Reached cs i (c :: rest))
    (hc : c.isDigit = true ∨ c = '-') : number cs i = ending i <$> place i (scanNumber c rest) := by
  obtain ⟨negative, body, hsplit⟩ : ∃ negative body,
    Decimal.splitSign (c :: rest) = (negative, body) := ⟨_, _, rfl⟩
  obtain ⟨whole, fraction, behind, rfl, hwhole, hafter, hsettled⟩ := exists_number_parts body
  have hfraction := hsettled behind (.refl behind)
  obtain ⟨hnegative, hbody⟩ := splitSign_cases hsplit
  rw [scanNumber_eq hsplit hwhole hafter hfraction, number, afterSign_eq h hsplit hwhole hafter]
  by_cases hminus : (negative && whole.isEmpty) = true
  · rw [if_pos hminus, if_pos hminus]
    rfl
  have hsome : 0 < ((if negative then ['-'] else []) ++ whole).length := by
    cases negative with
    | true => exact Nat.zero_lt_succ _
    | false =>
      refine List.length_pos_iff.mpr fun hnil => ?_
      have hdigit := hc.resolve_right (of_decide_eq_false hnegative.symm)
      have hhead : c ∈ (fraction ++ behind).head? := by
        rw [show whole = [] from hnil] at hbody
        exact List.head?_eq_some_iff.mpr ⟨rest, hbody.symm⟩
      rw [hafter c hhead] at hdigit
      cases hdigit
  generalize (if negative then ['-'] else []) = sign at hbody hsome ⊢
  have hfront := h
  rw [hbody] at hfront
  rw [if_neg hminus, if_neg hminus, pure_bind, hfront.behind.skipDigits hwhole hafter, pure_bind,
    afterFraction_eq hfront.behind.behind hfraction, pure_bind]
  dsimp only
  rw [afterExponent_eq hfront.behind.behind.behind]
  have hlength : i + sign.length + whole.length + fraction.length
      = i + (sign ++ whole ++ fraction).length := by
    rw [List.length_append, List.length_append]
    omega
  rw [hlength]
  cases hexponent : exponentPart? behind with
  | none => rfl
  | some exponent =>
    obtain ⟨tail, rfl, -⟩ := exponentPart_settled hexponent
    rw [pure_bind]
    dsimp only
    have hend : i + (sign ++ whole ++ fraction).length + exponent.length
        = i + (sign ++ whole ++ fraction ++ exponent).length := by
      rw [Nat.add_assoc, ← List.length_append]
    have hpart : Reached cs i (sign ++ whole ++ fraction ++ exponent ++ tail) := by
      simpa only [List.append_assoc] using hfront
    rw [hend, hpart.between, pure_bind, h.charAt, pure_bind, Bool.not_not, Bool.not_not]
    cases hread : numberLexeme c (fraction.isEmpty && exponent.isEmpty)
      (sign ++ whole ++ fraction ++ exponent) with
    | error flaw => rfl
    | ok lexeme =>
      have hpos : 0 < (sign ++ whole ++ fraction ++ exponent).length := by
        rw [List.length_append, List.length_append]
        omega
      show before _ >>= _ = _
      rw [before_add hpos, ← more_numberLexeme hread]
      rfl

theorem operator_eq {c : Char} {rest : List Char} {i : ℕ} (h : Reached cs i (c :: rest)) :
    operator cs i = ending i <$> place i (scanOperator c rest.head?) := by
  rw [operator, h.charAt, pure_bind, h.next.getElem?]
  rfl

theorem word_eq {c : Char} {rest : List Char} {i : ℕ} (h : Reached cs i (c :: rest)) :
    word cs i = pure (ending i (scanWord c rest)) := by
  have hnext := h.next
  rw [← List.takeWhile_append_dropWhile (p := isNamePart) (l := rest)] at hnext
  have hlen := hnext.behind.length
  have hpart : Reached cs i (c :: rest.takeWhile isNamePart ++ rest.dropWhile isNamePart) := by
    rw [List.cons_append, List.takeWhile_append_dropWhile]
    exact h
  have hend : i + 1 + (rest.takeWhile isNamePart).length
      = i + (c :: rest.takeWhile isNamePart).length := by
    rw [List.length_cons]
    omega
  rw [word, hnext.skip (fun _ hc => List.mem_takeWhile_imp hc) (dropWhile_head rest) (by omega),
    pure_bind, hend, hpart.between, pure_bind,
    before_add (List.length_pos_iff.mpr (List.cons_ne_nil _ _))]
  rfl

theorem ne_point {rest : List Char} (h : ¬∃ more, rest = '.' :: more) :
    ∀ c ∈ rest.head?, c ≠ '.' := by
  rintro c hc rfl
  exact h (List.head?_eq_some_iff.mp hc)

theorem any_point {rest : List Char} (h : ¬∃ more, rest = '.' :: more) :
    rest.head?.any (· == '.') = false := by
  rw [Option.any_eq_false]
  exact fun c hc => beq_eq_false_iff_ne.mpr (ne_point h c hc)

theorem symbol_eq {c : Char} {rest : List Char} {i : ℕ} (h : Reached cs i (c :: rest))
    (hquote : ¬(c = '\'' ∨ c = '"')) (hnumber : ¬(c.isDigit ∨ c = '-'))
    (hoperator : ¬isOperatorSymbol c) : symbol cs i = ending i <$> place i (scan c rest) := by
  rw [symbol, h.charAt, pure_bind, scan, if_neg hquote, if_neg hnumber, if_neg hoperator]
  by_cases hroot : c = '$'
  · have hgoes : isAt isNamePart cs (i + 1) = goesOn rest := by
      rw [h.next.isAt]
      cases rest <;> rfl
    rw [if_pos hroot, if_pos hroot, hgoes]
    split
    · exact word_eq h
    · rfl
  rw [if_neg hroot, if_neg hroot]
  by_cases hdot : c = '.'
  · rw [if_pos hdot, if_pos hdot, h.next.isAt]
    by_cases hone : ∃ more, rest = '.' :: more
    · obtain ⟨rest, rfl⟩ := hone
      rw [h.next.next.isAt]
      by_cases htwo : ∃ more, rest = '.' :: more
      · obtain ⟨rest, rfl⟩ := htwo
        rfl
      · rw [scanDots_dots (ne_point htwo), any_point htwo]
        rfl
    · rw [scanDots_dot (ne_point hone), any_point hone]
      rfl
  rw [if_neg hdot, if_neg hdot]
  cases punctuation? c with
  | some kind => rfl
  | none =>
    dsimp only
    split
    · exact word_eq h
    · rfl

theorem lexeme_eq {c : Char} {rest : List Char} {i : ℕ} (h : Reached cs i (c :: rest)) :
    lexeme cs i = ending i <$> place i (scan c rest) := by
  rw [lexeme, h.charAt, pure_bind]
  by_cases hquote : c = '\'' ∨ c = '"'
  · rw [if_pos hquote, scan, if_pos hquote]
    exact text_eq h
  rw [if_neg hquote]
  by_cases hnumber : c.isDigit ∨ c = '-'
  · rw [if_pos hnumber, (scan_number hnumber rest).2]
    exact number_eq h hnumber
  rw [if_neg hnumber]
  by_cases hoperator : isOperatorSymbol c = true
  · rw [if_pos hoperator, scan, if_neg hquote, if_neg hnumber, if_pos hoperator]
    exact operator_eq h
  · rw [if_neg hoperator]
    exact symbol_eq h hquote hnumber hoperator

/-! ## and so do the tokens -/

theorem tokensFrom_eq {rest : List Char} {tries i : ℕ} (h : Reached cs i rest)
    (htries : rest.length < tries) : tokensFrom cs tries i = some (lexFrom i rest) := by
  induction tries generalizing i rest with
  | zero => exact absurd htries (Nat.not_lt_zero _)
  | succ tries ih =>
    have hlen := h.length
    rw [tokensFrom]
    cases rest with
    | nil =>
      rw [lexFrom, if_neg (by rw [← hlen]; exact Nat.lt_irrefl _), ← hlen]
      rfl
    | cons c rest =>
      rw [List.length_cons] at htries hlen
      rw [lexFrom, if_pos (by omega), h.charAt, pure_bind]
      by_cases hblank : isSeparator c = true
      · rw [if_pos hblank, if_pos hblank]
        exact ih h.next (by omega)
      rw [if_neg hblank, if_neg hblank, lexeme_eq h]
      cases hscan : scan c rest with
      | error flaw => rfl
      | ok lexeme =>
        obtain ⟨part, tail, rfl, hpart, -⟩ := scan_settled hscan
        have htail := h.next.behind
        rw [List.length_append] at htries
        have hmore := ih htail (by omega)
        dsimp only
        rw [← hpart, List.drop_left]
        have hnext : i + lexeme.more + 1 = i + 1 + part.length := by omega
        show tokensFrom cs tries (i + lexeme.more + 1) >>= _ = _
        rw [hnext, hmore]
        cases lexFrom (i + 1 + part.length) tail <;> rfl

/-- **Every character that is asked for is there,** and the tokens are those of the text. -/
theorem lex_eq (text : String) : lex text = some (Token.lex text) :=
  tokensFrom_eq (.start _) (Nat.lt_succ_self _)

end Strict

end PathQuery.Token
