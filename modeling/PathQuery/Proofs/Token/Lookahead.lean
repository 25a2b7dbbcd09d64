import PathQuery.Proofs.Token.Literals

/-!
# What a lexeme depends on

A reader of lexemes looks at the characters of the lexeme and at some of those behind it. White
space behind a lexeme, or the end of the text, never makes it longer or shorter: what was read in
front of a text is also read in front of any text that goes on as that one does until it ends or
comes to white space.

* `Echoes`          texts that go on alike until one of them ends or comes to white space;
* `Fixed`           an answer that is settled by the characters it takes;
* `Settled`         one that is settled by these as long as the text behind them is echoed;
* `scan_settled`    every lexeme is settled by its characters in that way.
-/

namespace PathQuery.Token

/-! ## texts that go on alike -/

/-- the second text goes on as the first does until it ends or comes to white space -/
inductive Echoes : List Char → List Char → Prop
  | stop (rest : List Char) : Echoes rest []
  | blank {c : Char} (hc : isSeparator c = true) (rest rest' : List Char) : Echoes rest (c :: rest')
  | same (c : Char) {rest rest' : List Char} (h : Echoes rest rest') :
      Echoes (c :: rest) (c :: rest')

namespace Echoes

theorem refl (rest : List Char) : Echoes rest rest := by
  induction rest with
  | nil => exact .stop []
  | cons c rest ih => exact .same c ih

theorem append {rest rest' : List Char} (h : Echoes rest rest') (part : List Char) :
    Echoes (part ++ rest) (part ++ rest') := by
  induction part with
  | nil => exact h
  | cons c part ih => exact .same c ih

/-- what is no white space and is not at the front of the one is not at the front of the other -/
theorem head {rest rest' : List Char} (h : Echoes rest rest') {p : Char → Bool}
    (hp : ∀ c, isSeparator c = true → p c = false) (hrest : ∀ c ∈ rest.head?, p c = false) :
    ∀ c ∈ rest'.head?, p c = false := by
  intro c' hc'
  cases h with
  | stop => cases hc'
  | blank hc => cases hc'; exact hp c' hc
  | same c => cases hc'; exact hrest c' rfl

/-- what is no white space and comes first in the one comes first in the other -/
theorem tail {c : Char} (hc : isSeparator c = false) {rest rest' : List Char}
    (h : Echoes rest (c :: rest')) : ∃ more, rest = c :: more ∧ Echoes more rest' := by
  cases h with
  | blank hblank => rw [hc] at hblank; cases hblank
  | same _ h => exact ⟨_, rfl, h⟩

end Echoes

theorem isSeparator_cases {c : Char} (h : isSeparator c = true) :
    c = ' ' ∨ c = '\t' ∨ c = '\n' ∨ c = '\r' := by
  simpa [isSeparator, or_assoc] using h

theorem isDigit_of_isSeparator (c : Char) (h : isSeparator c = true) : c.isDigit = false := by
  rcases isSeparator_cases h with rfl | rfl | rfl | rfl <;> decide

theorem isNamePart_of_isSeparator (c : Char) (h : isSeparator c = true) :
    isNamePart c = false := by
  rcases isSeparator_cases h with rfl | rfl | rfl | rfl <;> decide

theorem dropWhile_head {p : Char → Bool} (cs : List Char) :
    ∀ c ∈ (cs.dropWhile p).head?, p c = false := by
  intro c hc
  have hne : cs.dropWhile p ≠ [] := List.ne_nil_of_mem (List.mem_of_mem_head? hc)
  have hhead := List.head_dropWhile_not p hne
  rw [List.head?_eq_some_head hne] at hc
  cases hc
  exact hhead

theorem isEmpty_takeWhile (p : Char → Bool) (cs : List Char) :
    (cs.takeWhile p).isEmpty = !cs.head?.any p := by
  cases cs with
  | nil => rfl
  | cons c cs =>
    rw [List.takeWhile_cons, List.head?_cons, Option.any_some]
    cases p c <;> rfl

/-! ## settled answers -/

/-- the first `n` characters settle the answer, whatever stands behind them -/
def Fixed {α : Type} (read : List Char → Except Flaw α) (rest : List Char) (n : ℕ) (a : α) : Prop :=
  ∃ part tail, rest = part ++ tail ∧ part.length = n ∧ ∀ tail', read (part ++ tail') = .ok a

/-- the first `n` characters settle the answer as long as what stands behind them is echoed -/
def Settled {α : Type} (read : List Char → Except Flaw α) (rest : List Char) (n : ℕ) (a : α) :
    Prop :=
  ∃ part tail, rest = part ++ tail ∧ part.length = n ∧
    ∀ tail', Echoes tail tail' → read (part ++ tail') = .ok a

theorem Fixed.settled {α : Type} {read : List Char → Except Flaw α} {rest : List Char} {n : ℕ}
    {a : α} (h : Fixed read rest n a) : Settled read rest n a := by
  obtain ⟨part, tail, hrest, hn, hread⟩ := h
  exact ⟨part, tail, hrest, hn, fun tail' _ => hread tail'⟩

/-! ### quoted texts -/

theorem readHex_fixed {u count offset value n : ℕ} {ds : List Char}
    (h : readHex u count offset value ds = .ok n) :
    Fixed (readHex u count offset value) ds count n := by
  induction count generalizing offset value ds with
  | zero =>
    rw [readHex] at h
    exact ⟨[], ds, rfl, rfl, fun tail' => by rw [readHex, h]⟩
  | succ count ih =>
    cases ds with
    | nil => cases h
    | cons d ds =>
      rw [readHex] at h
      split at h
      · rename_i v hv
        obtain ⟨part, tail, rfl, hn, hread⟩ := ih h
        refine ⟨d :: part, tail, rfl, congrArg (· + 1) hn, fun tail' => ?_⟩
        rw [List.cons_append, readHex, hv]
        exact hread tail'
      · cases h

/-- an escape by code takes the four digits, or those of both halves of a pair -/
theorem readCode_fixed {start more : ℕ} {digits : List Char} {d : Char}
    (h : readCode start digits = .ok (d, more)) :
    ∃ n, more = n + 1 ∧ Fixed (readCode start) digits n (d, more) := by
  unfold readCode at h
  split at h
  · cases h
  rename_i high hhigh
  obtain ⟨part, tail, rfl, hpart, hread⟩ := readHex_fixed hhigh
  have hdrop (tail' : List Char) : (part ++ tail').drop 4 = tail' := by rw [← hpart, List.drop_left]
  rw [hdrop] at h
  split at h
  · cases h
  rename_i hlow
  split at h
  · rename_i hsurrogate
    split at h
    · rename_i digits
      split at h
      · cases h
      rename_i low hlow'
      split at h
      · rename_i hpair
        obtain ⟨rfl, rfl⟩ := Prod.mk.inj (Except.ok.inj h)
        obtain ⟨part', tail, rfl, hpart', hread'⟩ := readHex_fixed hlow'
        refine ⟨10, rfl, part ++ '\\' :: 'u' :: part', tail, by simp, by simp [hpart, hpart'],
          fun tail' => ?_⟩
        rw [List.append_assoc]
        unfold readCode
        rw [hread]
        dsimp only
        rw [hdrop, if_neg hlow, if_pos hsurrogate]
        simp only [List.cons_append, hread', if_pos hpair]
      · cases h
    · cases h
  · rename_i hsurrogate
    cases h
    refine ⟨4, rfl, part, tail, rfl, hpart, fun tail' => ?_⟩
    unfold readCode
    rw [hread]
    dsimp only
    rw [if_neg hlow, if_neg hsurrogate]

theorem readSpelling_fixed {quote c d : Char} {start more : ℕ} {rest : List Char}
    (h : readSpelling quote start c rest = .ok (d, more)) :
    Fixed (readSpelling quote start c) rest more (d, more) := by
  unfold readSpelling at h
  by_cases hc : c = '\\'
  · rw [if_pos hc] at h
    cases rest with
    | nil => cases h
    | cons e digits =>
      dsimp only at h
      cases hshort : shortEscape? e with
      | some d' =>
        rw [hshort] at h
        cases h
        refine ⟨[e], digits, rfl, rfl, fun tail' => ?_⟩
        simp only [readSpelling, if_pos hc, List.singleton_append, hshort]
      | none =>
        rw [hshort] at h
        dsimp only at h
        by_cases he : e = 'u'
        · rw [if_pos he] at h
          obtain ⟨n, rfl, part, tail, rfl, hpart, hread⟩ := readCode_fixed h
          refine ⟨e :: part, tail, rfl, congrArg (· + 1) hpart, fun tail' => ?_⟩
          simp only [readSpelling, if_pos hc, List.cons_append, hshort, if_pos he, hread]
        · rw [if_neg he] at h
          cases h
  · rw [if_neg hc] at h
    cases h
    refine ⟨[], rest, rfl, rfl, fun tail' => ?_⟩
    simp only [readSpelling, if_neg hc]

theorem readText_fixed {quote : Char} {offset close : ℕ} {rest value : List Char}
    (h : readText quote offset rest = .ok (value, close)) :
    ∃ n, close + 1 = offset + n ∧ Fixed (readText quote offset) rest n (value, close) := by
  induction offset, rest using readText.induct quote generalizing value with
  | case1 offset =>
    rw [readText] at h
    cases h
  | case2 offset rest =>
    rw [readText, if_pos rfl] at h
    cases h
    exact ⟨1, rfl, [quote], rest, rfl, rfl, fun tail' => by
      rw [List.singleton_append, readText, if_pos rfl]⟩
  | case3 offset c rest hc flaw hflaw =>
    rw [readText, if_neg hc, hflaw] at h
    cases h
  | case4 offset c rest hc d more hspelling flaw hflaw ih =>
    rw [readText, if_neg hc, hspelling] at h
    dsimp only at h
    rw [hflaw] at h
    cases h
  | case5 offset c rest hc d more hspelling ds close' hmore ih =>
    rw [readText, if_neg hc, hspelling] at h
    dsimp only at h
    rw [hmore] at h
    cases h
    obtain ⟨part, tail, rfl, hpart, hread⟩ := readSpelling_fixed hspelling
    have hdrop (tail' : List Char) : (part ++ tail').drop more = tail' := by
      rw [← hpart, List.drop_left]
    rw [hdrop] at hmore ih
    obtain ⟨n, hn, part', tail, rfl, hpart', hread'⟩ := ih hmore
    refine ⟨1 + more + n, by omega, c :: (part ++ part'), tail, by simp, ?_, fun tail' => ?_⟩
    · rw [List.length_cons, List.length_append]
      omega
    · rw [List.cons_append, List.append_assoc, readText, if_neg hc, hread]
      dsimp only
      rw [hdrop, hread']

theorem scanText_fixed {quote : Char} {rest : List Char} {lexeme : Lexeme}
    (h : scanText quote rest = .ok lexeme) : Fixed (scanText quote) rest lexeme.more lexeme := by
  unfold scanText at h
  split at h
  · cases h
  · rename_i value close hread
    cases h
    obtain ⟨n, hn, part, tail, rfl, hpart, hread'⟩ := readText_fixed hread
    refine ⟨part, tail, rfl, ?_, fun tail' => ?_⟩
    · show part.length = close
      omega
    · rw [scanText, hread']

/-! ### words and symbols -/

theorem takeWhile_echoed {p : Char → Bool} (hp : ∀ c, isSeparator c = true → p c = false)
    {rest tail' : List Char} (h : Echoes (rest.dropWhile p) tail') :
    (rest.takeWhile p ++ tail').takeWhile p = rest.takeWhile p :=
  takeWhile_append_of_head (fun _ hc => List.mem_takeWhile_imp hc)
    (h.head hp (dropWhile_head rest))

theorem goesOn_takeWhile {rest : List Char} (h : goesOn rest = true) (tail' : List Char) :
    goesOn (rest.takeWhile isNamePart ++ tail') = true := by
  cases rest with
  | nil => cases h
  | cons c rest =>
    rw [List.takeWhile_cons, if_pos (show isNamePart c = true from h)]
    exact h

theorem scan_word_settled {c : Char} (hc : isNameStart c = true) {rest : List Char}
    (hroot : c = '$' → goesOn rest = true) :
    Settled (scan c) rest (scanWord c rest).more (scanWord c rest) := by
  refine ⟨rest.takeWhile isNamePart, rest.dropWhile isNamePart,
    List.takeWhile_append_dropWhile.symm, rfl, fun tail' htail => ?_⟩
  rw [scan_of_isNameStart hc fun e => goesOn_takeWhile (hroot e) tail', scanWord, scanWord,
    takeWhile_echoed isNamePart_of_isSeparator htail]

theorem goesOn_eq_false {rest : List Char} :
    goesOn rest = false ↔ ∀ c ∈ rest.head?, isNamePart c = false := by
  cases rest with
  | nil => exact ⟨fun _ => nofun, fun _ => rfl⟩
  | cons c rest => exact ⟨fun h _ hc => by cases hc; exact h, fun h => h c rfl⟩

theorem scanOperator_settled {c : Char} {rest : List Char} {lexeme : Lexeme}
    (h : scanOperator c rest.head? = .ok lexeme) :
    Settled (fun rest => scanOperator c rest.head?) rest lexeme.more lexeme := by
  -- a doubled symbol is settled by both characters
  have doubled (d : Char) (hd : rest.head? = some d) (hmore : lexeme.more = 1) :
      Settled (fun rest => scanOperator c rest.head?) rest lexeme.more lexeme := by
    obtain ⟨tail, rfl⟩ := List.head?_eq_some_iff.mp hd
    exact ⟨[d], tail, rfl, hmore.symm, fun tail' _ => h⟩
  have alone (d : Char) (hd : isSeparator d = false) (hne : rest.head? ≠ some d)
      (hmore : lexeme.more = 0)
      (hread : ∀ next : Option Char, next ≠ some d → scanOperator c next = .ok lexeme) :
      Settled (fun rest => scanOperator c rest.head?) rest lexeme.more lexeme := by
    refine ⟨[], rest, rfl, hmore.symm, fun tail' htail => hread _ fun hhead => ?_⟩
    obtain ⟨more, rfl⟩ := List.head?_eq_some_iff.mp hhead
    obtain ⟨_, rfl, _⟩ := htail.tail hd
    exact hne rfl
  unfold scanOperator at h
  split_ifs at h with h1 hnext h2 hnext h3 hnext h4 hnext h5 hnext hnext
  · exact doubled _ hnext (by cases h; rfl)
  · exact doubled _ hnext (by cases h; rfl)
  · cases h
    refine alone '=' (by decide) hnext rfl fun next hne => ?_
    rw [scanOperator, if_neg h1, if_pos h2, if_neg hne]
  · exact doubled _ hnext (by cases h; rfl)
  · cases h
    refine alone '=' (by decide) hnext rfl fun next hne => ?_
    rw [scanOperator, if_neg h1, if_neg h2, if_pos h3, if_neg hne]
  · exact doubled _ hnext (by cases h; rfl)
  · cases h
    refine alone '=' (by decide) hnext rfl fun next hne => ?_
    rw [scanOperator, if_neg h1, if_neg h2, if_neg h3, if_pos h4, if_neg hne]
  · exact doubled _ hnext (by cases h; rfl)
  · exact doubled _ hnext (by cases h; rfl)

theorem scanDots_settled {rest : List Char} {lexeme : Lexeme} (h : scanDots rest = .ok lexeme) :
    Settled scanDots rest lexeme.more lexeme := by
  -- no point comes up behind the lexeme
  have behind {tail tail' : List Char} (hne : ∀ more, tail ≠ '.' :: more)
      (htail : Echoes tail tail') : ∀ c ∈ tail'.head?, c ≠ '.' := by
    intro c hc
    obtain ⟨more', rfl⟩ := List.head?_eq_some_iff.mp hc
    rintro rfl
    obtain ⟨more, rfl, -⟩ := htail.tail (by decide)
    exact hne more rfl
  unfold scanDots at h
  split at h
  · cases h
  · rename_i tail hne
    cases h
    exact ⟨['.'], tail, rfl, rfl, fun tail' htail =>
      scanDots_dots (behind (fun more e => hne more (by rw [e])) htail)⟩
  · rename_i hne
    cases h
    exact ⟨[], rest, rfl, rfl, fun tail' htail => scanDots_dot (behind hne htail)⟩

/-! ### numbers -/

/-- a fraction is a point and all the digits behind it, if there are any -/
theorem fractionPart_cases (rest : List Char) :
    (fractionPart rest = [] ∧
      ∀ more, rest = '.' :: more → ∀ c ∈ more.head?, c.isDigit = false) ∨
    ∃ d ds behind, rest = '.' :: (d :: ds ++ behind) ∧ (∀ c ∈ d :: ds, c.isDigit = true) ∧
      (∀ c ∈ behind.head?, c.isDigit = false) ∧ fractionPart rest = '.' :: d :: ds := by
  unfold fractionPart
  split
  · rename_i d more
    by_cases hd : d.isDigit = true
    · refine .inr ⟨d, more.takeWhile Char.isDigit, more.dropWhile Char.isDigit, ?_,
        List.forall_mem_cons.mpr ⟨hd, fun _ hc => List.mem_takeWhile_imp hc⟩, dropWhile_head more,
        if_pos hd⟩
      rw [List.cons_append, List.takeWhile_append_dropWhile]
    · refine .inl ⟨if_neg hd, ?_⟩
      rintro _ heq c hc
      cases heq
      cases hc
      exact Bool.eq_false_iff.mpr hd
  · rename_i hne
    refine .inl ⟨rfl, ?_⟩
    rintro more rfl c hc
    obtain ⟨more, rfl⟩ := List.head?_eq_some_iff.mp hc
    exact absurd rfl (hne c more)

theorem fractionPart_point {d : Char} {ds behind : List Char}
    (hds : ∀ c ∈ d :: ds, c.isDigit = true) (hbehind : ∀ c ∈ behind.head?, c.isDigit = false) :
    fractionPart ('.' :: (d :: ds ++ behind)) = '.' :: d :: ds := by
  obtain ⟨hd, hds⟩ := List.forall_mem_cons.mp hds
  show (if d.isDigit then '.' :: d :: (ds ++ behind).takeWhile Char.isDigit else []) = _
  rw [if_pos hd, takeWhile_append_of_head hds hbehind]

theorem fractionPart_settled (rest : List Char) : ∃ tail, rest = fractionPart rest ++ tail ∧
    ∀ tail', Echoes tail tail' → fractionPart (fractionPart rest ++ tail') = fractionPart rest := by
  obtain ⟨hnil, hnone⟩ | ⟨d, ds, behind, rfl, hds, hbehind, hfraction⟩ := fractionPart_cases rest
  · rw [hnil]
    refine ⟨rest, rfl, fun tail' htail => ?_⟩
    obtain ⟨hnil', -⟩ | ⟨d, ds, behind, rfl, hds, -⟩ := fractionPart_cases tail'
    · exact hnil'
    · obtain ⟨more, rfl, hmore⟩ := htail.tail (by decide)
      have hd := hmore.head isDigit_of_isSeparator (hnone more rfl) d rfl
      exact absurd (hds d List.mem_cons_self) (by rw [hd]; exact Bool.false_ne_true)
  · rw [hfraction]
    exact ⟨behind, rfl, fun tail' htail =>
      fractionPart_point hds (htail.head isDigit_of_isSeparator hbehind)⟩

def isExponent (c : Char) : Bool := c == 'e' || c == 'E'

theorem isExponent_iff {c : Char} : isExponent c = true ↔ c = 'e' ∨ c = 'E' := by
  rw [isExponent, Bool.or_eq_true, beq_iff_eq, beq_iff_eq]

theorem isExponent_of_isSeparator (c : Char) (h : isSeparator c = true) :
    isExponent c = false := by
  rcases isSeparator_cases h with rfl | rfl | rfl | rfl <;> decide

theorem exponentPart_eq_nil {rest : List Char} (h : ∀ c ∈ rest.head?, isExponent c = false) :
    exponentPart? rest = some [] := by
  cases rest with
  | nil => rfl
  | cons c rest =>
    have hc : ¬(c = 'e' ∨ c = 'E') := by
      rw [← isExponent_iff, h c rfl]
      exact Bool.false_ne_true
    exact if_neg hc

def isSign (c : Char) : Bool := c == '+' || c == '-'

/-- the sign in front of the digits of an exponent, if there is one -/
def exponentSign : List Char → List Char
  | [] => []
  | c :: _ => if isSign c then [c] else []

theorem exists_exponentSign (rest : List Char) : ∃ digits, rest = exponentSign rest ++ digits := by
  cases rest with
  | nil => exact ⟨[], rfl⟩
  | cons c rest =>
    rw [exponentSign]
    split
    · exact ⟨rest, rfl⟩
    · exact ⟨c :: rest, rfl⟩

theorem length_exponentSign (rest : List Char) :
    (exponentSign rest).length = if rest.head?.any isSign then 1 else 0 := by
  cases rest with
  | nil => rfl
  | cons c rest =>
    rw [exponentSign, List.head?_cons, Option.any_some]
    split <;> rfl

theorem exponentSign_append (rest : List Char) {ds : List Char} (hne : ds ≠ [])
    (hds : ∀ d ∈ ds, d.isDigit = true) (tail : List Char) :
    exponentSign (exponentSign rest ++ (ds ++ tail)) = exponentSign rest := by
  have hdigit : exponentSign (ds ++ tail) = [] := by
    obtain ⟨d, ds, rfl⟩ := List.exists_cons_of_ne_nil hne
    refine if_neg fun hd => ?_
    have hd' := hds d List.mem_cons_self
    rw [isSign, Bool.or_eq_true, beq_iff_eq, beq_iff_eq] at hd
    rcases hd with rfl | rfl <;> cases hd'
  cases rest with
  | nil => exact hdigit
  | cons c rest =>
    by_cases hc : isSign c = true
    · rw [exponentSign, if_pos hc]
      exact if_pos hc
    · rw [exponentSign, if_neg hc]
      exact hdigit

/-- an exponent has a letter, possibly a sign, and all the digits that follow -/
theorem exponentPart_cons {e : Char} (he : isExponent e = true) {rest digits : List Char}
    (hrest : rest = exponentSign rest ++ digits) : exponentPart? (e :: rest) =
      if (digits.takeWhile Char.isDigit).isEmpty then none
      else some (e :: (exponentSign rest ++ digits.takeWhile Char.isDigit)) := by
  unfold exponentPart?
  dsimp only
  rw [if_pos (isExponent_iff.mp he)]
  split
  · obtain rfl := (List.cons.inj hrest).2
    rfl
  · obtain rfl := (List.cons.inj hrest).2
    rfl
  · rename_i hplus hminus
    have hsign : exponentSign rest = [] := by
      cases rest with
      | nil => rfl
      | cons c rest =>
        refine if_neg fun hc => ?_
        rw [isSign, Bool.or_eq_true, beq_iff_eq, beq_iff_eq] at hc
        rcases hc with rfl | rfl
        · exact hplus _ rfl
        · exact hminus _ rfl
    rw [hsign] at hrest ⊢
    rw [hrest]
    rfl

theorem exponentPart_settled {rest exponent : List Char} (h : exponentPart? rest = some exponent) :
    ∃ tail, rest = exponent ++ tail ∧
      ∀ tail', Echoes tail tail' → exponentPart? (exponent ++ tail') = some exponent := by
  by_cases hnone : ∀ c ∈ rest.head?, isExponent c = false
  · rw [exponentPart_eq_nil hnone] at h
    cases h
    exact ⟨rest, rfl, fun tail' htail =>
      exponentPart_eq_nil (htail.head isExponent_of_isSeparator hnone)⟩
  · obtain ⟨e, hhead, he⟩ : ∃ e ∈ rest.head?, isExponent e = true := by
      by_contra hall
      exact hnone fun c hc => Bool.eq_false_iff.mpr fun he => hall ⟨c, hc, he⟩
    obtain ⟨rest, rfl⟩ := List.head?_eq_some_iff.mp hhead
    obtain ⟨digits, hrest⟩ := exists_exponentSign rest
    rw [exponentPart_cons he hrest] at h
    split at h
    · cases h
    rename_i hdigits
    cases h
    have hne : digits.takeWhile Char.isDigit ≠ [] := fun hnil =>
      hdigits (List.isEmpty_iff.mpr hnil)
    refine ⟨digits.dropWhile Char.isDigit, ?_, fun tail' htail => ?_⟩
    · rw [List.cons_append, List.append_assoc, List.takeWhile_append_dropWhile, ← hrest]
    · have hsign := exponentSign_append rest hne (fun _ hd => List.mem_takeWhile_imp hd) tail'
      have hrest' : exponentSign rest ++ (digits.takeWhile Char.isDigit ++ tail')
          = exponentSign (exponentSign rest ++ (digits.takeWhile Char.isDigit ++ tail'))
            ++ (digits.takeWhile Char.isDigit ++ tail') := by rw [hsign]
      rw [List.cons_append, List.append_assoc, exponentPart_cons he hrest', hsign,
        takeWhile_echoed isDigit_of_isSeparator htail, if_neg hdigits]

/-- what a number is read as once its characters are known -/
def numberLexeme (c : Char) (isInteger : Bool) (cs : List Char) : Except Flaw Lexeme :=
  if isInteger then
    if inIntegerRange (Decimal.intOfText cs) then
      .ok ⟨.integer (Decimal.intOfText cs), cs.length - 1⟩
    else .error ⟨.integerRange, c, 0⟩
  else
    match Decimal.ofText? cs with
    | some x =>
      if Decimal.isFinite x then .ok ⟨.float x, cs.length - 1⟩ else .error ⟨.floatRange, c, 0⟩
    | none => .error ⟨.floatRange, c, 0⟩

theorem more_numberLexeme {c : Char} {isInteger : Bool} {cs : List Char} {lexeme : Lexeme}
    (h : numberLexeme c isInteger cs = .ok lexeme) : lexeme.more = cs.length - 1 := by
  unfold numberLexeme at h
  split at h
  · split at h <;> cases h
    rfl
  · split at h
    · split at h <;> cases h
      rfl
    · cases h

theorem exists_number_parts (body : List Char) : ∃ whole fraction behind,
    body = whole ++ (fraction ++ behind) ∧ (∀ d ∈ whole, d.isDigit = true) ∧
      (∀ d ∈ (fraction ++ behind).head?, d.isDigit = false) ∧
      ∀ behind', Echoes behind behind' → fractionPart (fraction ++ behind') = fraction := by
  obtain ⟨behind, hbehind, hfraction⟩ := fractionPart_settled (body.dropWhile Char.isDigit)
  refine ⟨body.takeWhile Char.isDigit, _, behind, ?_, fun _ hd => List.mem_takeWhile_imp hd, ?_,
    hfraction⟩
  · rw [← hbehind, List.takeWhile_append_dropWhile]
  · rw [← hbehind]
    exact dropWhile_head body

theorem scanNumber_eq {c : Char} {negative : Bool} {rest whole fraction behind : List Char}
    (hsplit : Decimal.splitSign (c :: rest) = (negative, whole ++ (fraction ++ behind)))
    (hwhole : ∀ d ∈ whole, d.isDigit = true)
    (hafter : ∀ d ∈ (fraction ++ behind).head?, d.isDigit = false)
    (hfraction : fractionPart (fraction ++ behind) = fraction) :
    scanNumber c rest =
      if negative && whole.isEmpty then .error ⟨.bareMinus, '-', 0⟩
      else
        let front := (if negative then ['-'] else []) ++ whole ++ fraction
        match exponentPart? behind with
        | none => .error ⟨.emptyExponent, behind.headD 'e', front.length⟩
        | some exponent =>
          numberLexeme c (fraction.isEmpty && exponent.isEmpty) (front ++ exponent) := by
  have htake := takeWhile_append_of_head hwhole hafter
  have hdrop := congrArg Prod.snd (Decimal.spanDigits_append hwhole hafter)
  dsimp only [Decimal.spanDigits] at hdrop
  unfold scanNumber
  rw [hsplit]
  dsimp only
  rw [htake, hdrop, hfraction, List.drop_left]
  rfl

/-- what follows the sign of a number is settled by its digits, its fraction and its exponent -/
theorem scanNumber_parts {c : Char} {negative : Bool} {rest body : List Char} {lexeme : Lexeme}
    (hsplit : Decimal.splitSign (c :: rest) = (negative, body))
    (h : scanNumber c rest = .ok lexeme) : ∃ part tail, body = part ++ tail ∧
      (part = [] → ∀ d ∈ body.head?, d.isDigit = false) ∧
      lexeme.more = (if negative then ['-'] else []).length + part.length - 1 ∧
      ∀ tail' rest', Echoes tail tail' →
        Decimal.splitSign (c :: rest') = (negative, part ++ tail') →
          scanNumber c rest' = .ok lexeme := by
  obtain ⟨whole, fraction, behind, rfl, hwhole, hafter, hfraction⟩ := exists_number_parts body
  rw [scanNumber_eq hsplit hwhole hafter (hfraction behind (.refl behind))] at h
  split at h
  · cases h
  rename_i hminus
  dsimp only at h
  split at h
  · cases h
  rename_i exponent hexponent
  obtain ⟨tail, rfl, hsettled⟩ := exponentPart_settled hexponent
  refine ⟨whole ++ (fraction ++ exponent), tail, by simp, fun hnil => ?_, ?_,
    fun tail' rest' htail hsplit' => ?_⟩
  · obtain ⟨hwhole, -⟩ := List.append_eq_nil_iff.mp hnil
    rw [hwhole]
    exact hafter
  · rw [more_numberLexeme h]
    simp only [List.length_append]
    omega
  · have hbehind := htail.append exponent
    rw [List.append_assoc, List.append_assoc] at hsplit'
    rw [scanNumber_eq hsplit' hwhole
      ((hbehind.append fraction).head isDigit_of_isSeparator hafter) (hfraction _ hbehind),
      if_neg hminus, hsettled tail' htail]
    exact h

/-- a number is settled by its sign, its digits, its fraction and its exponent -/
theorem scanNumber_settled {c : Char} (hc : c.isDigit = true ∨ c = '-') {rest : List Char}
    {lexeme : Lexeme} (h : scanNumber c rest = .ok lexeme) :
    Settled (scanNumber c) rest lexeme.more lexeme := by
  by_cases hminus : c = '-'
  · subst hminus
    have hsplit (rest : List Char) : Decimal.splitSign ('-' :: rest) = (true, rest) := rfl
    obtain ⟨part, tail, rfl, -, hmore, hread⟩ := scanNumber_parts (hsplit rest) h
    refine ⟨part, tail, rfl, ?_, fun tail' htail => hread tail' _ htail (hsplit _)⟩
    rw [hmore, if_pos rfl, List.length_singleton, Nat.add_sub_cancel_left]
  · have hdigit := hc.resolve_right hminus
    have hsplit := Decimal.splitSign_of_isDigit hdigit
    obtain ⟨part, tail, hbody, hne, hmore, hread⟩ := scanNumber_parts (hsplit rest) h
    cases part with
    | nil => exact absurd hdigit (by rw [hne rfl c rfl]; exact Bool.false_ne_true)
    | cons c' part =>
      obtain ⟨rfl, rfl⟩ := List.cons.inj hbody
      refine ⟨part, tail, rfl, ?_, fun tail' htail => hread tail' _ htail (hsplit _)⟩
      rw [hmore, List.length_cons]
      show _ = 0 + _ - 1
      omega

/-! ### lexemes -/

/-- **A lexeme is settled by its characters,** as long as what stands behind it is echoed. -/
theorem scan_settled {c : Char} {rest : List Char} {lexeme : Lexeme}
    (h : scan c rest = .ok lexeme) : Settled (scan c) rest lexeme.more lexeme := by
  by_cases hquote : c = '\'' ∨ c = '"'
  · have hscan : scan c = scanText c := funext fun _ => if_pos hquote
    rw [hscan] at h ⊢
    exact (scanText_fixed h).settled
  by_cases hnumber : c.isDigit ∨ c = '-'
  · rw [(scan_number hnumber rest).2] at h
    have hscan : scan c = scanNumber c := funext fun rest => (scan_number hnumber rest).2
    rw [hscan]
    exact scanNumber_settled hnumber h
  unfold scan at h
  rw [if_neg hquote, if_neg hnumber] at h
  have symbol {kind : Kind} (hkind : punctuation? c = some kind) :
      Settled (scan c) rest 0 ⟨kind, 0⟩ :=
    ⟨[], rest, rfl, rfl, fun tail' _ => scan_punctuation hkind tail'⟩
  split_ifs at h with hoperator hroot hgoes hdot hstart
  · have hscan : scan c = fun rest => scanOperator c rest.head? := by
      funext rest
      rw [scan, if_neg hquote, if_neg hnumber, if_pos hoperator]
    rw [hscan]
    exact scanOperator_settled h
  · cases h
    subst hroot
    exact scan_word_settled (by decide) fun _ => hgoes
  · cases h
    subst hroot
    refine ⟨[], rest, rfl, rfl, fun tail' htail => ?_⟩
    have htail' := goesOn_eq_false.mpr (htail.head isNamePart_of_isSeparator
      (goesOn_eq_false.mp (Bool.eq_false_iff.mpr hgoes)))
    show (if goesOn tail' then _ else _) = _
    rw [htail']
    rfl
  · subst hdot
    exact scanDots_settled h
  · split at h
    · rename_i kind hkind
      cases h
      exact symbol hkind
    · cases h
      exact scan_word_settled hstart fun e => absurd e hroot
  · split at h <;> cases h
    rename_i kind hkind
    exact symbol hkind

end PathQuery.Token
