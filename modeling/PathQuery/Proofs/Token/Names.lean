import PathQuery.Proofs.Token.Proper
import PathQuery.Proofs.Token.Texts

/-!
# Names that are words

Only a lexeme that starts like a name is a word, and it is the word that it is written as. So a
text is one word, with nothing around it, just if it is a plain name, and this word is an
identifier unless it is one of the keywords.

* `scan_word`                   the lexemes that are words;
* `lex_name`                    a plain name is one token, its own word;
* `isPlainName_of_mem_lex`      the words of a text are plain names;
* `isPlainName_iff_one_word`    both together, with what kind of token it is.
-/

namespace PathQuery.Token

/-! ## lexemes that are no words -/

section
variable {c : Char} {rest : List Char} {lexeme : Lexeme}

theorem scanText_wordless (h : scanText c rest = .ok lexeme) : lexeme.kind.word? = none := by
  unfold scanText at h
  split at h <;> cases h
  rfl

theorem numberLexeme_wordless {isInteger : Bool} {cs : List Char}
    (h : numberLexeme c isInteger cs = .ok lexeme) : lexeme.kind.word? = none := by
  unfold numberLexeme at h
  split at h
  · split at h <;> cases h
    rfl
  · split at h
    · split at h <;> cases h
      rfl
    · cases h

theorem scanNumber_wordless (h : scanNumber c rest = .ok lexeme) : lexeme.kind.word? = none := by
  obtain ⟨negative, body, hsplit⟩ : ∃ negative body,
    Decimal.splitSign (c :: rest) = (negative, body) := ⟨_, _, rfl⟩
  obtain ⟨whole, fraction, behind, rfl, hwhole, hafter, hfraction⟩ := exists_number_parts body
  rw [scanNumber_eq hsplit hwhole hafter (hfraction behind (.refl behind))] at h
  split at h
  · cases h
  dsimp only at h
  split at h
  · cases h
  · exact numberLexeme_wordless h

theorem scanOperator_wordless {next : Option Char} (h : scanOperator c next = .ok lexeme) :
    lexeme.kind.word? = none := by
  unfold scanOperator at h
  split_ifs at h <;> cases h <;> rfl

theorem scanDots_wordless (h : scanDots rest = .ok lexeme) : lexeme.kind.word? = none := by
  unfold scanDots at h
  split at h <;> cases h <;> rfl

theorem punctuation_wordless {kind : Kind} (h : punctuation? c = some kind) :
    kind.word? = none := by
  rcases punctuation_cases h with rfl | rfl | rfl | rfl | rfl | rfl | rfl | rfl | rfl <;>
    (cases h; rfl)

/-! ## words -/

/-- **A lexeme that is a word starts like a name,** and is read as far as a name goes. -/
theorem scan_word {word : String} (h : scan c rest = .ok lexeme)
    (hword : lexeme.kind.word? = some word) :
    isNameStart c = true ∧ (c = '$' → goesOn rest = true) ∧ lexeme = scanWord c rest := by
  have wordless (hnone : lexeme.kind.word? = none) : False := by
    rw [hnone] at hword
    cases hword
  unfold scan at h
  split_ifs at h with hquote hnumber hoperator hroot hgoes hdot hstart
  · exact (wordless (scanText_wordless h)).elim
  · exact (wordless (scanNumber_wordless h)).elim
  · exact (wordless (scanOperator_wordless h)).elim
  · cases h
    subst hroot
    exact ⟨by decide, fun _ => hgoes, rfl⟩
  · cases h
    cases hword
  · exact (wordless (scanDots_wordless h)).elim
  · split at h <;> cases h
    · rename_i hkind
      exact (wordless (punctuation_wordless hkind)).elim
    · exact ⟨hstart, fun e => absurd e hroot, rfl⟩
  · split at h <;> cases h
    rename_i hkind
    exact (wordless (punctuation_wordless hkind)).elim

/-- the word of such a lexeme is that of the characters that are read -/
theorem word_scanWord (c : Char) (rest : List Char) :
    (scanWord c rest).kind.word? = some (String.ofList (c :: rest.takeWhile isNamePart)) :=
  word_wordKind _

/-- **Words are plain names.** -/
theorem isPlainName_of_scan {word : String} (h : scan c rest = .ok lexeme)
    (hword : lexeme.kind.word? = some word) : isPlainName word = true := by
  obtain ⟨hc, hroot, rfl⟩ := scan_word h hword
  rw [word_scanWord] at hword
  rw [← Option.some.inj hword]
  exact isPlainName_word hc hroot

end

/-! ## whole texts -/

theorem lex_name {name : String} (h : isPlainName name = true) : ∃ token last,
    lex name = .ok [token, last] ∧ token.kind = wordKind name ∧ last.kind = .eof := by
  have hend : Breaks [] := by
    intro c hc
    cases hc
  obtain ⟨tokens, hkinds, hread⟩ := (spells_name h hend).lexFrom_eq 0
  obtain ⟨token, more, rfl, htoken, hmore⟩ := List.map_eq_cons_iff.mp hkinds
  obtain ⟨last, rest, rfl, hlast, hrest⟩ := List.map_eq_cons_iff.mp hmore
  obtain rfl := List.map_eq_nil_iff.mp hrest
  exact ⟨token, last, hread, htoken, hlast⟩

/-- wherever a text has a word as a token, that word is a plain name -/
theorem isPlainName_of_mem_lex {text : String} {tokens : List Token} (h : lex text = .ok tokens)
    {token : Token} (htoken : token ∈ tokens) {word : String}
    (hword : token.kind.word? = some word) : isPlainName word = true := by
  obtain ⟨pieces, finish, -, hcut, rfl⟩ := lexFrom_eq_ok.mp h
  have hne : token.kind ≠ .eof := by
    intro heof
    rw [heof] at hword
    cases hword
  obtain ⟨-, c, rest, n, -, -, hscan⟩ := hcut.mem htoken hne
  exact isPlainName_of_scan hscan hword

/-- the token of a word is an identifier unless the word is a keyword -/
theorem wordKind_identifier (name : String) :
    (∃ n, wordKind name = .identifier n) ↔ isKeyword name = false := by
  constructor
  · rintro ⟨n, h⟩
    rw [isKeyword, Option.isSome_eq_false_iff, Option.isNone_iff_eq_none]
    cases hkeyword : keyword? name with
    | none => rfl
    | some kind =>
      rw [wordKind, hkeyword, Option.getD_some] at h
      unfold keyword? at hkeyword
      split_ifs at hkeyword <;> cases hkeyword <;> cases h
  · exact fun h => ⟨name, wordKind_of_not_keyword h⟩

/-- **Plain names are the texts that are one word.** A name is plain just if it is read as exactly
one token in front of the end, and this token stands for the name itself. Then the token is an
identifier just if the name is not a keyword. -/
theorem isPlainName_iff_one_word (name : String) :
    (isPlainName name = true ↔ ∃ token last, lex name = .ok [token, last] ∧
      last.kind = .eof ∧ token.kind.word? = some name) ∧
    ∀ token last, lex name = .ok [token, last] → token.kind.word? = some name →
      ((∃ n, token.kind = .identifier n) ↔ isKeyword name = false) := by
  refine ⟨⟨fun h => ?_, ?_⟩, fun token last hlex hword => ?_⟩
  · obtain ⟨token, last, hlex, htoken, hlast⟩ := lex_name h
    exact ⟨token, last, hlex, hlast, by rw [htoken, word_wordKind]⟩
  · rintro ⟨token, last, hlex, -, hword⟩
    exact isPlainName_of_mem_lex hlex List.mem_cons_self hword
  · have hplain := isPlainName_of_mem_lex hlex List.mem_cons_self hword
    obtain ⟨token', last', hlex', htoken, -⟩ := lex_name hplain
    obtain ⟨rfl, -⟩ := List.cons.inj (Except.ok.inj (hlex.symm.trans hlex'))
    rw [htoken]
    exact wordKind_identifier name

/-- a word of two signs that are the root by themselves, and a keyword -/
theorem isPlainName_iff_one_word_roots :
    (isPlainName "$$" = true ∧
      lex "$$" = .ok [⟨.identifier "$$", 0⟩, ⟨.eof, 2⟩] ∧ isKeyword "$$" = false) ∧
    lex "null" = .ok [⟨.null, 0⟩, ⟨.eof, 4⟩] ∧ isKeyword "null" ≠ false := by
  have hroots : lex "$$" = .ok [⟨.identifier "$$", 0⟩, ⟨.eof, 2⟩] := by decide +kernel
  have hnull : lex "null" = .ok [⟨.null, 0⟩, ⟨.eof, 4⟩] := by decide +kernel
  obtain ⟨hplain, hkeyword⟩ := isPlainName_iff_one_word "$$"
  obtain ⟨-, hkeyword'⟩ := isPlainName_iff_one_word "null"
  refine ⟨⟨hplain.mpr ⟨_, _, hroots, rfl, rfl⟩, hroots, (hkeyword _ _ hroots rfl).mp ⟨_, rfl⟩⟩,
    hnull, fun hfalse => ?_⟩
  obtain ⟨n, hn⟩ := (hkeyword' _ _ hnull rfl).mpr hfalse
  cases hn

end PathQuery.Token
