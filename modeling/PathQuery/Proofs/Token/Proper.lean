import PathQuery.Proofs.Token.Spelling
import PathQuery.Proofs.Token.Reader
import PathQuery.Proofs.Filter.Spelling

/-!
# Proper tokens

What the tokens of a text hold can be written: names of identifiers are plain and no keywords,
integers are in range and floats are finite. Whatever is made of such tokens keeps to that.

* `Kind.isProper`      tokens that can be written;
* `Kind.isLexical`     those of them that stand before the end;
* `lex_proper`         all tokens of all texts can be written;
* `lex_eof`            the end of a text is its last token, and no other;
* `Reader.Gives`       what a reader gives on proper tokens, and with it a rule for each way to
                       put readers together.
-/

namespace PathQuery.Token

def Kind.isProper : Kind → Bool
  | .identifier name => isFreeName name
  | .integer n => inIntegerRange n
  | .float x => Decimal.isFinite x
  | _ => true

def Kind.isLexical : Kind → Bool
  | .eof => false
  | kind => kind.isProper

theorem Kind.isLexical_iff {kind : Kind} :
    kind.isLexical = true ↔ kind.isProper = true ∧ kind ≠ .eof := by
  cases kind with
  | eof => exact ⟨fun h => absurd h Bool.false_ne_true, fun h => absurd rfl h.2⟩
  | _ => exact ⟨fun h => ⟨h, by rintro ⟨⟩⟩, And.left⟩

/-! ## tokens of a text -/

theorem keyword_lexical {word : String} {kind : Kind} (h : keyword? word = some kind) :
    kind.isLexical = true := by
  unfold keyword? at h
  split_ifs at h <;> cases h <;> rfl

theorem isPlainName_word {c : Char} {rest : List Char} (hc : isNameStart c = true)
    (hroot : c = '$' → goesOn rest = true) :
    isPlainName (String.ofList (c :: rest.takeWhile isNamePart)) = true := by
  have hpart : (rest.takeWhile isNamePart).all isNamePart = true := List.all_takeWhile
  have hlone : (c == '$' && (rest.takeWhile isNamePart).isEmpty) = false := by
    rw [Bool.and_eq_false_iff]
    by_cases he : c = '$'
    · right
      have hgoes := hroot he
      cases rest with
      | nil => cases hgoes
      | cons d rest =>
        have hd : isNamePart d = true := hgoes
        rw [List.takeWhile_cons, if_pos hd]
        rfl
    · left
      exact beq_eq_false_iff_ne.mpr he
  unfold isPlainName
  rw [String.toList_ofList]
  dsimp only
  rw [hc, hpart, hlone]
  rfl

theorem scanWord_lexical {c : Char} {rest : List Char} (hc : isNameStart c = true)
    (hroot : c = '$' → goesOn rest = true) : (scanWord c rest).kind.isLexical = true := by
  unfold scanWord
  dsimp only
  cases hkeyword : keyword? (String.ofList (c :: rest.takeWhile isNamePart)) with
  | some kind => exact keyword_lexical hkeyword
  | none =>
    show isFreeName (String.ofList (c :: rest.takeWhile isNamePart)) = true
    rw [isFreeName_iff, isKeyword, hkeyword]
    exact ⟨isPlainName_word hc hroot, rfl⟩

theorem scanNumber_lexical {c : Char} {rest : List Char} {lexeme : Lexeme}
    (h : scanNumber c rest = .ok lexeme) : lexeme.kind.isLexical = true := by
  unfold scanNumber at h
  generalize Decimal.splitSign (c :: rest) = parts at h
  obtain ⟨negative, body⟩ := parts
  dsimp only at h
  generalize (if negative = true then ['-'] else []) = sign at h
  split at h
  · cases h
  · split at h
    · cases h
    · split at h
      · split at h
        · rename_i hrange
          cases h
          exact hrange
        · cases h
      · split at h
        · split at h
          · rename_i hfinite
            cases h
            exact hfinite
          · cases h
        · cases h

theorem scanOperator_lexical {c : Char} {next : Option Char} {lexeme : Lexeme}
    (h : scanOperator c next = .ok lexeme) : lexeme.kind.isLexical = true := by
  unfold scanOperator at h
  split_ifs at h <;> cases h <;> rfl

theorem punctuation_lexical {c : Char} {kind : Kind} (h : punctuation? c = some kind) :
    kind.isLexical = true := by
  unfold punctuation? at h
  split_ifs at h <;> cases h <;> rfl

theorem scanText_lexical {quote : Char} {rest : List Char} {lexeme : Lexeme}
    (h : scanText quote rest = .ok lexeme) : lexeme.kind.isLexical = true := by
  unfold scanText at h
  split at h <;> cases h
  rfl

theorem scanDots_lexical {rest : List Char} {lexeme : Lexeme} (h : scanDots rest = .ok lexeme) :
    lexeme.kind.isLexical = true := by
  unfold scanDots at h
  split at h <;> cases h <;> rfl

theorem scan_lexical {c : Char} {rest : List Char} {lexeme : Lexeme}
    (h : scan c rest = .ok lexeme) : lexeme.kind.isLexical = true := by
  unfold scan at h
  split_ifs at h with hquote hnumber hoperator hroot hgoes hdot hstart
  · exact scanText_lexical h
  · exact scanNumber_lexical h
  · exact scanOperator_lexical h
  · cases h
    subst hroot
    exact scanWord_lexical (by decide) fun _ => hgoes
  · cases h
    rfl
  · exact scanDots_lexical h
  · split at h <;> cases h
    · rename_i hkind
      exact punctuation_lexical hkind
    · exact scanWord_lexical hstart fun e => absurd e hroot
  · split at h <;> cases h
    rename_i hkind
    exact punctuation_lexical hkind

theorem lexFrom_kinds {cs : List Char} {position : ℕ} {tokens : List Token}
    (h : lexFrom position cs = .ok tokens) :
    ∃ kinds, tokens.map Token.kind = kinds ++ [.eof] ∧ ∀ kind ∈ kinds, kind.isLexical = true := by
  induction position, cs using lexFrom.induct generalizing tokens with
  | case1 position =>
    rw [lexFrom] at h
    cases h
    exact ⟨[], rfl, fun kind hmem => by cases hmem⟩
  | case2 position c rest hc ih =>
    rw [lexFrom, if_pos hc] at h
    exact ih h
  | case3 position c rest hc flaw hscan =>
    rw [lexFrom, if_neg hc, hscan] at h
    cases h
  | case4 position c rest hc lexeme hscan e hmore =>
    rw [lexFrom, if_neg hc, hscan] at h
    dsimp only at h
    rw [hmore] at h
    cases h
  | case5 position c rest hc lexeme hscan more hmore ih =>
    rw [lexFrom, if_neg hc, hscan] at h
    dsimp only at h
    rw [hmore] at h
    cases h
    obtain ⟨kinds, hkinds, hlexical⟩ := ih hmore
    refine ⟨lexeme.kind :: kinds, ?_, List.forall_mem_cons.mpr ⟨scan_lexical hscan, hlexical⟩⟩
    rw [List.map_cons, hkinds]
    rfl

/-- **The tokens of all texts are proper.** -/
theorem lex_proper {text : String} {tokens : List Token} (h : lex text = .ok tokens) :
    ∀ t ∈ tokens, t.kind.isProper = true := by
  obtain ⟨kinds, hkinds, hlexical⟩ := lexFrom_kinds h
  intro t ht
  have hmem : t.kind ∈ kinds ++ [.eof] := hkinds ▸ List.mem_map_of_mem ht
  rcases List.mem_append.mp hmem with hmem | hmem
  · exact (Kind.isLexical_iff.mp (hlexical _ hmem)).1
  · rw [List.mem_singleton.mp hmem]
    rfl

theorem lex_eof {text : String} {tokens : List Token} (h : lex text = .ok tokens) :
    ∃ kinds, tokens.map Token.kind = kinds ++ [.eof] ∧ Kind.eof ∉ kinds := by
  obtain ⟨kinds, hkinds, hlexical⟩ := lexFrom_kinds h
  exact ⟨kinds, hkinds, fun hmem => (Kind.isLexical_iff.mp (hlexical _ hmem)).2 rfl⟩

/-! ## readers on proper tokens -/

def AllProper (tokens : List Token) : Prop := ∀ t ∈ tokens, t.kind.isProper = true

theorem AllProper.tail {tokens : List Token} (h : AllProper tokens) : AllProper tokens.tail :=
  fun t ht => h t (List.mem_of_mem_tail ht)

/-- what a reader gives on proper tokens has a property, and leaves proper tokens -/
def Reader.Gives {α : Type} (P : α → Prop) (r : Reader α) : Prop :=
  ∀ ⦃tokens : List Token⦄ ⦃a : α⦄ ⦃rest : List Token⦄, AllProper tokens → r tokens = .ok a rest →
    P a ∧ AllProper rest

namespace Reader.Gives

variable {α β : Type} {P : α → Prop} {Q : β → Prop} {r : Reader α}

theorem pure {a : α} (h : P a) : Gives P (Pure.pure a : Reader α) := by
  intro tokens a' rest hproper hread
  cases hread
  exact ⟨h, hproper⟩

theorem bind {k : α → Reader β} (hr : Gives P r) (hk : ∀ a, P a → Gives Q (k a)) :
    Gives Q (r >>= k) := by
  intro tokens b rest hproper hread
  cases h : r tokens with
  | error e more =>
    rw [bind_error h] at hread
    cases hread
  | ok a more =>
    rw [bind_ok h] at hread
    obtain ⟨ha, hmore⟩ := hr hproper h
    exact hk a ha hmore hread

theorem map {g : α → β} (hr : Gives P r) (hg : ∀ a, P a → Q (g a)) : Gives Q (g <$> r) := by
  intro tokens b rest hproper hread
  cases h : r tokens with
  | error e more =>
    rw [map_error h] at hread
    cases hread
  | ok a more =>
    rw [map_ok h] at hread
    cases hread
    obtain ⟨ha, hmore⟩ := hr hproper h
    exact ⟨hg a ha, hmore⟩

theorem throw (e : PathError) : Gives P (MonadExcept.throw e : Reader α) := by
  intro tokens a rest _ hread
  cases hread

theorem refuse (fault : ParseFault) (token : Token) : Gives P (refuse fault token) := throw _

theorem tries {r : ℕ → Reader α} (h : ∀ n, Gives P (r n)) :
    Gives P fun tokens => r tokens.length tokens :=
  fun tokens _ _ hproper hread => h tokens.length hproper hread

theorem front : Gives (fun t? => ∀ t ∈ t?, t.kind.isProper = true) front? := by
  intro tokens t? rest hproper hread
  cases hread
  exact ⟨fun t ht => hproper t (List.mem_of_mem_head? ht), hproper⟩

theorem kind : Gives (fun _ => True) kind? := by
  intro tokens k? rest hproper hread
  cases hread
  exact ⟨trivial, hproper⟩

theorem skip : Gives (fun _ => True) skip := by
  intro tokens a rest hproper hread
  cases hread
  exact ⟨trivial, hproper.tail⟩

theorem next (finish : ℕ) : Gives (fun t => t.kind.isProper = true) (next finish) := by
  intro tokens t rest hproper hread
  cases tokens with
  | nil => cases hread
  | cons t' rest' =>
    cases hread
    exact ⟨hproper t List.mem_cons_self, hproper.tail⟩

theorem expect (finish : ℕ) (fault : String → ParseFault) (k : Kind) :
    Gives (fun _ => True) (expect finish fault k) := by
  refine (next finish).bind fun t _ => ?_
  split
  · exact pure trivial
  · exact refuse _ _

theorem skipIf (k : Kind) : Gives (fun _ => True) (skipIf k) := by
  intro tokens a rest hproper hread
  refine ⟨trivial, ?_⟩
  unfold Reader.skipIf at hread
  cases tokens with
  | nil =>
    cases hread
    exact hproper
  | cons t tokens =>
    dsimp only at hread
    split at hread
    · cases hread
      exact hproper.tail
    · cases hread
      exact hproper

theorem repeated {step : Reader (Option α)} (h : Gives (fun _ => True) step) :
    Gives (fun _ => True) (repeated step) := by
  refine tries (r := repeatedUpTo step) fun n => ?_
  induction n with
  | zero => exact pure trivial
  | succ n ih =>
    refine h.bind fun a? _ => ?_
    cases a? with
    | none => exact pure trivial
    | some a => exact ih.map fun _ _ => trivial

end Reader.Gives
end PathQuery.Token
