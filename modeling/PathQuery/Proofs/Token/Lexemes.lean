import PathQuery.Proofs.Token.Strict

/-!
# Lexemes and the white space between them

A text that can be read is a row of lexemes with white space in front of each and at the end. No
character of a lexeme is dropped or read twice, and the white space does nothing but separate: the
lexemes can be set at other distances, as long as those that were apart stay apart.

* `Piece`, `spread`    lexemes with the white space in front of them, and the text they make up;
* `tokensAt`           the tokens of such a text;
* `Cut`                pieces that are read one by one;
* `lexFrom_eq_ok`      the texts that can be read are those that are cut into pieces;
* `Cut.respaced`       pieces are also read at other distances;
* `lex_cuts`           all this for whole texts.
-/

namespace PathQuery

def PathError.IsLex (e : PathError) : Prop := ∃ fault c position, e = .lex fault c position

namespace Token

/-! ## pieces -/

def IsBlank (cs : List Char) : Prop := ∀ c ∈ cs, isSeparator c = true

theorem isBlank_nil : IsBlank [] := List.forall_mem_nil _

/-- a lexeme of some kind and the white space in front of it -/
structure Piece where
  gap : List Char
  lexeme : List Char
  kind : Kind

/-- the text of some pieces and what stands behind them -/
def spread (pieces : List Piece) (finish : List Char) : List Char :=
  pieces.flatMap (fun p => p.gap ++ p.lexeme) ++ finish

/-- the tokens of a text that starts at `position`: each lexeme is one, and the end is one -/
def tokensAt (position : ℕ) : List Piece → List Char → List Token
  | [], finish => [⟨.eof, position + finish.length⟩]
  | p :: ps, finish =>
    ⟨p.kind, position + p.gap.length⟩
      :: tokensAt (position + p.gap.length + p.lexeme.length) ps finish

/-- by itself, the lexeme of a piece is one token -/
def Piece.IsAlone (p : Piece) : Prop :=
  ∃ tokens, lex (String.ofList p.lexeme) = .ok tokens ∧ tokens.map Token.kind = [p.kind, .eof]

/-- the same lexemes, each with some white space in front of it -/
def SameLexemes (pieces pieces' : List Piece) : Prop :=
  List.Forall₂ (fun p p' => p'.lexeme = p.lexeme ∧ p'.kind = p.kind ∧ IsBlank p'.gap) pieces pieces'

def StayApart (pieces pieces' : List Piece) : Prop :=
  List.Forall₂ (fun p p' => p.gap ≠ [] → p'.gap ≠ []) pieces pieces'

theorem spread_cons (p : Piece) (ps : List Piece) (finish : List Char) :
    spread (p :: ps) finish = p.gap ++ (p.lexeme ++ spread ps finish) := by
  rw [spread, spread, List.flatMap_cons, List.append_assoc, List.append_assoc]

theorem spread_append (ps qs : List Piece) (finish : List Char) :
    spread (ps ++ qs) finish = spread ps [] ++ spread qs finish := by
  rw [spread, spread, spread, List.flatMap_append, List.append_nil, List.append_assoc]

theorem length_tokensAt (position : ℕ) (pieces : List Piece) (finish : List Char) :
    (tokensAt position pieces finish).length = pieces.length + 1 := by
  induction pieces generalizing position with
  | nil => rfl
  | cons p ps ih => rw [tokensAt, List.length_cons, ih, List.length_cons]

theorem tokensAt_left (position : ℕ) (ps qs : List Piece) (finish : List Char) :
    ∃ position', tokensAt position ps []
      = (tokensAt position (ps ++ qs) finish).take ps.length ++ [⟨.eof, position'⟩] := by
  induction ps generalizing position with
  | nil => exact ⟨position, rfl⟩
  | cons p ps ih =>
    obtain ⟨position', hfirst⟩ := ih (position + p.gap.length + p.lexeme.length)
    exact ⟨position', congrArg (_ :: ·) hfirst⟩

theorem getLast_tokensAt (position : ℕ) (pieces : List Piece) (finish : List Char) :
    (tokensAt position pieces finish).getLast?
      = some ⟨.eof, position + (spread pieces finish).length⟩ := by
  induction pieces generalizing position with
  | nil => rfl
  | cons p ps ih =>
    rw [tokensAt, List.getLast?_cons, ih, spread_cons, List.length_append, List.length_append,
      Option.getD_some, Nat.add_assoc, Nat.add_assoc]

theorem kinds_tokensAt (position : ℕ) (pieces : List Piece) (finish : List Char) :
    (tokensAt position pieces finish).map Token.kind = pieces.map Piece.kind ++ [.eof] := by
  induction pieces generalizing position with
  | nil => rfl
  | cons p ps ih =>
    rw [tokensAt, List.map_cons, ih]
    rfl

theorem SameLexemes.kinds {pieces pieces' : List Piece} (h : SameLexemes pieces pieces') :
    pieces'.map Piece.kind = pieces.map Piece.kind := by
  induction h with
  | nil => rfl
  | cons hp _ ih => rw [List.map_cons, List.map_cons, hp.2.1, ih]

/-! ## reading pieces -/

/-- in front of `rest`, the lexeme of a piece is read as what it is -/
def Piece.Scans (p : Piece) (rest : List Char) : Prop :=
  ∃ c more, p.lexeme = c :: more ∧ isSeparator c = false ∧
    scan c (more ++ rest) = .ok ⟨p.kind, more.length⟩

/-- pieces that are read one by one -/
def Cut : List Piece → List Char → Prop
  | [], finish => IsBlank finish
  | p :: ps, finish => IsBlank p.gap ∧ p.Scans (spread ps finish) ∧ Cut ps finish

/-- a lexeme is read in the same way in front of whatever echoes the text behind it -/
theorem Piece.Scans.echoed {p : Piece} {rest rest' : List Char} (h : p.Scans rest)
    (hecho : Echoes rest rest') : p.Scans rest' := by
  obtain ⟨c, more, hlexeme, hc, hscan⟩ := h
  obtain ⟨part, tail, heq, hpart, hread⟩ := scan_settled hscan
  obtain ⟨rfl, rfl⟩ := List.append_inj heq hpart.symm
  exact ⟨c, more, hlexeme, hc, hread rest' hecho⟩

/-- the first pieces are read one by one where nothing stands behind them -/
theorem Cut.left {ps qs : List Piece} {finish : List Char} (h : Cut (ps ++ qs) finish) :
    Cut ps [] := by
  induction ps with
  | nil => exact isBlank_nil
  | cons p ps ih =>
    obtain ⟨hgap, hscans, hrest⟩ := h
    have hecho := (Echoes.stop (spread qs finish)).append (spread ps [])
    rw [← spread_append, List.append_nil] at hecho
    exact ⟨hgap, hscans.echoed hecho, ih hrest⟩

theorem lexFrom_blank {gap : List Char} (hgap : IsBlank gap) (position : ℕ) (rest : List Char) :
    lexFrom position (gap ++ rest) = lexFrom (position + gap.length) rest := by
  induction gap generalizing position with
  | nil => rfl
  | cons c gap ih =>
    obtain ⟨hc, hgap⟩ := List.forall_mem_cons.mp hgap
    rw [List.cons_append, lexFrom_separator hc, ih hgap, List.length_cons, Nat.add_assoc,
      Nat.add_comm 1]

theorem Cut.lexFrom {pieces : List Piece} {finish : List Char} (h : Cut pieces finish)
    (position : ℕ) :
    lexFrom position (spread pieces finish) = .ok (tokensAt position pieces finish) := by
  induction pieces generalizing position with
  | nil =>
    have hblank := lexFrom_blank h position []
    rw [List.append_nil] at hblank
    show Token.lexFrom position finish = _
    rw [hblank, Token.lexFrom, tokensAt]
  | cons p ps ih =>
    obtain ⟨hgap, ⟨c, more, hlexeme, hc, hscan⟩, hrest⟩ := h
    rw [spread_cons, lexFrom_blank hgap, tokensAt, hlexeme, lexFrom_lexeme hc hscan, ih hrest]
    rfl

/-- white space in front of the first piece, or at the end if there is none -/
theorem Cut.separator {c : Char} (hc : isSeparator c = true) {pieces : List Piece}
    {finish : List Char} (h : Cut pieces finish) :
    ∃ pieces' finish', c :: spread pieces finish = spread pieces' finish' ∧
      Cut pieces' finish' := by
  cases pieces with
  | nil => exact ⟨[], c :: finish, rfl, List.forall_mem_cons.mpr ⟨hc, h⟩⟩
  | cons p ps =>
    obtain ⟨hgap, hscans, hrest⟩ := h
    refine ⟨⟨c :: p.gap, p.lexeme, p.kind⟩ :: ps, finish, ?_,
      List.forall_mem_cons.mpr ⟨hc, hgap⟩, hscans, hrest⟩
    rw [spread_cons, spread_cons]
    rfl

/-- **The texts that can be read are those that are cut into pieces.** -/
theorem lexFrom_eq_ok {position : ℕ} {cs : List Char} {tokens : List Token} :
    lexFrom position cs = .ok tokens ↔ ∃ pieces finish,
      cs = spread pieces finish ∧ Cut pieces finish ∧ tokens = tokensAt position pieces finish := by
  constructor
  · intro h
    obtain ⟨pieces, finish, rfl, hcut⟩ : ∃ pieces finish,
        cs = spread pieces finish ∧ Cut pieces finish := by
      induction position, cs using lexFrom.induct generalizing tokens with
      | case1 position => exact ⟨[], [], rfl, isBlank_nil⟩
      | case2 position c rest hc ih =>
        rw [lexFrom_separator hc] at h
        obtain ⟨pieces, finish, rfl, hcut⟩ := ih h
        exact hcut.separator hc
      | case3 position c rest hc flaw hscan =>
        rw [lexFrom, if_neg hc, hscan] at h
        cases h
      | case4 position c rest hc lexeme hscan e hmore =>
        rw [lexFrom, if_neg hc, hscan] at h
        dsimp only at h
        rw [hmore] at h
        cases h
      | case5 position c rest hc lexeme hscan more hmore ih =>
        obtain ⟨part, tail, rfl, hpart, -⟩ := scan_settled hscan
        obtain ⟨kind, length⟩ := lexeme
        obtain rfl : part.length = length := hpart
        rw [List.drop_left] at ih hmore
        obtain ⟨pieces, finish, rfl, hcut⟩ := ih hmore
        refine ⟨⟨[], c :: part, kind⟩ :: pieces, finish, ?_, isBlank_nil,
          ⟨c, part, rfl, Bool.eq_false_iff.mpr hc, hscan⟩, hcut⟩
        rw [spread_cons]
        rfl
    rw [hcut.lexFrom] at h
    exact ⟨pieces, finish, rfl, hcut, (Except.ok.inj h).symm⟩
  · rintro ⟨pieces, finish, rfl, hcut, rfl⟩
    exact hcut.lexFrom position

/-- **The text in front of any token can be read by itself,** and has the tokens it had. -/
theorem lexFrom_before {position : ℕ} {cs : List Char} {taken rest : List Token}
    (h : lexFrom position cs = .ok (taken ++ rest)) (hrest : rest ≠ []) :
    ∃ before behind finish, cs = before ++ behind ∧
      lexFrom position before = .ok (taken ++ [⟨.eof, finish⟩]) := by
  obtain ⟨pieces, finish, rfl, hcut, htokens⟩ := lexFrom_eq_ok.mp h
  have hlength := congrArg List.length htokens
  rw [length_tokensAt, List.length_append] at hlength
  have hpos := List.length_pos_iff.mpr hrest
  have htake : (pieces.take taken.length).length = taken.length :=
    List.length_take_of_le (by omega)
  rw [← List.take_append_drop taken.length pieces] at hcut htokens ⊢
  obtain ⟨position', hfirst⟩ :=
    tokensAt_left position (pieces.take taken.length) (pieces.drop taken.length) finish
  refine ⟨_, _, position', spread_append _ _ finish, ?_⟩
  rw [hcut.left.lexFrom, hfirst, ← htokens, htake, List.take_left]

theorem lexFrom_error {position : ℕ} {cs : List Char} {e : PathError}
    (h : lexFrom position cs = .error e) : e.IsLex := by
  induction position, cs using lexFrom.induct with
  | case1 position =>
    rw [lexFrom] at h
    cases h
  | case2 position c rest hc ih =>
    rw [lexFrom_separator hc] at h
    exact ih h
  | case3 position c rest hc flaw hscan =>
    rw [lexFrom, if_neg hc, hscan] at h
    cases h
    exact ⟨_, _, _, rfl⟩
  | case4 position c rest hc lexeme hscan e' hmore ih =>
    rw [lexFrom, if_neg hc, hscan] at h
    dsimp only at h
    rw [hmore] at h
    cases h
    exact ih hmore
  | case5 position c rest hc lexeme hscan more hmore =>
    rw [lexFrom, if_neg hc, hscan] at h
    dsimp only at h
    rw [hmore] at h
    cases h

theorem Cut.finish {pieces : List Piece} {finish : List Char} (h : Cut pieces finish) :
    IsBlank finish := by
  induction pieces with
  | nil => exact h
  | cons p ps ih => exact ih h.2.2

theorem Cut.isAlone {pieces : List Piece} {finish : List Char} (h : Cut pieces finish) :
    ∀ p ∈ pieces, IsBlank p.gap ∧ p.lexeme ≠ [] ∧ p.IsAlone := by
  induction pieces with
  | nil => exact List.forall_mem_nil _
  | cons p ps ih =>
    obtain ⟨hgap, hscans, hrest⟩ := h
    refine List.forall_mem_cons.mpr ⟨⟨hgap, ?_, ?_⟩, ih hrest⟩
    · obtain ⟨c, more, hlexeme, -⟩ := hscans
      rw [hlexeme]
      exact List.cons_ne_nil c more
    · have hcut : Cut [⟨[], p.lexeme, p.kind⟩] [] :=
        ⟨isBlank_nil, hscans.echoed (.stop _), isBlank_nil⟩
      have hread := hcut.lexFrom 0
      rw [spread_cons, List.nil_append, show spread [] [] = [] from rfl, List.append_nil] at hread
      refine ⟨_, ?_, kinds_tokensAt 0 [⟨[], p.lexeme, p.kind⟩] []⟩
      rw [lex, String.toList_ofList]
      exact hread

/-! ## other distances -/

theorem Echoes.of_blank {finish : List Char} (h : IsBlank finish) (rest : List Char) :
    Echoes rest finish := by
  cases finish with
  | nil => exact .stop rest
  | cons c finish => exact .blank (h c List.mem_cons_self) rest finish

theorem StayApart.echoes {pieces pieces' : List Piece} (hsame : SameLexemes pieces pieces')
    (h : StayApart pieces pieces') {finish' : List Char} (hfinish : IsBlank finish')
    (finish : List Char) : Echoes (spread pieces finish) (spread pieces' finish') := by
  induction hsame with
  | nil => exact .of_blank hfinish finish
  | @cons p p' ps ps' hp _ ih =>
    obtain ⟨hlexeme, -, hgap'⟩ := hp
    obtain ⟨happart, hrest⟩ := List.forall₂_cons.mp h
    rw [spread_cons, spread_cons, hlexeme]
    cases hg : p'.gap with
    | nil =>
      have hgap : p.gap = [] := by
        by_contra hne
        exact happart hne hg
      rw [hgap]
      exact (ih hrest).append p.lexeme
    | cons c gap =>
      rw [hg] at hgap'
      exact .blank (hgap' c List.mem_cons_self) _ _

/-- **White space only separates:** the pieces are also read at other distances, as long as those
that were apart stay apart. -/
theorem Cut.respaced {pieces pieces' : List Piece} {finish finish' : List Char}
    (h : Cut pieces finish) (hsame : SameLexemes pieces pieces')
    (hapart : StayApart pieces.tail pieces'.tail) (hfinish : IsBlank finish') :
    Cut pieces' finish' := by
  induction hsame with
  | nil => exact hfinish
  | @cons p p' ps ps' hp hsame ih =>
    obtain ⟨hgap, hscans, hrest⟩ := h
    obtain ⟨hlexeme, hkind, hgap'⟩ := hp
    have hapart' : StayApart ps ps' := hapart
    obtain ⟨c, more, hchars, hc, hscan⟩ :=
      hscans.echoed (hapart'.echoes hsame hfinish finish)
    refine ⟨hgap', ⟨c, more, hlexeme.trans hchars, hc, ?_⟩, ih hrest ?_⟩
    · rw [hkind]
      exact hscan
    · cases hapart' with
      | nil => exact .nil
      | cons _ hbehind => exact hbehind

/-! ## whole texts -/

/-- **No character is lost, and white space only separates.** Reading a text never asks for a
character that is not there. A text that can be read is a row of lexemes with white space between
them, each of which is one token by itself and in the text stands at its first character; the last
token is the end of the text. At other distances the lexemes give the same tokens, as long as those
that were apart stay apart. -/
theorem lex_cuts (text : String) :
    Strict.lex text = some (lex text) ∧
    ∀ tokens, lex text = .ok tokens → ∃ pieces finish,
      text.toList = spread pieces finish ∧ IsBlank finish ∧
      (∀ p ∈ pieces, IsBlank p.gap ∧ p.lexeme ≠ [] ∧ p.IsAlone) ∧
      tokens = tokensAt 0 pieces finish ∧ tokens.getLast? = some ⟨.eof, text.length⟩ ∧
      ∀ pieces' finish', SameLexemes pieces pieces' → StayApart pieces.tail pieces'.tail →
        IsBlank finish' → ∃ tokens', lex (String.ofList (spread pieces' finish')) = .ok tokens' ∧
          tokens'.map Token.kind = tokens.map Token.kind := by
  refine ⟨Strict.lex_eq text, fun tokens h => ?_⟩
  obtain ⟨pieces, finish, htext, hcut, rfl⟩ := lexFrom_eq_ok.mp h
  refine ⟨pieces, finish, htext, hcut.finish, hcut.isAlone, rfl, ?_,
    fun pieces' finish' hsame hapart hfinish => ?_⟩
  · rw [getLast_tokensAt, ← htext, Nat.zero_add, String.length_toList]
  · refine ⟨tokensAt 0 pieces' finish', ?_, ?_⟩
    · rw [lex, String.toList_ofList]
      exact (hcut.respaced hsame hapart hfinish).lexFrom 0
    · rw [kinds_tokensAt, kinds_tokensAt, hsame.kinds]

/-- symbols of one and of two characters, names and a number, some apart and some not -/
theorem lex_cuts_comparison :
    let text := "$ ..a[?@.n >=\t1 ]"
    let tokens : List Token := [⟨.root, 0⟩, ⟨.dots, 2⟩, ⟨.identifier "a", 4⟩, ⟨.openBracket, 5⟩,
      ⟨.question, 6⟩, ⟨.current, 7⟩, ⟨.dot, 8⟩, ⟨.identifier "n", 9⟩,
      ⟨.operator (.comparison .greaterEq), 11⟩, ⟨.integer 1, 14⟩, ⟨.closeBracket, 16⟩, ⟨.eof, 17⟩]
    Strict.lex text = some (.ok tokens) ∧ lex text = .ok tokens ∧ ∃ pieces finish,
      text.toList = spread pieces finish ∧ tokens = tokensAt 0 pieces finish ∧
      ∀ pieces' finish', SameLexemes pieces pieces' → StayApart pieces.tail pieces'.tail →
        IsBlank finish' → ∃ tokens', lex (String.ofList (spread pieces' finish')) = .ok tokens' ∧
          tokens'.map Token.kind = tokens.map Token.kind := by
  intro text tokens
  have hlex : lex text = .ok tokens := by decide +kernel
  obtain ⟨hstrict, hcuts⟩ := lex_cuts text
  obtain ⟨pieces, finish, htext, -, -, htokens, -, hrespaced⟩ := hcuts tokens hlex
  exact ⟨hstrict.trans (congrArg some hlex), hlex, pieces, finish, htext, htokens, hrespaced⟩

end Token
end PathQuery
