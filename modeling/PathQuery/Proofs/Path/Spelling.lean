import PathQuery.Path.Printer
import PathQuery.Proofs.Filter.Spelling

/-!
# The tokens of paths

* `Path.isPrintable`   the paths whose canonical text can be read back;
* `Path.kinds`         the tokens of the canonical text of a path;
* `Path.lex_text`      that text is read as these tokens.
-/

namespace PathQuery
open Token

def Slice.isPrintable (s : Slice) : Bool :=
  s.start.all inIntegerRange && (s.stop.all inIntegerRange && s.step.all inIntegerRange)

def integerKinds (n : Option Int) : List Kind := (n.map fun n => [Kind.integer n]).getD []

def Slice.kinds (s : Slice) : List Kind :=
  .openBracket :: integerKinds s.start ++ .colon :: integerKinds s.stop
    ++ (s.step.map fun n => [Kind.colon, Kind.integer n]).getD [] ++ [.closeBracket]

/-- the token of a name after the two dots that search for it -/
def soughtKind (name : String) : Kind :=
  if isPlainName name then wordKind name else .text name

namespace Step

/-- all integers and literals can be written, and all names of a host are identifiers -/
def isPrintable : Step → Bool
  | index i => inIntegerRange i
  | slice s => s.isPrintable
  | filter f => f.isPrintable
  | _ => true

/-- the tokens of the canonical text of a step -/
def kinds : Step → List Kind
  | root => []
  | property name => memberKinds name
  | index i => [.openBracket, .integer i, .closeBracket]
  | wildcard => [.openBracket, .star, .closeBracket]
  | descendants none => [.dots, .star]
  | descendants (some name) => [.dots, soughtKind name]
  | slice s => s.kinds
  | filter f => .openBracket :: .question :: .openParen :: f.kinds ++ [.closeParen, .closeBracket]

end Step

namespace Path

/-- all steps can be written, and none but the first leads back to the document -/
def isPrintable (p : Path) : Bool :=
  p.steps.all Step.isPrintable && p.steps.tail.all fun step => !step.isRoot

/-- the tokens of the canonical text of a path -/
def kinds (p : Path) : List Kind := .root :: p.steps.flatMap Step.kinds

end Path

/-! ## steps -/

theorem spells_optionalInteger {n : Option Int} (h : n.all inIntegerRange = true)
    {rest : List Char} (hrest : Closes rest) :
    Spells ((n.map Decimal.intChars).getD []) rest (integerKinds n) := by
  cases n with
  | none => exact Spells.nil rest
  | some n => exact spells_integer h hrest

theorem Slice.spells_chars {s : Slice} (h : s.isPrintable = true) (rest : List Char) :
    Spells s.chars rest s.kinds := by
  rw [isPrintable, Bool.and_eq_true, Bool.and_eq_true] at h
  obtain ⟨hstart, hstop, hstep⟩ := h
  obtain ⟨start, stop, step⟩ := s
  have hopen {rest : List Char} := (spells_punctuation (c := '[') rfl _).append
    (spells_optionalInteger hstart (closes_cons (c := ':') (by decide) rest))
  have hclose := spells_punctuation (c := ']') rfl rest
  have hcloses : Closes ([']'] ++ rest) := closes_cons (by decide) rest
  have hcolon {rest : List Char} (h : Closes rest) :=
    (spells_punctuation (c := ':') rfl _).append (spells_optionalInteger hstop h)
  cases step with
  | none =>
    exact (hopen.append (hcolon hcloses)).append_nil.append hclose
  | some n =>
    have hn := (spells_punctuation (c := ':') rfl _).append (spells_integer hstep hcloses)
    have hstep : Closes ((':' :: Decimal.intChars n) ++ ([']'] ++ rest)) :=
      closes_cons (by decide) _
    exact ((hopen.append (hcolon hstep)).append hn).append hclose

theorem spells_sought (name : String) {rest : List Char} (hrest : Breaks rest) :
    Spells (soughtChars name) rest [soughtKind name] := by
  unfold soughtChars soughtKind
  by_cases h : isPlainName name = true
  · rw [if_pos h, if_pos h]
    exact spells_name h hrest
  · rw [if_neg h, if_neg h]
    exact spells_quoted name rest

theorem soughtChars_ne_dot (name : String) (rest : List Char) :
    ∀ c ∈ (soughtChars name ++ rest).head?, c ≠ '.' := by
  unfold soughtChars
  by_cases h : isPlainName name = true
  · rw [if_pos h]
    exact isPlainName_ne_dot h rest
  · rw [if_neg h]
    intro c hc
    cases hc
    decide

namespace Step

theorem spells_chars {step : Step} (h : step.isPrintable = true) {rest : List Char}
    (hrest : Breaks rest) : Spells step.chars rest step.kinds := by
  have hopen {rest : List Char} := spells_punctuation (c := '[') rfl rest
  have hclose := spells_punctuation (c := ']') rfl rest
  cases step with
  | root => exact Spells.nil rest
  | property name => exact spells_member name hrest
  | index i =>
    have hi := spells_integer h (closes_cons (c := ']') (by decide) rest)
    exact (hopen.append hi).append hclose
  | wildcard => exact (hopen.append (spells_punctuation (c := '*') rfl _)).append hclose
  | descendants name =>
    cases name with
    | none =>
      refine (spells_dots ?_).append (spells_punctuation (c := '*') rfl rest)
      intro c hc
      cases hc
      decide
    | some name => exact (spells_dots (soughtChars_ne_dot name rest)).append (spells_sought name hrest)
  | slice s => exact s.spells_chars h rest
  | filter f =>
    have hend := (spells_punctuation (c := ')') rfl _).append hclose
    have hf := f.spells_chars h (closes_cons (c := ')') (by decide) (']' :: rest))
    have hstart := (spells_punctuation (c := '(') rfl _).append hf
    exact (hopen.append ((spells_punctuation (c := '?') rfl _).append hstart)).append hend

theorem chars_breaks (step : Step) {rest : List Char} (hrest : Breaks rest) :
    Breaks (step.chars ++ rest) := by
  cases step with
  | root => exact hrest
  | property name => exact memberChars_breaks name rest
  | index i => exact breaks_cons (by decide) _
  | wildcard => exact breaks_cons (by decide) _
  | descendants name => cases name <;> exact breaks_cons (by decide) _
  | slice s => exact breaks_cons (by decide) _
  | filter f => exact breaks_cons (by decide) _

theorem flatMap_chars_breaks (steps : List Step) : Breaks (steps.flatMap Step.chars) := by
  induction steps with
  | nil => intro c hc; cases hc
  | cons step steps ih =>
    rw [List.flatMap_cons]
    exact step.chars_breaks ih

theorem spells_flatMap {steps : List Step} (h : steps.all Step.isPrintable = true) :
    Spells (steps.flatMap Step.chars) [] (steps.flatMap Step.kinds) := by
  induction steps with
  | nil => exact Spells.nil []
  | cons step steps ih =>
    rw [List.all_cons, Bool.and_eq_true] at h
    rw [List.flatMap_cons, List.flatMap_cons]
    refine (spells_chars h.1 ?_).append (ih h.2)
    rw [List.append_nil]
    exact flatMap_chars_breaks steps

end Step

/-- **The canonical text of a path is read as its tokens.** -/
theorem Path.lex_text {p : Path} (h : p.isPrintable = true) :
    ∃ tokens : List Token, tokens.map Token.kind = p.kinds ++ [.eof] ∧ lex p.text = .ok tokens := by
  rw [isPrintable, Bool.and_eq_true] at h
  have hroot : Spells ['$'] (p.steps.flatMap Step.chars ++ []) [.root] := by
    refine spells_root ?_
    rw [List.append_nil]
    exact Step.flatMap_chars_breaks p.steps
  have hlex := (hroot.append (Step.spells_flatMap h.1)).lexFrom_eq 0
  have htext : p.text.toList = p.chars := String.toList_ofList
  unfold lex
  rw [htext]
  exact hlex

end PathQuery
