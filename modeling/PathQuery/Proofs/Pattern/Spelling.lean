import PathQuery.Pattern.Guard
import PathQuery.Proofs.Pattern.Repetition
import Mathlib.Data.List.TakeWhile

/-!
# The characters of items

Outside the verbose mode every reader takes its characters from the front and leaves the others as
they are.

* `Code`             what can stand behind the letter of an escape;
* `readEscape_eq`    the characters of an escape;
* `readCounted_eq`   those of a quantifier in braces;
* `readOpening_eq`   those behind the parenthesis that begins a group;
* `readBracket_eq`   those of a set in brackets, and where the first closing bracket is.
-/

namespace PathQuery.Pattern

variable {m : Mode}

theorem Mode.skip_eq (hm : m.verbose = false) (cs : List Char) : m.skip cs = cs := by
  unfold Mode.skip
  rw [hm]
  rfl

/-! ## escapes -/

/-- what can stand behind the letter of an escape: codes and names, in braces or without -/
inductive Code : List Char → Prop
  | bare {ds : List Char} (h : ∀ d ∈ ds, isPropertyPart d = true) : Code ds
  | braced {ds : List Char} (h : ∀ d ∈ ds, isPropertyPart d = true) :
    Code ('\x7b' :: (ds ++ ['\x7d']))

theorem isPropertyPart_of_alphanum {c : Char} (h : c.isAlphanum = true) :
    isPropertyPart c = true := by
  rw [isPropertyPart, h]
  rfl

theorem isPropertyPart_of_hexValue {c : Char} {d : Nat} (h : hexValue? c = some d) :
    isPropertyPart c = true := by
  have lower (hc : 'a' ≤ c ∧ c ≤ 'f') : c.isLower = true :=
    Bool.and_eq_true_iff.mpr ⟨decide_eq_true hc.1,
      decide_eq_true (UInt32.le_trans hc.2 (by decide))⟩
  have upper (hc : 'A' ≤ c ∧ c ≤ 'F') : c.isUpper = true :=
    decide_eq_true ⟨hc.1, UInt32.le_trans hc.2 (by decide)⟩
  unfold hexValue? at h
  refine isPropertyPart_of_alphanum ?_
  unfold Char.isAlphanum Char.isAlpha
  split at h
  · rename_i hc
    simp [hc]
  · split at h
    · rename_i hc
      simp [lower hc]
    · split at h
      · rename_i hc
        simp [upper hc]
      · cases h

theorem readHexDigits_eq (hm : m.verbose = false) {count value n : Nat} {cs rest : List Char}
    (h : readHexDigits m count value cs = some (n, rest)) :
    ∃ ds, cs = ds ++ rest ∧ ∀ d ∈ ds, isPropertyPart d = true := by
  induction count generalizing value cs with
  | zero =>
    cases h
    exact ⟨[], rfl, fun d hd => by cases hd⟩
  | succ count ih =>
    unfold readHexDigits at h
    rw [Mode.skip_eq hm] at h
    cases cs with
    | nil => cases h
    | cons c cs =>
      obtain ⟨d, hd, h⟩ := Option.bind_eq_some_iff.mp h
      obtain ⟨ds, rfl, hds⟩ := ih h
      exact ⟨c :: ds, rfl, List.forall_mem_cons.mpr ⟨isPropertyPart_of_hexValue hd, hds⟩⟩

theorem readBraced_eq (hm : m.verbose = false) {tries n : Nat} {value : Option Nat}
    {cs rest : List Char} (h : readBraced m tries value cs = some (n, rest)) :
    ∃ ds, cs = ds ++ '\x7d' :: rest ∧ ∀ d ∈ ds, isPropertyPart d = true := by
  induction tries generalizing value cs with
  | zero => cases h
  | succ tries ih =>
    unfold readBraced at h
    rw [Mode.skip_eq hm] at h
    split at h
    · cases h
    · obtain ⟨k, _, h⟩ := Option.map_eq_some_iff.mp h
      cases h
      exact ⟨[], rfl, fun d hd => by cases hd⟩
    · rename_i c cs _
      obtain ⟨d, hd, h⟩ := Option.bind_eq_some_iff.mp h
      obtain ⟨ds, rfl, hds⟩ := ih h
      exact ⟨c :: ds, rfl, List.forall_mem_cons.mpr ⟨isPropertyPart_of_hexValue hd, hds⟩⟩

theorem readCode_eq (hm : m.verbose = false) {count : Nat} {cs rest : List Char} {e : Escape}
    (h : readCode m count cs = some (e, rest)) : ∃ tail, cs = tail ++ rest ∧ Code tail := by
  unfold readCode at h
  rw [Mode.skip_eq hm] at h
  split at h
  · obtain ⟨⟨n, rest'⟩, hread, h⟩ := Option.bind_eq_some_iff.mp h
    obtain ⟨c, _, h⟩ := Option.bind_eq_some_iff.mp h
    cases h
    obtain ⟨ds, rfl, hds⟩ := readBraced_eq hm hread
    exact ⟨_, by simp, .braced hds⟩
  · obtain ⟨⟨n, rest'⟩, hread, h⟩ := Option.bind_eq_some_iff.mp h
    obtain ⟨c, _, h⟩ := Option.bind_eq_some_iff.mp h
    cases h
    obtain ⟨ds, rfl, hds⟩ := readHexDigits_eq hm hread
    exact ⟨ds, rfl, .bare hds⟩

theorem readEdgeName_eq (hm : m.verbose = false) (tries : Nat) (cs : List Char) :
    cs = (readEdgeName m tries cs).1 ++ (readEdgeName m tries cs).2 ∧
      ∀ c ∈ (readEdgeName m tries cs).1, isPropertyPart c = true := by
  induction tries generalizing cs with
  | zero => exact ⟨rfl, fun c hc => by cases hc⟩
  | succ tries ih =>
    unfold readEdgeName
    split
    · rename_i c cs
      split
      · rename_i hc
        obtain ⟨hcs, hname⟩ := ih cs
        rw [Mode.skip_eq hm]
        refine ⟨congrArg (c :: ·) hcs, List.forall_mem_cons.mpr ⟨?_, hname⟩⟩
        rcases Bool.or_eq_true_iff.mp hc with hc | hc
        · exact isPropertyPart_of_alphanum (by rw [Char.isAlphanum, hc]; rfl)
        · rw [beq_iff_eq.mp hc]
          decide
      · exact ⟨rfl, fun c hc => by cases hc⟩
    · exact ⟨rfl, fun c hc => by cases hc⟩

theorem readEdge_eq (hm : m.verbose = false) {cs rest : List Char} {e : Escape}
    (h : readEdge m cs = some (e, rest)) : ∃ tail, cs = tail ++ rest ∧ Code tail := by
  have here (cs : List Char) : ∃ tail, cs = tail ++ cs ∧ Code tail :=
    ⟨[], rfl, .bare fun d hd => by cases hd⟩
  unfold readEdge at h
  dsimp only at h
  split at h
  · rename_i inner
    rw [Mode.skip_eq hm] at h
    split at h
    · cases h
    · rename_i c more
      split at h
      · split at h
        · rename_i heq
          obtain ⟨edge, _, h⟩ := Option.bind_eq_some_iff.mp h
          cases h
          obtain ⟨hinner, hname⟩ := readEdgeName_eq hm (c :: more).length (c :: more)
          rw [heq] at hinner
          exact ⟨_, congrArg ('\x7b' :: ·) (hinner.trans (List.append_cons _ _ _)), .braced hname⟩
        · cases h
      · cases h
        exact here _
  · cases h
    exact here _

theorem readPropertyName_eq (hm : m.verbose = false) {tries : Nat} {cs name rest : List Char}
    (h : readPropertyName m tries cs = some (name, rest)) :
    cs = name ++ '\x7d' :: rest ∧ ∀ c ∈ name, isPropertyPart c = true := by
  induction tries generalizing cs name with
  | zero => cases h
  | succ tries ih =>
    unfold readPropertyName at h
    rw [Mode.skip_eq hm] at h
    split at h
    · cases h
    · cases h
      exact ⟨rfl, nofun⟩
    · rename_i c cs _
      split at h
      · rename_i hc
        obtain ⟨⟨name', rest'⟩, hread, h⟩ := Option.map_eq_some_iff.mp h
        cases h
        obtain ⟨rfl, hname⟩ := ih hread
        exact ⟨rfl, List.forall_mem_cons.mpr ⟨hc, hname⟩⟩
      · cases h

theorem readProperty_eq (hm : m.verbose = false) {negated : Bool} {cs rest : List Char} {e : Escape}
    (h : readProperty m negated cs = some (e, rest)) : ∃ tail, cs = tail ++ rest ∧ Code tail := by
  unfold readProperty at h
  rw [Mode.skip_eq hm] at h
  dsimp only at h
  split at h
  · cases h
  · obtain ⟨⟨name, rest'⟩, hread, h⟩ := Option.bind_eq_some_iff.mp h
    cases h
    obtain ⟨rfl, hname⟩ := readPropertyName_eq hm hread
    exact ⟨_, by simp, .braced hname⟩
  · rename_i c cs _
    split at h
    · rename_i hc
      cases h
      have hpart : isPropertyPart c = true :=
        isPropertyPart_of_alphanum (by rw [Char.isAlphanum, hc]; rfl)
      exact ⟨[c], rfl, .bare (List.forall_mem_singleton.mpr hpart)⟩
    · cases h

theorem readEscape_eq (hm : m.verbose = false) {cs rest : List Char} {e : Escape}
    (h : readEscape m cs = some (e, rest)) : ∃ c tail, cs = c :: (tail ++ rest) ∧ Code tail := by
  cases cs with
  | nil => cases h
  | cons c cs =>
    have here {e' : Escape} (h : some (e', cs) = some (e, rest)) :
        ∃ c' tail, c :: cs = c' :: (tail ++ rest) ∧ Code tail := by
      cases h
      exact ⟨c, [], rfl, .bare fun d hd => by cases hd⟩
    have further (h : ∃ tail, cs = tail ++ rest ∧ Code tail) :
        ∃ c' tail, c :: cs = c' :: (tail ++ rest) ∧ Code tail := by
      obtain ⟨tail, rfl, htail⟩ := h
      exact ⟨c, tail, rfl, htail⟩
    unfold readEscape at h
    dsimp only at h
    split at h
    all_goals first
      | exact here h
      | exact further (readCode_eq hm h)
      | exact further (readEdge_eq hm h)
      | exact further (readProperty_eq hm h)
      | skip
    split at h
    · exact here h
    · cases h

/-! ## counts -/

theorem readDigits_eq (hm : m.verbose = false) (tries : Nat) (cs : List Char) :
    cs = (readDigits m tries cs).1 ++ (readDigits m tries cs).2 ∧
      ∀ c ∈ (readDigits m tries cs).1, c.isDigit = true := by
  induction tries generalizing cs with
  | zero => exact ⟨rfl, fun c hc => by cases hc⟩
  | succ tries ih =>
    unfold readDigits
    split
    · rename_i c cs
      split
      · rename_i hc
        obtain ⟨hcs, hdigits⟩ := ih cs
        rw [Mode.skip_eq hm]
        exact ⟨congrArg (c :: ·) hcs, List.forall_mem_cons.mpr ⟨hc, hdigits⟩⟩
      · exact ⟨rfl, fun c hc => by cases hc⟩
    · exact ⟨rfl, fun c hc => by cases hc⟩

/-- there is no closing brace in a number or in the blanks around it -/
theorem readCount_eq (hm : m.verbose = false) (cs : List Char) :
    ∃ taken, cs = taken ++ (readCount? m cs).2 ∧ '\x7d' ∉ taken := by
  have blanks (cs : List Char) : '\x7d' ∉ cs.takeWhile Text.isBlank := by
    intro h
    exact absurd (List.mem_takeWhile_imp h) (by decide)
  obtain ⟨hdigits, hdigit⟩ := readDigits_eq hm cs.length (cs.dropWhile Text.isBlank)
  unfold readCount?
  dsimp only
  rw [Mode.skip_eq hm]
  generalize readDigits m cs.length (cs.dropWhile Text.isBlank) = pair at hdigits hdigit
  obtain ⟨ds, rest⟩ := pair
  refine ⟨cs.takeWhile Text.isBlank ++ ds ++ rest.takeWhile Text.isBlank, ?_, ?_⟩
  · rw [List.append_assoc, List.takeWhile_append_dropWhile, List.append_assoc, ← hdigits,
      List.takeWhile_append_dropWhile]
  · rw [List.mem_append, List.mem_append, not_or, not_or]
    exact ⟨⟨blanks cs, fun h => absurd (hdigit _ h) (by decide)⟩, blanks rest⟩

theorem skipLazy_eq (cs : List Char) : skipLazy cs = cs ∨ cs = '?' :: skipLazy cs := by
  unfold skipLazy
  split
  · exact .inr rfl
  · exact .inl rfl

/-- the characters of a quantifier in braces from behind the opening one on: a comma stands right
before the closing one if there is no upper bound -/
theorem readCounted_eq (hm : m.verbose = false) {cs rest : List Char} {item : Item}
    (h : readCounted m cs = some (item, rest)) :
    ∃ q inside behind, item = .quantifier q ∧ cs = inside ++ '\x7d' :: behind ∧
      '\x7d' ∉ inside ∧ (q.isUnbounded = true → inside.getLast? = some ',') ∧
      rest = skipLazy behind := by
  have finish (q : Quantifier) (inside : List Char) {more behind : List Char}
      (h : some (Item.quantifier q, skipLazy (m.skip behind)) = some (item, rest))
      (hmore : more = '\x7d' :: behind) (hcs : cs = inside ++ more) (hinside : '\x7d' ∉ inside)
      (hq : q.isUnbounded = true → inside.getLast? = some ',') :
      ∃ q inside behind, item = .quantifier q ∧ cs = inside ++ '\x7d' :: behind ∧
        '\x7d' ∉ inside ∧ (q.isUnbounded = true → inside.getLast? = some ',') ∧
        rest = skipLazy behind := by
    rw [Mode.skip_eq hm] at h
    cases h
    exact ⟨q, inside, behind, rfl, hmore ▸ hcs, hinside, hq, rfl⟩
  unfold readCounted at h
  rw [Mode.skip_eq hm] at h
  obtain ⟨taken, hcs, htaken⟩ := readCount_eq hm cs
  generalize readCount? m cs = pair at h hcs
  obtain ⟨first, after⟩ := pair
  dsimp only at h hcs
  obtain ⟨n, _, h⟩ := Option.bind_eq_some_iff.mp h
  split at h
  · rename_i after _
    have hcomma : '\x7d' ∉ taken ++ [','] := by
      rw [List.mem_append, not_or]
      exact ⟨htaken, by decide⟩
    have hcs : cs = taken ++ [','] ++ after := by rw [hcs, List.append_assoc]; rfl
    rw [Mode.skip_eq hm] at h
    split at h
    · obtain ⟨⟨q, more⟩, hq, h⟩ := Option.bind_eq_some_iff.mp h
      cases hq
      exact finish (.atLeast n) (taken ++ [',']) h rfl hcs hcomma fun _ => List.getLast?_concat
    · obtain ⟨taken', hafter, htaken'⟩ := readCount_eq hm after
      obtain ⟨⟨q, more⟩, hq, h⟩ := Option.bind_eq_some_iff.mp h
      obtain ⟨k, _, hq⟩ := Option.bind_eq_some_iff.mp hq
      split at hq <;> cases hq
      split at h
      · rename_i hmore
        refine finish (.between n k) (taken ++ [','] ++ taken') h hmore ?_ ?_ fun h => by cases h
        · rw [List.append_assoc, ← hafter]
          exact hcs
        · rw [List.mem_append, not_or]
          exact ⟨hcomma, htaken'⟩
      · cases h
  · obtain ⟨⟨q, more⟩, hq, h⟩ := Option.bind_eq_some_iff.mp h
    cases hq
    split at h
    · rename_i hmore
      exact finish (.exactly n) taken h hmore hcs htaken fun h => by cases h
    · cases h

/-! ## the start of a group -/

/-- the characters that neither begin nor end anything -/
def isQuiet (c : Char) : Bool :=
  !(c == '\\' || c == '[' || c == '(' || c == ')' || c == '\x7b')

theorem eq_of_not_quiet {c : Char} (h : isQuiet c = false) :
    c = '\\' ∨ c = '[' ∨ c = '(' ∨ c = ')' ∨ c = '\x7b' := by
  rw [isQuiet, Bool.not_eq_false'] at h
  simpa only [Bool.or_eq_true, beq_iff_eq, or_assoc] using h

theorem quiet_of_isPropertyPart {c : Char} (h : isPropertyPart c = true) : isQuiet c = true := by
  by_contra hc
  rcases eq_of_not_quiet (Bool.not_eq_true _ ▸ hc) with rfl | rfl | rfl | rfl | rfl <;>
    exact absurd h (by decide)

theorem quiet_of_isNameTail {c : Char} (h : isNameTail c = true) : c = '[' ∨ isQuiet c = true := by
  by_contra hc
  rw [not_or] at hc
  rcases eq_of_not_quiet (Bool.not_eq_true _ ▸ hc.2) with rfl | rfl | rfl | rfl | rfl
  · exact absurd h (by decide)
  · exact hc.1 rfl
  · exact absurd h (by decide)
  · exact absurd h (by decide)
  · exact absurd h (by decide)

theorem quiet_of_isNameHead {c : Char} (h : isNameHead c = true) : isQuiet c = true := by
  by_contra hc
  rcases eq_of_not_quiet (Bool.not_eq_true _ ▸ hc) with rfl | rfl | rfl | rfl | rfl <;>
    exact absurd h (by decide)

theorem Mode.switched_quiet {m mode : Mode} {on : Bool} {letters : List Char}
    (h : m.switched? on letters = some mode) : ∀ c ∈ letters, isQuiet c = true := by
  induction letters generalizing m on with
  | nil => exact fun c hc => by cases hc
  | cons c letters ih =>
    rw [List.forall_mem_cons]
    unfold Mode.switched? at h
    split at h
    · rename_i heq
      cases heq
    · rename_i heq
      cases heq
      split at h
      · exact ⟨by decide, ih h⟩
      · cases h
    · rename_i heq
      cases heq
      obtain ⟨m', hm', h⟩ := Option.bind_eq_some_iff.mp h
      refine ⟨?_, ih h⟩
      unfold Mode.switch? at hm'
      split at hm' <;> first | decide | cases hm'

/-- what stands behind the parenthesis that begins a group or a setting -/
inductive Opens : List Char → Item → Prop
  | group {cs : List Char} {mode : Mode} {noted : Bool} {name : Option String}
      (h : ∀ c ∈ cs, c = '[' ∨ isQuiet c = true) : Opens cs (.opening mode noted name)
  | setting {cs : List Char} {mode : Mode} (h : ∀ c ∈ cs, isQuiet c = true) :
      Opens (cs ++ [')']) (.setting mode)

theorem readSettings_eq {cs rest : List Char} {item : Item}
    (h : readSettings m cs = some (item, rest)) :
    ∃ taken, cs = taken ++ rest ∧ Opens ('?' :: taken) item := by
  unfold readSettings at h
  dsimp only at h
  split at h
  · cases h
  · have hcs := List.takeWhile_append_dropWhile (p := fun c => !(c == ':' || c == ')')) (l := cs)
    split at h
    · rename_i mode rest' hmode heq
      cases h
      rw [heq] at hcs
      refine ⟨_ ++ [':'], by rw [List.append_assoc]; exact hcs.symm, .group ?_⟩
      have hquiet := Mode.switched_quiet hmode
      intro c hc
      simp only [List.mem_cons, List.mem_append, List.not_mem_nil, or_false] at hc
      rcases hc with rfl | hc | rfl
      · exact .inr (by decide)
      · exact .inr (hquiet c hc)
      · exact .inr (by decide)
    · rename_i mode rest' hmode heq
      split at h
      · cases h
      · cases h
        rw [heq] at hcs
        refine ⟨_ ++ [')'], by rw [List.append_assoc]; exact hcs.symm, ?_⟩
        rw [← List.cons_append]
        exact .setting (List.forall_mem_cons.mpr ⟨by decide, Mode.switched_quiet hmode⟩)
    · cases h

theorem readName_eq {cs rest : List Char} {item : Item} (h : readName m cs = some (item, rest)) :
    ∃ taken, cs = taken ++ rest ∧ (∀ c ∈ taken, c = '[' ∨ isQuiet c = true) ∧
      ∃ noted name, item = .opening m noted name := by
  unfold readName at h
  have hcs := List.takeWhile_append_dropWhile (p := fun c => c != '>') (l := cs)
  split at h
  · rename_i c name d rest' htake hdrop
    split at h
    · rename_i hname
      cases h
      rw [Bool.and_eq_true, List.all_eq_true] at hname
      rw [htake, hdrop] at hcs
      have hd : d = '>' := by
        have := List.head?_dropWhile_not (fun c => c != '>') cs
        rw [hdrop] at this
        simpa using this
      subst hd
      refine ⟨c :: name ++ ['>'], by rw [List.append_assoc]; exact hcs.symm, ?_, _, _, rfl⟩
      intro c' hc'
      simp only [List.mem_append, List.mem_cons, List.not_mem_nil, or_false] at hc'
      rcases hc' with (rfl | hc') | rfl
      · exact .inr (quiet_of_isNameHead hname.1)
      · exact quiet_of_isNameTail (hname.2 c' hc')
      · exact .inr (by decide)
    · cases h
  · cases h

theorem readOpening_eq (hm : m.verbose = false) {cs rest : List Char} {item : Item}
    (h : readOpening m cs = some (item, rest)) :
    ∃ taken, cs = taken ++ rest ∧ Opens taken item := by
  have named (front : List Char) {cs : List Char} (hfront : front.all isQuiet = true)
      (h : readName m cs = some (item, rest)) :
      ∃ taken, front ++ cs = taken ++ rest ∧ Opens taken item := by
    obtain ⟨taken, rfl, htaken, noted, name, rfl⟩ := readName_eq h
    refine ⟨front ++ taken, (List.append_assoc _ _ _).symm, .group fun c hc => ?_⟩
    rcases List.mem_append.mp hc with hc | hc
    · exact .inr (List.all_eq_true.mp hfront c hc)
    · exact htaken c hc
  unfold readOpening at h
  rw [Mode.skip_eq hm] at h
  split at h
  · cases h
  · cases h
  · cases h
  · cases h
  · exact named ['?', 'P', '<'] (by decide) h
  · exact named ['?', '<'] (by decide) h
  · obtain ⟨taken, rfl, htaken⟩ := readSettings_eq h
    exact ⟨'?' :: taken, rfl, htaken⟩
  · cases h
    exact ⟨[], rfl, .group fun c hc => by cases hc⟩

/-! ## sets in brackets -/

/-- the guard does not take any of these characters for the bracket that closes a set -/
def Passed (used : List Char) : Prop :=
  ∀ cs, bracketBody (used ++ cs) = used.length + bracketBody cs

theorem Passed.nil : Passed [] := fun _ => (Nat.zero_add _).symm

theorem Passed.append {used used' : List Char} (h : Passed used) (h' : Passed used') :
    Passed (used ++ used') := by
  intro cs
  rw [List.append_assoc, h, h', List.length_append, Nat.add_assoc]

theorem passed_char {c : Char} (hbackslash : c ≠ '\\') (hclose : c ≠ ']') : Passed [c] := by
  intro cs
  rw [List.singleton_append, bracketBody.eq_def]
  split
  · rename_i heq
    cases heq
  · rename_i heq
    cases heq
    exact absurd rfl hbackslash
  · rename_i heq
    cases heq
    rw [if_neg hclose, Nat.add_comm]
    rfl

theorem passed_twice {c : Char} (h : c ≠ '\\') (hclose : c ≠ ']') : Passed [c, c] :=
  (passed_char h hclose).append (passed_char h hclose)

theorem passed_all {used : List Char} (h : ∀ c ∈ used, c ≠ '\\' ∧ c ≠ ']') : Passed used := by
  induction used with
  | nil => exact .nil
  | cons c used ih =>
    obtain ⟨hc, hused⟩ := List.forall_mem_cons.mp h
    exact (passed_char hc.1 hc.2).append (ih hused)

theorem Code.passed {tail : List Char} (h : Code tail) : Passed tail := by
  have code {c : Char} (hc : isPropertyPart c = true) : c ≠ '\\' ∧ c ≠ ']' := by
    constructor <;> rintro rfl <;> exact absurd hc (by decide)
  cases h with
  | bare h => exact passed_all fun c hc => code (h c hc)
  | braced h =>
    refine (passed_char (by decide) (by decide) : Passed ['\x7b']).append
      ((passed_all fun c hc => code (h c hc)).append (passed_char (by decide) (by decide)))

theorem passed_escape (c : Char) {tail : List Char} (h : Passed tail) :
    Passed ('\\' :: c :: tail) := by
  intro cs
  rw [List.cons_append, List.cons_append, bracketBody, h, List.length_cons, List.length_cons]
  omega

theorem readAtom_eq (hm : m.verbose = false) {cs rest : List Char} {e : Escape}
    (h : readAtom m cs = some (e, rest)) :
    ∃ used, cs = used ++ rest ∧ ((∀ rest', cs ≠ ']' :: rest') → Passed used) := by
  unfold readAtom at h
  split at h
  · cases h
  · obtain ⟨c, tail, rfl, htail⟩ := readEscape_eq hm h
    exact ⟨'\\' :: c :: tail, rfl, fun _ => passed_escape c htail.passed⟩
  · rename_i c cs hbackslash
    cases h
    refine ⟨[c], rfl, fun hclose => passed_char ?_ ?_⟩
    · rintro rfl
      exact hbackslash rfl
    · rintro rfl
      exact hclose _ rfl

theorem readItem_eq (hm : m.verbose = false) {cs rest : List Char} {s : CharSet}
    (h : readItem m cs = some (s, rest)) :
    ∃ used, cs = used ++ rest ∧ ((∀ rest', cs ≠ ']' :: rest') → Passed used) := by
  unfold readItem at h
  obtain ⟨⟨first, middle⟩, hfirst, h⟩ := Option.bind_eq_some_iff.mp h
  obtain ⟨used, hcs, hused⟩ := readAtom_eq hm hfirst
  dsimp only at h
  simp only [Mode.skip_eq hm] at h
  split at h
  · obtain ⟨set, _, h⟩ := Option.bind_eq_some_iff.mp h
    cases h
    exact ⟨used, hcs, hused⟩
  · rename_i after hrange
    obtain ⟨⟨last, rest'⟩, hlast, h⟩ := Option.bind_eq_some_iff.mp h
    obtain ⟨low, _, h⟩ := Option.bind_eq_some_iff.mp h
    obtain ⟨high, _, h⟩ := Option.bind_eq_some_iff.mp h
    split at h
    · cases h
      obtain ⟨used', hafter, hused'⟩ := readAtom_eq hm hlast
      -- a dash in front of the closing bracket makes no range
      obtain ⟨rfl, hclose⟩ : middle = '-' :: after ∧ ∀ rest', after ≠ ']' :: rest' := by
        split at hrange
        · split at hrange
          · cases hrange
          · cases hrange
          · rename_i hclose _
            cases hrange
            exact ⟨rfl, hclose⟩
        · cases hrange
      refine ⟨used ++ '-' :: used', by rw [hcs, hafter]; simp, fun h => ?_⟩
      exact (hused h).append
        ((passed_char (by decide) (by decide) : Passed ['-']).append (hused' hclose))
    · cases h

theorem takeDashes_eq (hm : m.verbose = false) (tries : Nat) (b : Bracket) (any : Bool)
    (cs : List Char) : ∃ dashes, cs = dashes ++ (takeDashes m tries b any cs).2.2 ∧
      Passed dashes ∧ (dashes = [] ∧ (takeDashes m tries b any cs).2.1 = any ∨
        dashes.head? = some '-' ∧ (takeDashes m tries b any cs).2.1 = true) := by
  induction tries generalizing b any cs with
  | zero => exact ⟨[], rfl, .nil, .inl ⟨rfl, rfl⟩⟩
  | succ tries ih =>
    unfold takeDashes
    split
    · rename_i rest
      rw [Mode.skip_eq hm]
      obtain ⟨dashes, hrest, hdashes, hany⟩ := ih (b.addSet (.one '-')) true rest
      refine ⟨'-' :: dashes, congrArg ('-' :: ·) hrest,
        (passed_char (by decide) (by decide) : Passed ['-']).append hdashes, .inr ⟨rfl, ?_⟩⟩
      exact hany.elim And.right And.right
    · exact ⟨[], rfl, .nil, .inl ⟨rfl, rfl⟩⟩

/-- how many characters there are up to the bracket that closes a set, behind a caret -/
def closeLength : List Char → Nat
  | ']' :: rest => bracketBody rest + 1
  | rest => bracketBody rest

theorem bracketLength_caret (cs : List Char) : bracketLength ('^' :: cs) = closeLength cs + 1 := by
  unfold bracketLength closeLength
  split
  · rename_i heq
    cases heq
    rfl
  · rename_i h heq
    cases heq
    split
    · exact absurd rfl (h _)
    · rfl
  · rename_i heq
    cases heq
  · rename_i h _
    exact absurd rfl (h _)

theorem bracketLength_of_ne {cs : List Char} (h : ∀ rest, cs ≠ '^' :: rest) :
    bracketLength cs = closeLength cs := by
  unfold bracketLength closeLength
  split
  · exact absurd rfl (h _)
  · exact absurd rfl (h _)
  · rfl
  · split
    · rename_i hclose
      exact absurd rfl (hclose _)
    · rfl

theorem closeLength_of_ne {cs : List Char} (h : ∀ rest, cs ≠ ']' :: rest) :
    closeLength cs = bracketBody cs := by
  unfold closeLength
  split
  · exact absurd rfl (h _)
  · rfl

theorem openBracket_eq (hm : m.verbose = false) (cs : List Char) :
    ∃ used, cs = used ++ (openBracket m cs).2 ∧
      bracketLength cs = used.length + bracketBody (openBracket m cs).2 := by
  unfold openBracket
  rw [Mode.skip_eq hm]
  split
  rename_i negated cs' hcaret
  obtain ⟨dashes, hcs', hdashes, hany⟩ :=
    takeDashes_eq hm cs'.length (.start negated none) false cs'
  generalize takeDashes m cs'.length (.start negated none) false cs' = taken at hcs' hany ⊢
  obtain ⟨b, any, rest⟩ := taken
  dsimp only at hcs' hany ⊢
  have further {rest : List Char} (h : ∃ used, cs' = used ++ rest ∧
      closeLength cs' = used.length + bracketBody rest) :
      ∃ used, cs = used ++ rest ∧ bracketLength cs = used.length + bracketBody rest := by
    obtain ⟨used, hused, hlength⟩ := h
    split at hcaret
    · cases hcaret
      rw [Mode.skip_eq hm] at hused hlength
      refine ⟨'^' :: used, congrArg ('^' :: ·) hused, ?_⟩
      rw [bracketLength_caret, hlength]
      exact Nat.add_right_comm used.length _ 1
    · rename_i hne
      cases hcaret
      exact ⟨used, hused, (bracketLength_of_ne fun rest h => hne rest h).trans hlength⟩
  -- a closing bracket stands for itself where no dash stands before it
  split
  · obtain ⟨rfl, -⟩ | ⟨-, hany⟩ := hany
    · refine further ⟨[']'], ?_⟩
      rw [Mode.skip_eq hm, hcs']
      exact ⟨rfl, Nat.add_comm _ 1⟩
    · cases hany
  · rename_i hclose
    refine further ⟨dashes, hcs', ?_⟩
    rw [closeLength_of_ne, hcs', hdashes]
    rintro rest' rfl
    obtain ⟨rfl, hany⟩ | ⟨hdash, -⟩ := hany
    · exact hclose rest' hany hcs'.symm
    · cases dashes with
      | nil => cases hdash
      | cons d dashes =>
        cases hdash
        cases hcs'

theorem readNamed_eq {cs rest : List Char} {s? : Option CharSet}
    (h : readNamed? m cs = some (s?, rest)) : ∃ used, cs = used ++ rest := by
  have suffix {cs : List Char} (h : cs.dropWhile (· != ':') = ':' :: ']' :: rest) :
      ∃ used, cs = used ++ rest := by
    refine ⟨cs.takeWhile (· != ':') ++ [':', ']'], ?_⟩
    rw [List.append_assoc]
    exact (h ▸ List.takeWhile_append_dropWhile).symm
  unfold readNamed? at h
  split at h
  · rename_i cs
    dsimp only at h
    split at h
    · rename_i rest' hdrop
      obtain ⟨set, _, h⟩ := Option.map_eq_some_iff.mp h
      cases h
      split at hdrop
      · obtain ⟨used, rfl⟩ := suffix hdrop
        exact ⟨':' :: '^' :: used, rfl⟩
      · obtain ⟨used, rfl⟩ := suffix hdrop
        exact ⟨':' :: used, rfl⟩
    · cases h
  · cases h

theorem readBrackets_eq (hm : m.verbose = false) {tries : Nat} {b : Bracket} {outer : List Bracket}
    {cs rest : List Char} {s : Spelled} (h : readBrackets m tries b outer cs = some (s, rest)) :
    ∃ inside, cs = inside ++ ']' :: rest ∧
      (outer = [] → '[' ∉ inside → bracketBody cs = inside.length + 1) := by
  induction tries generalizing b outer cs with
  | zero => cases h
  | succ tries ih =>
    have goOn {b : Bracket} {outer : List Bracket} (used : List Char) {after : List Char}
        (h : readBrackets m tries b outer after = some (s, rest)) (hused : Passed used) :
        ∃ inside, used ++ after = inside ++ ']' :: rest ∧
          (outer = [] → '[' ∉ inside → bracketBody (used ++ after) = inside.length + 1) := by
      obtain ⟨inside, hafter, hlength⟩ := ih h
      refine ⟨used ++ inside, by rw [hafter, List.append_assoc], fun houter hopen => ?_⟩
      rw [List.mem_append, not_or] at hopen
      rw [hused, hlength houter hopen.2, List.length_append, Nat.add_assoc]
    -- where a bracket opens inside, nothing is said of the first one that closes
    have inner {b : Bracket} {outer' : List Bracket} {used after : List Char}
        (h : readBrackets m tries b outer' after = some (s, rest)) :
        ∃ inside, '[' :: (used ++ after) = inside ++ ']' :: rest ∧
          (outer = [] → '[' ∉ inside →
            bracketBody ('[' :: (used ++ after)) = inside.length + 1) := by
      obtain ⟨inside, hafter, _⟩ := ih h
      refine ⟨'[' :: (used ++ inside), by rw [hafter]; simp, fun _ h => ?_⟩
      exact absurd List.mem_cons_self h
    unfold readBrackets at h
    rw [Mode.skip_eq hm] at h
    split at h
    · cases h
    · rename_i cs
      split at h
      · cases h
      · cases h
        exact ⟨[], rfl, fun _ _ => rfl⟩
      · obtain ⟨inside, rfl, _⟩ := ih h
        exact ⟨']' :: inside, rfl, nofun⟩
    · rename_i cs
      split at h
      · cases h
      · rename_i hnamed
        obtain ⟨used, rfl⟩ := readNamed_eq hnamed
        exact inner h
      · obtain ⟨used, hused, _⟩ := openBracket_eq hm cs
        rw [hused]
        exact inner h
    · exact goOn ['&', '&'] h (passed_twice (by decide) (by decide))
    · exact goOn ['-', '-'] h (passed_twice (by decide) (by decide))
    · exact goOn ['~', '~'] h (passed_twice (by decide) (by decide))
    · rename_i hclose _ _ _ _
      split at h
      · cases h
      · rename_i hitem
        obtain ⟨used, rfl, hused⟩ := readItem_eq hm hitem
        exact goOn used h (hused hclose)

theorem readBracket_eq (hm : m.verbose = false) {cs rest : List Char} {s : Spelled}
    (h : readBracket m cs = some (s, rest)) :
    ∃ inside, cs = inside ++ ']' :: rest ∧
      ('[' ∉ inside → bracketLength cs = inside.length + 1) := by
  unfold readBracket at h
  obtain ⟨used, hcs, hlength⟩ := openBracket_eq hm cs
  generalize openBracket m cs = pair at h hcs hlength
  obtain ⟨b, after⟩ := pair
  obtain ⟨inside, hinside, hbody⟩ := readBrackets_eq hm h
  refine ⟨used ++ inside, ?_, fun hopen => ?_⟩
  · rw [List.append_assoc, ← hinside]
    exact hcs
  · rw [List.mem_append, not_or] at hopen
    rw [hlength, hbody rfl hopen.2, List.length_append, Nat.add_assoc]

/-! ## items -/

/-- a question mark behind a quantifier, or nothing -/
def Lazy (cs : List Char) : Prop := cs = [] ∨ cs = ['?']

/-- an item by its first character, those behind it, and the characters `behind` the item -/
inductive Item.Spells (behind : List Char) : Char → List Char → Item → Prop
  | group {cs : List Char} {item : Item} (h : Opens cs item) : Item.Spells behind '(' cs item
  | closing : Item.Spells behind ')' [] .closing
  | bar : Item.Spells behind '|' [] .bar
  | set {inside : List Char} {p : Pattern} (hp : p.isSimple = true)
      (h : '[' ∉ inside → bracketLength (inside ++ ']' :: behind) = inside.length + 1) :
      Item.Spells behind '[' (inside ++ [']']) (.atom p)
  | optional {cs : List Char} (h : Lazy cs) : Item.Spells behind '?' cs (.quantifier .optional)
  | unbounded {c : Char} {cs : List Char} (q : Quantifier) (hc : c = '*' ∨ c = '+')
      (h : Lazy cs) : Item.Spells behind c cs (.quantifier q)
  | counted {inside cs : List Char} {q : Quantifier} (hinside : '\x7d' ∉ inside)
      (hq : q.isUnbounded = true → inside.getLast? = some ',') (h : Lazy cs) :
      Item.Spells behind '\x7b' (inside ++ '\x7d' :: cs) (.quantifier q)
  | escape {c : Char} {cs : List Char} {p : Pattern} (h : Code cs) (hp : p.isSimple = true) :
      Item.Spells behind '\\' (c :: cs) (.atom p)
  | character {c : Char} {p : Pattern} (hquiet : isQuiet c = true) (hstar : c ≠ '*')
      (hplus : c ≠ '+') (hp : p.isSimple = true) : Item.Spells behind c [] (.atom p)

theorem atomOf_isSimple {e : Escape} {p : Pattern} (h : atomOf m e = some p) :
    p.isSimple = true := by
  cases e with
  | character c =>
    cases h
    rfl
  | byte c =>
    obtain ⟨s, _, rfl⟩ := Option.map_eq_some_iff.mp h
    rfl
  | named k negated =>
    obtain ⟨s, _, rfl⟩ := Option.map_eq_some_iff.mp h
    rfl
  | assertion a =>
    cases h
    rfl

theorem lazy_eq (cs : List Char) : ∃ taken, cs = taken ++ skipLazy cs ∧ Lazy taken := by
  rcases skipLazy_eq cs with h | h
  · exact ⟨[], by rw [h]; rfl, .inl rfl⟩
  · exact ⟨['?'], h, .inr rfl⟩

/-- **What an item is and which characters it takes.** -/
theorem readItemFrom_eq (hm : m.verbose = false) {c : Char} {cs behind : List Char} {item : Item}
    (h : readItemFrom m c cs = some (item, behind)) :
    ∃ taken, cs = taken ++ behind ∧ Item.Spells behind c taken item := by
  unfold readItemFrom at h
  dsimp only at h
  split at h
  · obtain ⟨taken, hcs, htaken⟩ := readOpening_eq hm h
    exact ⟨taken, hcs, .group htaken⟩
  · cases h
    exact ⟨[], rfl, .closing⟩
  · cases h
    exact ⟨[], rfl, .bar⟩
  · obtain ⟨⟨s, rest⟩, hread, h⟩ := Option.map_eq_some_iff.mp h
    cases h
    obtain ⟨inside, rfl, hinside⟩ := readBracket_eq hm hread
    exact ⟨inside ++ [']'], List.append_cons _ _ _, .set rfl hinside⟩
  · cases h
    obtain ⟨taken, hcs, htaken⟩ := lazy_eq cs
    exact ⟨taken, hcs, .optional htaken⟩
  · cases h
    obtain ⟨taken, hcs, htaken⟩ := lazy_eq cs
    exact ⟨taken, hcs, .unbounded .star (.inl rfl) htaken⟩
  · cases h
    obtain ⟨taken, hcs, htaken⟩ := lazy_eq cs
    exact ⟨taken, hcs, .unbounded .plus (.inr rfl) htaken⟩
  · obtain ⟨q, inside, after, rfl, rfl, hinside, hq, rfl⟩ := readCounted_eq hm h
    obtain ⟨taken, hafter, htaken⟩ := lazy_eq after
    refine ⟨inside ++ '\x7d' :: taken, ?_, .counted hinside hq htaken⟩
    rw [List.append_assoc, List.cons_append, ← hafter]
  · obtain ⟨⟨e, rest⟩, hread, h⟩ := Option.bind_eq_some_iff.mp h
    obtain ⟨p, hp, h⟩ := Option.map_eq_some_iff.mp h
    cases h
    obtain ⟨c, tail, rfl, htail⟩ := readEscape_eq hm hread
    exact ⟨c :: tail, rfl, .escape htail (atomOf_isSimple hp)⟩
  · obtain ⟨p, hp, h⟩ := Option.map_eq_some_iff.mp h
    cases h
    obtain ⟨s, _, rfl⟩ := Option.map_eq_some_iff.mp hp
    exact ⟨[], rfl, .character (by decide) (by decide) (by decide) rfl⟩
  · cases h
    exact ⟨[], rfl, .character (by decide) (by decide) (by decide) rfl⟩
  · cases h
    exact ⟨[], rfl, .character (by decide) (by decide) (by decide) rfl⟩
  · obtain ⟨p, hp, h⟩ := Option.map_eq_some_iff.mp h
    cases h
    refine ⟨[], rfl, .character ?_ ?_ ?_ (atomOf_isSimple hp)⟩
    · by_contra hc
      rcases eq_of_not_quiet (Bool.not_eq_true _ ▸ hc) with h | h | h | h | h <;> contradiction
    · assumption
    · assumption

end PathQuery.Pattern
