import PathQuery.Pattern.Escape

/-!
# Character classes in brackets

A bracketed class is a row of characters, ranges, classes and further bracketed ones, all joined,
with operations on sets between such rows. A `^` at its start negates it; dashes and a closing
bracket at its start stand for themselves.

* `Spelled`       a set with the depth of its spelling;
* `Bracket`       an open bracket with what it holds so far;
* `readBracket`   a set from behind its opening bracket on.
-/

namespace PathQuery.Pattern

/-- a set, and how deep its spelling is: a bracket, an operation and a row of two items or more are
a level each -/
structure Spelled where
  levels : Nat
  set : CharSet

structure Bracket where
  negated : Bool
  /-- what stands before the last operation, and the operation -/
  left : Option (Spelled × SetOperation)
  /-- how many items have been joined since -/
  count : Nat
  /-- what they are together, and how deep the deepest is -/
  items : Spelled

namespace Bracket

/-- an open bracket, or what follows an operation in it, that holds nothing yet -/
def start (negated : Bool) (left : Option (Spelled × SetOperation)) : Bracket :=
  ⟨negated, left, 0, ⟨0, .nothing⟩⟩

def add (b : Bracket) (s : Spelled) : Bracket :=
  { b with
    count := b.count + 1
    items := ⟨max b.items.levels s.levels, .union b.items.set s.set⟩ }

def addSet (b : Bracket) (s : CharSet) : Bracket := b.add ⟨0, s⟩

def inside (m : Mode) (b : Bracket) : Spelled :=
  let levels := if b.count ≤ 1 then b.items.levels else b.items.levels + 1
  match b.left with
  | some (s, op) => ⟨max s.levels levels + 1, .combined op (m.fold s.set) (m.fold b.items.set)⟩
  | none => ⟨levels, b.items.set⟩

def operate (m : Mode) (op : SetOperation) (b : Bracket) : Bracket :=
  start b.negated (some (b.inside m, op))

/-- the set of a closed bracket; it is negated up to case -/
def close (m : Mode) (b : Bracket) : Option Spelled :=
  (m.negate b.negated (m.fold (b.inside m).set)).map fun s => ⟨(b.inside m).levels + 1, s⟩

end Bracket

/-! ## what stands in brackets -/

def takeDashes (m : Mode) : (tries : Nat) → (b : Bracket) → (any : Bool) → List Char →
    Bracket × Bool × List Char
  | 0, b, any, cs => (b, any, cs)
  | tries + 1, b, any, cs =>
    match cs with
    | '-' :: rest => takeDashes m tries (b.addSet (.one '-')) true (m.skip rest)
    | _ => (b, any, cs)

/-- an opening bracket with what stands for itself only at the start of a set -/
def openBracket (m : Mode) (cs : List Char) : Bracket × List Char :=
  let (negated, cs) := match m.skip cs with
    | '^' :: rest => (true, m.skip rest)
    | cs => (false, cs)
  let (b, any, cs) := takeDashes m cs.length (.start negated none) false cs
  match any, cs with
  | false, ']' :: rest => (b.addSet (.one ']'), m.skip rest)
  | _, cs => (b, cs)

/-- a class by name, from behind its opening bracket on -/
def readNamed? (m : Mode) : List Char → Option (Option CharSet × List Char)
  | ':' :: cs =>
    let (negated, cs) := match cs with
      | '^' :: rest => (true, rest)
      | cs => (false, cs)
    match cs.dropWhile (· != ':') with
    | ':' :: ']' :: rest =>
      (CharSet.ofName? (String.ofList (cs.takeWhile (· != ':')))).map fun s =>
        (m.negate negated (m.fold s), rest)
    | _ => none
  | _ => none

def readAtom (m : Mode) : List Char → Option (Escape × List Char)
  | [] => none
  | '\\' :: rest => readEscape m rest
  | c :: rest => some (.character c, rest)

/-- the set of a character or a class; places are not in sets -/
def Escape.set? (m : Mode) : Escape → Option CharSet
  | .character c => m.one c
  | .byte c => m.one c
  | .named k negated => m.named k negated
  | .assertion _ => none

def Escape.bound? (m : Mode) (e : Escape) : Option Char :=
  match e with
  | .character c => if m.hasMember c then some c else none
  | .byte c => if m.hasMember c then some c else none
  | _ => none

/-- a character, a class or a range; a dash before a bracket or another dash makes no range -/
def readItem (m : Mode) (cs : List Char) : Option (CharSet × List Char) := do
  let (first, rest) ← readAtom m cs
  let rest := m.skip rest
  let range? := match rest with
    | '-' :: after =>
      match m.skip after with
      | ']' :: _ => none
      | '-' :: _ => none
      | after => some after
    | _ => none
  match range? with
  | none => do
    let s ← first.set? m
    some (s, rest)
  | some after => do
    let (last, rest) ← readAtom m after
    let low ← first.bound? m
    let high ← last.bound? m
    if low ≤ high then some (.range low high, rest) else none

/-- goes on with an open bracket that stands in the brackets `outer`, innermost first -/
def readBrackets (m : Mode) :
    (tries : Nat) → (b : Bracket) → (outer : List Bracket) → List Char →
      Option (Spelled × List Char)
  | 0, _, _, _ => none
  | tries + 1, b, outer, cs =>
    match m.skip cs with
    | [] => none
    | ']' :: rest =>
      match b.close m, outer with
      | none, _ => none
      | some s, [] => some (s, rest)
      | some s, b :: outer => readBrackets m tries (b.add s) outer rest
    | '[' :: rest =>
      match readNamed? m rest with
      | some (none, _) => none
      | some (some s, rest) => readBrackets m tries (b.addSet s) outer rest
      | none =>
        let (b', rest) := openBracket m rest
        readBrackets m tries b' (b :: outer) rest
    | '&' :: '&' :: rest => readBrackets m tries (b.operate m .intersection) outer rest
    | '-' :: '-' :: rest => readBrackets m tries (b.operate m .difference) outer rest
    | '~' :: '~' :: rest => readBrackets m tries (b.operate m .symmetricDifference) outer rest
    | cs =>
      match readItem m cs with
      | none => none
      | some (s, rest) => readBrackets m tries (b.addSet s) outer rest

def readBracket (m : Mode) (cs : List Char) : Option (Spelled × List Char) :=
  let (b, rest) := openBracket m cs
  readBrackets m (cs.length + 1) b [] rest

end PathQuery.Pattern
