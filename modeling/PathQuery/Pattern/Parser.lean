import PathQuery.Pattern.Bracket
import PathQuery.Pattern.Room

/-!
# Reading patterns

A pattern is read item by item. Groups that are still open wait in a row; a group that closes
becomes an item of the one around it. A setting holds from where it stands to the end of its group.

* `Item`, `readItems`    the items;
* `Reading`, `Reading.take`   the open groups, and what an item changes;
* `Pattern.compile?`     the pattern of a text.
-/

namespace PathQuery.Pattern

inductive Item where
  /-- the start of a group, with the settings in it; a group with a name is always noted -/
  | opening (mode : Mode) (noted : Bool) (name : Option String)
  | closing
  | bar
  | setting (mode : Mode)
  | quantifier (q : Quantifier)
  | atom (p : Pattern)

/-! ## groups -/

/-- the settings with one of them switched, by its letter -/
def Mode.switch? (m : Mode) (letter : Char) (on : Bool) : Option Mode :=
  match letter with
  | 'i' => some { m with caseless := on }
  | 'm' => some { m with multiline := on }
  | 's' => some { m with dotAll := on }
  | 'R' => some { m with crlf := on }
  | 'x' => some { m with verbose := on }
  | 'u' => some { m with unicode := on }
  | 'U' => some m
  | _ => none

/-- the settings after some letters, those behind a dash switched off -/
def Mode.switched? (m : Mode) (on : Bool) : (letters : List Char) → Option Mode
  | [] => some m
  | '-' :: rest => if on then m.switched? false rest else none
  | c :: rest => (m.switch? c on).bind (·.switched? on rest)

/-- letters between a question mark and a colon or parenthesis: none twice, no dash at the end,
and not nothing at all before a parenthesis -/
def readSettings (m : Mode) (cs : List Char) : Option (Item × List Char) :=
  let isEnd (c : Char) := c == ':' || c == ')'
  let letters := cs.takeWhile (!isEnd ·)
  if letters.getLast? = some '-' ∨ ¬letters.Nodup then none
  else
    match m.switched? true letters, cs.dropWhile (!isEnd ·) with
    | some mode, ':' :: rest => some (.opening mode false none, rest)
    | some mode, ')' :: rest => if letters.isEmpty then none else some (.setting mode, rest)
    | _, _ => none

def isNameHead (c : Char) : Bool := c == '_' || Text.isAlphabetic c

def isNameTail (c : Char) : Bool :=
  c == '_' || c == '.' || c == '[' || c == ']' || Text.isAlphanumeric c

def readName (m : Mode) (cs : List Char) : Option (Item × List Char) :=
  match cs.takeWhile (· != '>'), cs.dropWhile (· != '>') with
  | c :: name, _ :: rest =>
    if isNameHead c && name.all isNameTail then
      some (.opening m true (some (String.ofList (c :: name))), rest)
    else none
  | _, _ => none

/-- what begins with a parenthesis, from behind it on; looking around is not possible -/
def readOpening (m : Mode) (cs : List Char) : Option (Item × List Char) :=
  match m.skip cs with
  | '?' :: '=' :: _ => none
  | '?' :: '!' :: _ => none
  | '?' :: '<' :: '=' :: _ => none
  | '?' :: '<' :: '!' :: _ => none
  | '?' :: 'P' :: '<' :: rest => readName m rest
  | '?' :: '<' :: rest => readName m rest
  | '?' :: rest => readSettings m rest
  | rest => some (.opening m true none, rest)

/-! ## quantifiers -/

/-- the greatest number that can be counted up to: it has 32 bits -/
def maxCount : Nat := 0xffffffff

def readDigits (m : Mode) : (tries : Nat) → List Char → List Char × List Char
  | 0, cs => ([], cs)
  | tries + 1, cs =>
    match cs with
    | c :: rest =>
      if c.isDigit then
        let (ds, rest) := readDigits m tries (m.skip rest)
        (c :: ds, rest)
      else ([], cs)
    | [] => ([], [])

/-- a number with blanks around it, `none` if there are no digits -/
def readCount? (m : Mode) (cs : List Char) : Option Nat × List Char :=
  let (ds, rest) := readDigits m cs.length (cs.dropWhile Text.isBlank)
  let rest := m.skip (rest.dropWhile Text.isBlank)
  let n := ds.foldl (fun n d => 10 * n + (d.toNat - 48)) 0
  (if ds.isEmpty || maxCount < n then none else some n, rest)

/-- a question mark behind a quantifier, which makes no difference -/
def skipLazy : List Char → List Char
  | '?' :: rest => rest
  | cs => cs

/-- a quantifier in braces, from behind the opening one on -/
def readCounted (m : Mode) (cs : List Char) : Option (Item × List Char) := do
  let (first, rest) := readCount? m (m.skip cs)
  let n ← first
  let (q, rest) ← match rest with
    | ',' :: rest =>
      match m.skip rest with
      | '\x7d' :: rest => some (Quantifier.atLeast n, '\x7d' :: rest)
      | rest =>
        let (last, rest) := readCount? m rest
        last.bind fun k => if n ≤ k then some (.between n k, rest) else none
    | rest => some (.exactly n, rest)
  match rest with
  | '\x7d' :: rest => some (.quantifier q, skipLazy (m.skip rest))
  | _ => none

/-! ## items -/

def lineStart (m : Mode) : Assertion := if m.multiline then .lineStart m.crlf else .textStart

def lineEnd (m : Mode) : Assertion := if m.multiline then .lineEnd m.crlf else .textEnd

/-- all characters, ends of lines only where asked for -/
def anyCharacter (m : Mode) : Option CharSet :=
  if !m.unicode then none
  else if m.dotAll then some (.complement .nothing)
  else if m.crlf then some (.complement (.union (.one '\r') (.one '\n')))
  else some (.complement (.one '\n'))

def atomOf (m : Mode) : Escape → Option Pattern
  | .character c => some (.set 0 (m.fold (.one c)))
  | .byte c => (m.one c).map (.set 0 ∘ m.fold)
  | .named k negated => (m.named k negated).map (.set 0)
  | .assertion a => some (.assertion a)

def readItemFrom (m : Mode) (c : Char) (rest : List Char) : Option (Item × List Char) :=
  let atom (p? : Option Pattern) (rest : List Char) := p?.map (Item.atom ·, rest)
  match c with
  | '(' => readOpening m rest
  | ')' => some (.closing, rest)
  | '|' => some (.bar, rest)
  | '[' => (readBracket m rest).map fun (s, rest) => (.atom (.set s.levels s.set), rest)
  | '?' => some (.quantifier .optional, skipLazy rest)
  | '*' => some (.quantifier .star, skipLazy rest)
  | '+' => some (.quantifier .plus, skipLazy rest)
  | '\x7b' => readCounted m rest
  | '\\' => (readEscape m rest).bind fun (e, rest) => atom (atomOf m e) rest
  | '.' => atom ((anyCharacter m).map (.set 0)) rest
  | '^' => some (.atom (.assertion (lineStart m)), rest)
  | '$' => some (.atom (.assertion (lineEnd m)), rest)
  | c => atom (atomOf m (.character c)) rest

/-! ## open groups -/

structure Group where
  noted : Bool
  /-- the settings that hold behind the group -/
  after : Mode
  /-- the branches around the group that are complete, the last one first -/
  branches : List Pattern
  /-- the branch around the group as far as it goes, its last item first -/
  row : List Pattern

structure Reading where
  mode : Mode
  branches : List Pattern
  row : List Pattern
  /-- the groups around, innermost first -/
  outer : List Group
  names : List String

namespace Reading

def sequence : List Pattern → Pattern
  | [] => .empty
  | p :: rest => rest.foldl (fun later p => .seq p later) p

/-- the branches of a choice, the last one first, as one pattern -/
def choice : List Pattern → Pattern
  | [] => .empty
  | p :: rest => rest.foldl (fun later p => .either p later) p

def current (r : Reading) : Pattern := choice (sequence r.row :: r.branches)

def add (r : Reading) (p : Pattern) : Reading := { r with row := p :: r.row }

/-- what an item changes. A setting stands in its row as nothing, and nothing can not be
repeated. -/
def take (r : Reading) : Item → Option Reading
  | .opening mode noted name =>
    if name.any r.names.contains then none
    else some ⟨mode, [], [], ⟨noted, r.mode, r.branches, r.row⟩ :: r.outer, name.toList ++ r.names⟩
  | .closing =>
    match r.outer with
    | [] => none
    | g :: outer => some ⟨g.after, g.branches, .group g.noted r.current :: g.row, outer, r.names⟩
  | .bar => some { r with branches := sequence r.row :: r.branches, row := [] }
  | .setting mode => some { r with mode := mode, row := .empty :: r.row }
  | .quantifier q =>
    match r.row with
    | [] => none
    | .empty :: _ => none
    | p :: row => some { r with row := .repeated q p :: row }
  | .atom p => some (r.add p)

end Reading

def readItems : (tries : Nat) → Reading → List Char → Option Pattern
  | 0, _, _ => none
  | tries + 1, r, cs =>
    match r.mode.skip cs with
    | [] => if r.outer.isEmpty then some r.current else none
    | c :: rest =>
      match readItemFrom r.mode c rest with
      | none => none
      | some (item, rest) =>
        match r.take item with
        | none => none
        | some r => readItems tries r rest

def read? (cs : List Char) : Option Pattern :=
  readItems (cs.length + 1) ⟨{}, [], [], [], []⟩ cs

/-- a Unicode property is named somewhere in the pattern -/
def namesProperty : Pattern → Bool
  | set _ s => s.namesProperty
  | group _ p => p.namesProperty
  | repeated _ p => p.namesProperty
  | seq p q => p.namesProperty || q.namesProperty
  | either p q => p.namesProperty || q.namesProperty
  | _ => false

def maxNesting : Nat := 250

/-- the pattern of a text, if it is well formed and neither too deep nor too large, and if there is
a table for every class in it -/
def compile? (text : String) : Option Pattern :=
  (read? text.toList).filter fun p => !p.namesProperty && p.nesting none ≤ maxNesting && p.fits

end PathQuery.Pattern
