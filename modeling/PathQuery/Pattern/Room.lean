import PathQuery.Pattern.Shape
import PathQuery.Text.Encoding

/-!
# The room that patterns take

A pattern is searched for by two automata on the bytes of a text, one that goes forward and one that
goes backward. Their states, the ways from a fork and the byte ranges of a state take room, and a
pattern fits if each of the two automata does.

* `Room`               the bytes that the two automata take;
* `Room.ofRanges`      the room of one character in some ranges;
* `Room.ofTexts`       the room of a choice of texts, which share their beginnings;
* `Shape.room`         the room of a shape;
* `Pattern.fits`       whether a pattern fits.
-/

namespace PathQuery

structure Room where
  forward : Nat
  backward : Nat
  deriving DecidableEq

namespace Room

def both (n : Nat) : Room := ⟨n, n⟩

def add (r s : Room) : Room := ⟨r.forward + s.forward, r.backward + s.backward⟩

def times (n : Nat) (r : Room) : Room := ⟨n * r.forward, n * r.backward⟩

def state : Nat := 32

/-- the bytes of a state from which `n` ways lead without reading -/
def fork (n : Nat) : Nat := state + 4 * n

/-- the bytes of a state that reads a byte in one of `n` ranges -/
def reader (n : Nat) : Nat := state + 8 * n

/-! ## sets -/

/-- the rows behind each beginning; rows with one beginning stand together -/
def behindHeads (rows : List Text.ByteRow) : List (List Text.ByteRow) :=
  (rows.splitBy (fun r s => r.head? == s.head?)).map fun group => group.map List.tail

/-- what can still be ahead, as rows, wherever a byte is read in rows of at most `depth` bytes -/
def stages : (depth : Nat) → List Text.ByteRow → List (List Text.ByteRow)
  | 0, _ => []
  | depth + 1, rows =>
    if rows.all List.isEmpty then []
    else rows :: (behindHeads rows).flatMap (stages depth)

/-- the room of one character in some ranges. The forward automaton has one state for all places
with the same rows ahead; the backward one has a way into every row, and shares states between rows
that begin alike. -/
def ofRanges (ranges : List (Nat × Nat)) : Room :=
  if ranges.all (·.2 < 128) then both (state + reader ranges.length)
  else
    let rows := ranges.flatMap fun (low, high) => Text.byteRows low high
    let stages := stages 4 rows
    let choices (rows : List Text.ByteRow) : Nat := (behindHeads rows).length
    ⟨state + stages.eraseDups.foldl (fun n rows => n + reader (choices rows)) 0,
      state + fork rows.length + stages.foldl (fun n rows => n + state * choices rows) 0⟩

/-! ## choices of texts -/

/-- the words before each end of a word, in their order, and those behind the last end; a second end
where nothing has begun yet says nothing new -/
def untilEnds : (begun : Bool) → (ended : Bool) → List (List Nat) → List (List (List Nat))
  | _, _, [] => [[]]
  | begun, ended, [] :: words =>
    if !begun && ended then untilEnds begun ended words else [] :: untilEnds begun true words
  | _, ended, w :: words =>
    match untilEnds true ended words with
    | [] => [[w]]
    | ws :: more => (w :: ws) :: more

def behindByte (b : Nat) (words : List (List Nat)) : List (List Nat) :=
  words.filterMap fun
    | [] => none
    | c :: w => if c = b then some w else none

/-- the bytes of the states that read one of some words of at most `depth` bytes. Words that begin
alike share states, as far as no word between them ends there. -/
def ofWords : (depth : Nat) → List (List Nat) → Nat
  | 0, _ => 0
  | depth + 1, words =>
    if words.all List.isEmpty then 0
    else
      let groups := untilEnds false false words
      let heads (ws : List (List Nat)) : List Nat := (ws.filterMap List.head?).eraseDups
      let ways := (groups.filter (!·.isEmpty)).length + (groups.length - 1)
      groups.foldl (fun n ws =>
        let firsts := heads ws
        let here := match firsts.length with
          | 0 => 0
          | 1 => state
          | k => reader k
        firsts.foldl (fun n b => n + ofWords depth (behindByte b ws)) (n + here)) (fork ways)

def ofTexts (texts : List (List Char)) : Room :=
  let words := texts.map fun cs => cs.flatMap Text.bytes
  let longest := words.foldl (fun n w => max n w.length) 0
  let of (words : List (List Nat)) : Nat := state + ofWords longest words
  ⟨of words, of (words.map List.reverse)⟩

end Room

namespace Shape

open Room (state fork reader)

/-! ## shapes -/

def text? : Shape → Option (List Char)
  | text cs => some cs
  | _ => none

/-- the room of a repetition of what takes `r`. Copies are written out as often as they must occur
and, where they are counted, as often as they may; what may match nothing takes a state more to be
left out. -/
def repeatedRoom (least : Nat) (most? : Option Nat) (isSolid : Bool) (r : Room) : Room :=
  let looped := r.add (.both (fork 2))
  match least, most? with
  | 0, none => if isSolid then looped else looped.add (.both (fork 2 + state))
  | least, none => (r.times (least - 1)).add looped
  | 0, some 1 => looped.add (.both state)
  | least, some most =>
    if least = most then r.times least
    else
      (if least = 0 then .both state else r.times least).add
        ((looped.times (most - least)).add (.both state))

mutual
def room : Shape → Room
  | empty => .both state
  | text cs => .both (state * (cs.flatMap Text.bytes).length)
  | set ranges => .ofRanges ranges
  | assertion _ => .both state
  | group p => p.room.add ⟨2 * state, 0⟩
  | repeated least most? p => repeatedRoom least most? p.isSolid p.room
  | row ps => roomOfAll ps
  | choice ps =>
    match ps.mapM text? with
    | some texts => .ofTexts texts
    | none => (roomOfAll ps).add (.both (fork ps.length + state))

def roomOfAll : List Shape → Room
  | [] => .both 0
  | p :: ps => p.room.add (roomOfAll ps)
end

mutual
/-- every match begins at a place with the assertion, as can be seen from what stands in front -/
def begins (a : Assertion) : Shape → Bool
  | assertion b => a == b
  | group p => p.begins a
  | repeated least _ p => 0 < least && p.begins a
  | row ps => someBegins a ps
  | choice ps => allBegin a ps
  | _ => false

def someBegins (a : Assertion) : List Shape → Bool
  | [] => false
  | p :: ps => p.begins a || (p.isBlank && someBegins a ps)

def allBegin (a : Assertion) : List Shape → Bool
  | [] => true
  | p :: ps => p.begins a && allBegin a ps
end

mutual
/-- every match ends at a place with the assertion, as can be seen from what stands at the end -/
def ends (a : Assertion) : Shape → Bool
  | assertion b => a == b
  | group p => p.ends a
  | repeated least _ p => 0 < least && p.ends a
  | row ps => (someEnds a ps).1
  | choice ps => allEnd a ps
  | _ => false

/-- whether a row ends so, and whether nothing in it has characters -/
def someEnds (a : Assertion) : List Shape → Bool × Bool
  | [] => (false, true)
  | p :: ps =>
    let (found, blank) := someEnds a ps
    (found || (blank && p.ends a), blank && p.isBlank)

def allEnd (a : Assertion) : List Shape → Bool
  | [] => true
  | p :: ps => p.ends a && allEnd a ps
end

/-- the room of a whole pattern. Unless it is tied to an end of the text, a loop over all bytes
stands in front, so that it is found anywhere; the forward automaton notes where a match begins and
ends. -/
def totalRoom (p : Shape) : Room :=
  let loop : Nat := state + reader 1 + fork 2
  let front (isTied : Bool) : Nat := if isTied then state else loop
  (p.room.add ⟨front (p.begins .textStart), front (p.ends .textEnd)⟩).add
    ⟨2 * state + state, state⟩

end Shape

/-! ## patterns -/

def CharClass.pieces : CharClass → Nat
  | .digit => 71
  | .space => 10
  | .word => 796
  | .property _ => 0

/-- a number that the ranges of a set do not exceed -/
def CharSet.pieces : CharSet → Nat
  | nothing => 1
  | range _ _ => 1
  | named k => k.pieces
  | complement s => s.pieces + 1
  | union s t => s.pieces + t.pieces
  | combined _ s t => s.pieces + t.pieces
  | folded _ s => s.pieces + 3000

namespace Pattern

/-- a number that the parts of a pattern do not exceed with all repetitions written out, where each
range of a set is a part -/
def pieces : Pattern → Nat
  | empty => 1
  | set _ s => s.pieces
  | assertion _ => 1
  | group _ p => p.pieces + 1
  | repeated q p => max q.least (q.most?.getD 1) * (p.pieces + 1) + 1
  | seq p q => p.pieces + q.pieces
  | either p q => p.pieces + q.pieces + 1

/-- the bytes that an automaton may take: ten mebibytes -/
def maxRoom : Nat := 10 * 1024 * 1024

/-- more bytes than a part of a pattern takes -/
def pieceRoom : Nat := 2048

/-- whether both automata of a pattern fit. A pattern of few parts does without a closer look. -/
def fits (p : Pattern) : Bool :=
  pieceRoom * p.pieces ≤ maxRoom ||
    let room := p.shape.totalRoom
    room.forward ≤ maxRoom && room.backward ≤ maxRoom

end Pattern
end PathQuery
