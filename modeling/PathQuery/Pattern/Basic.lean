import PathQuery.Pattern.CharSet

/-!
# Patterns

The syntax trees of regular expressions.

* `Assertion`    anchors and word boundaries;
* `Quantifier`   how often something is repeated;
* `Pattern`      the patterns;
* `Pattern.nesting`   how deep a pattern is.
-/

namespace PathQuery

/-- what can be asked of a place between words and other characters -/
inductive WordEdge where
  | boundary
  | inside
  | start
  | stop
  | startHalf
  | stopHalf
  deriving DecidableEq

/-- what can be asked of a place in a text -/
inductive Assertion where
  | textStart
  | textEnd
  /-- `crlf` counts a carriage return, alone or before a line feed, as an end of line too -/
  | lineStart (crlf : Bool)
  | lineEnd (crlf : Bool)
  | word (edge : WordEdge) (ascii : Bool)
  deriving DecidableEq

/-- how often something is repeated; in searching, greed makes no difference -/
inductive Quantifier where
  | optional
  | star
  | plus
  | exactly (n : Nat)
  | atLeast (n : Nat)
  | between (m n : Nat)
  deriving DecidableEq

inductive Pattern where
  | empty
  /-- one character of a set; `levels` tells how deep the brackets that spell the set are -/
  | set (levels : Nat) (s : CharSet)
  | assertion (a : Assertion)
  /-- a group; `noted` if it captures -/
  | group (noted : Bool) (p : Pattern)
  | repeated (q : Quantifier) (p : Pattern)
  | seq (p q : Pattern)
  | either (p q : Pattern)

/-! ## assertions -/

def WordEdge.holds (e : WordEdge) (before after : Bool) : Bool :=
  match e with
  | .boundary => before != after
  | .inside => before == after
  | .start => !before && after
  | .stop => before && !after
  | .startHalf => !before
  | .stopHalf => !after

/-- what words are made of, of ASCII only or of every script -/
def isWordPart (ascii : Bool) (c : Char) : Bool :=
  if ascii then Text.isAscii c && Text.isWord c else Text.isWord c

/-- whether an assertion holds between two characters, `none` beyond the text -/
def Assertion.holds (a : Assertion) (before after : Option Char) : Bool :=
  match a with
  | .textStart => before.isNone
  | .textEnd => after.isNone
  | .lineStart crlf =>
    before.isNone || before == some '\n' || (crlf && before == some '\r' && after != some '\n')
  | .lineEnd crlf =>
    after.isNone
      || (if crlf then after == some '\r' || (after == some '\n' && before != some '\r')
          else after == some '\n')
  | .word edge ascii => edge.holds (before.any (isWordPart ascii)) (after.any (isWordPart ascii))

/-! ## quantifiers -/

namespace Quantifier

def least : Quantifier → Nat
  | optional => 0
  | star => 0
  | plus => 1
  | exactly n => n
  | atLeast n => n
  | between m _ => m

/-- the greatest number of repetitions, if there is one -/
def most? : Quantifier → Option Nat
  | optional => some 1
  | star => none
  | plus => none
  | exactly n => some n
  | atLeast _ => none
  | between _ n => some n

def isUnbounded (q : Quantifier) : Bool := q.most?.isNone

end Quantifier

/-! ## nesting -/

namespace Pattern

/-- the rows that a pattern can be the rest of -/
inductive Row where
  | sequence
  | choice
  deriving DecidableEq

/-- how deep a pattern is nested; all parts of one row are equally deep -/
def nesting (row : Option Row) : Pattern → Nat
  | empty => 0
  | set levels _ => levels
  | assertion _ => 0
  | group _ p => 1 + p.nesting none
  | repeated _ p => 1 + p.nesting none
  | seq p q =>
    (if row = some .sequence then 0 else 1) + max (p.nesting none) (q.nesting (some .sequence))
  | either p q =>
    (if row = some .choice then 0 else 1) + max (p.nesting none) (q.nesting (some .choice))

end Pattern
end PathQuery
