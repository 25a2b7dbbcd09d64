import PathQuery.Pattern.Basic

/-!
# Searching

A pattern is searched for by following all ways through it at once. The places between the
characters of a text are numbered from 0, and a set of places is kept as the number whose bits
they are.

* `Pattern.reach`     the places where a match can end, from those where it can start;
* `Pattern.occurs`    a match starts somewhere.
-/

namespace PathQuery

def CharSet.advance (s : CharSet) : List Char → (places : Nat) → Nat
  | [], _ => 0
  | c :: rest, places =>
    if places = 0 then 0
    else
      let further := 2 * s.advance rest (places / 2)
      if places % 2 = 1 && s.contains c then further + 2 else further

def Assertion.keep (a : Assertion) (before : Option Char) : List Char → (places : Nat) → Nat
  | [], places => if places % 2 = 1 && a.holds before none then 1 else 0
  | c :: rest, places =>
    if places = 0 then 0
    else
      let further := 2 * a.keep (some c) rest (places / 2)
      if places % 2 = 1 && a.holds before (some c) then further + 1 else further

namespace Pattern

/-- `f` done `n` times; once nothing changes, nothing will -/
def times (f : Nat → Nat) : (n : Nat) → (places : Nat) → Nat
  | 0, places => places
  | n + 1, places =>
    let next := f places
    if next = places then places else times f n next

/-- what `f` leads to in at most `n` steps, from the places reached last; a place that was reached
before leads to nothing new -/
def spread (f : Nat → Nat) : (n : Nat) → (reached latest : Nat) → Nat
  | 0, reached, _ => reached
  | n + 1, reached, latest =>
    let all := reached ||| f latest
    if all = reached then reached else spread f n all (all ^^^ reached)

def reach (text : List Char) : Pattern → (places : Nat) → Nat
  | empty, places => places
  | set _ s, places => s.advance text places
  | assertion a, places => a.keep none text places
  | group _ p, places => p.reach text places
  | repeated q p, places =>
    let first := times (p.reach text) q.least places
    let more := match q.most? with
      | some most => most - q.least
      | none => text.length + 1
    spread (p.reach text) more first first
  | seq p q, places => q.reach text (p.reach text places)
  | either p q, places => p.reach text places ||| q.reach text places

def allPlaces : List Char → Nat
  | [] => 1
  | _ :: rest => 2 * allPlaces rest + 1

def occurs (p : Pattern) (text : List Char) : Bool :=
  p.reach text (allPlaces text) != 0

end Pattern
end PathQuery
