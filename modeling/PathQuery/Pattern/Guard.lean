import PathQuery.Error

/-!
# The pattern guard

Against catastrophic backtracking a regex of a filter may not repeat a group with an unbounded
quantifier in it, nest its groups too deep, or be too long. The guard sees this on the characters,
before the regex is compiled.

* `bracketLength`    how far a character class reaches;
* `guardFrom`        the fault in the rest of a regex;
* `guardPattern`     refuses a regex with a fault.
-/

namespace PathQuery.Pattern

/-- how many characters there are up to the `]` that closes a character class, that one included -/
def bracketBody : List Char → Nat
  | [] => 0
  | '\\' :: _ :: rest => bracketBody rest + 2
  | c :: rest => if c = ']' then 1 else bracketBody rest + 1

/-- the same from behind the opening bracket on, where a caret and then a closing bracket may
stand for themselves -/
def bracketLength (cs : List Char) : Nat :=
  match cs with
  | '^' :: ']' :: rest => bracketBody rest + 2
  | '^' :: rest => bracketBody rest + 1
  | ']' :: rest => bracketBody rest + 1
  | rest => bracketBody rest

/-- how many characters there are up to the first closing brace, that brace included, and whether
a comma stands right before it -/
def braceLength? (before : Char) : List Char → Option (Nat × Bool)
  | [] => none
  | c :: rest =>
    if c = '\x7d' then some (1, before == ',')
    else (braceLength? c rest).map fun (n, comma) => (n + 1, comma)

/-- marks the innermost open group: an unbounded quantifier stands in it -/
def noteUnbounded : List Bool → List Bool
  | [] => []
  | _ :: outer => true :: outer

def startsRepetition : List Char → Bool
  | [] => false
  | c :: _ => c == '+' || c == '*' || c == '\x7b'

/-- the fault in the rest of a pattern, if there is one. `groups` tells of the open groups,
innermost first, whether an unbounded quantifier stands in them; the next `skip` characters have
been dealt with. -/
def guardFrom (groups : List Bool) (skip : Nat) : List Char → Option PatternFault
  | [] => none
  | c :: rest =>
    match skip with
    | skip + 1 => guardFrom groups skip rest
    | 0 =>
      if c = '\\' then guardFrom groups 1 rest
      else if c = '[' then guardFrom groups (bracketLength rest) rest
      else if c = '(' then
        if maxGroupNesting ≤ groups.length then some .tooDeep
        else guardFrom (false :: groups) 0 rest
      else if c = ')' then
        match groups with
        | true :: outer =>
          if startsRepetition rest then some .nestedRepetition
          else guardFrom (noteUnbounded outer) 0 rest
        | false :: outer => guardFrom outer 0 rest
        | [] => guardFrom [] 0 rest
      else if c = '+' ∨ c = '*' then guardFrom (noteUnbounded groups) 0 rest
      else if c = '\x7b' then
        match braceLength? c rest with
        | some (n, true) => guardFrom (noteUnbounded groups) n rest
        | some (n, false) => guardFrom groups n rest
        | none => guardFrom groups 0 rest
      else guardFrom groups 0 rest

/-- the fault of a pattern, if there is one -/
def guardFault? (cs : List Char) : Option PatternFault :=
  if maxPatternLength < cs.length then some .tooLong else guardFrom [] 0 cs

def guardPattern (text : String) : Except PathError Unit :=
  match guardFault? text.toList with
  | some fault => .error (.security (.pattern fault))
  | none => .ok ()

end PathQuery.Pattern
