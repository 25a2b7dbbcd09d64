import PathQuery.Pattern.Basic

/-!
# Escapes in patterns

What a backslash and the characters behind it stand for, in brackets and outside of them.

* `Mode`           the flags that a pattern can change for a stretch of itself;
* `Mode.skip`      the blanks and comments that the verbose mode leaves out;
* `readProperty`   a Unicode class such as `\pL` or `\p{Greek}`;
* `readEscape`     an escape from behind its backslash on.

A reader takes characters from the front and gives what they stand for and the rest; `none` is a
pattern that is not well formed.
-/

namespace PathQuery.Pattern

/-- the settings of a stretch of a pattern -/
structure Mode where
  caseless : Bool := false
  multiline : Bool := false
  dotAll : Bool := false
  crlf : Bool := false
  verbose : Bool := false
  unicode : Bool := true
  deriving DecidableEq

/-- blanks and comments left out; `inComment` tells whether a comment has begun -/
def skipVerbose (inComment : Bool) : List Char → List Char
  | [] => []
  | c :: rest =>
    if inComment then skipVerbose (c != '\n') rest
    else if Text.isBlank c then skipVerbose false rest
    else if c = '#' then skipVerbose true rest
    else c :: rest

/-- what stands at the front when blanks and comments are left out -/
def Mode.skip (m : Mode) (cs : List Char) : List Char :=
  if m.verbose then skipVerbose false cs else cs

inductive Escape where
  | character (c : Char)
  /-- the character with a code of two digits; outside Unicode that is the code of a byte, and only
  the bytes of ASCII are characters -/
  | byte (c : Char)
  | named (k : CharClass) (negated : Bool)
  | assertion (a : Assertion)

/-! ## characters by code -/

def hexValue? (c : Char) : Option Nat :=
  if c.isDigit then some (c.toNat - 48)
  else if 'a' ≤ c ∧ c ≤ 'f' then some (c.toNat - 87)
  else if 'A' ≤ c ∧ c ≤ 'F' then some (c.toNat - 55)
  else none

/-- the character with a code, if it is the code of one -/
def ofCode? (n : Nat) : Option Char := if n.isValidChar then some (Char.ofNat n) else none

/-- a number of exactly `count` hexadecimal digits -/
def readHexDigits (m : Mode) : (count value : Nat) → List Char → Option (Nat × List Char)
  | 0, value, cs => some (value, cs)
  | count + 1, value, cs =>
    match m.skip cs with
    | [] => none
    | c :: rest => (hexValue? c).bind fun d => readHexDigits m count (16 * value + d) rest

/-- a number of hexadecimal digits up to a closing brace; `some` value once there was a digit -/
def readBraced (m : Mode) :
    (tries : Nat) → (value : Option Nat) → List Char → Option (Nat × List Char)
  | 0, _, _ => none
  | tries + 1, value, cs =>
    match m.skip cs with
    | [] => none
    | '\x7d' :: rest => value.map (·, rest)
    | c :: rest =>
      (hexValue? c).bind fun d => readBraced m tries (some (16 * value.getD 0 + d)) rest

/-- a character by its code: `count` digits, or any number of them in braces -/
def readCode (m : Mode) (count : Nat) (cs : List Char) : Option (Escape × List Char) :=
  match m.skip cs with
  | '\x7b' :: rest => do
    let (n, rest) ← readBraced m cs.length none rest
    let c ← ofCode? n
    some (.character c, rest)
  | cs => do
    let (n, rest) ← readHexDigits m count 0 cs
    let c ← ofCode? n
    some (if count = 2 then .byte c else .character c, rest)

/-! ## edges of words -/

def readEdgeName (m : Mode) : (tries : Nat) → List Char → List Char × List Char
  | 0, cs => ([], cs)
  | tries + 1, cs =>
    match cs with
    | c :: rest =>
      if c.isAlpha || c == '-' then
        let (name, rest) := readEdgeName m tries (m.skip rest)
        (c :: name, rest)
      else ([], cs)
    | [] => ([], [])

def edgeOfName? (name : String) : Option WordEdge :=
  match name with
  | "start" => some .start
  | "end" => some .stop
  | "start-half" => some .startHalf
  | "end-half" => some .stopHalf
  | _ => none

/-- an edge of a word, from behind `\b` on: a brace and a letter begin the name of a special one,
any other brace is for the repetition that it begins -/
def readEdge (m : Mode) (cs : List Char) : Option (Escape × List Char) :=
  let edge (e : WordEdge) (rest : List Char) := some (Escape.assertion (.word e (!m.unicode)), rest)
  match cs with
  | '\x7b' :: inner =>
    match m.skip inner with
    | [] => none
    | c :: _ =>
      if c.isAlpha || c == '-' then
        let (name, rest) := readEdgeName m inner.length (m.skip inner)
        match rest with
        | '\x7d' :: rest => (edgeOfName? (String.ofList name)).bind (edge · rest)
        | _ => none
      else edge .boundary cs
  | _ => edge .boundary cs

/-! ## Unicode properties -/

/-- what the names of properties are made of, with the signs between a property and its value. In
looking a name up, what is not ASCII in it is left out. -/
def isPropertyPart (c : Char) : Bool :=
  c.isAlphanum || !Text.isAscii c || " _-.=:!".toList.contains c

/-- the name of a property, up to its closing brace -/
def readPropertyName (m : Mode) : (tries : Nat) → List Char → Option (List Char × List Char)
  | 0, _ => none
  | tries + 1, cs =>
    match m.skip cs with
    | [] => none
    | '\x7d' :: rest => some ([], rest)
    | c :: rest =>
      if isPropertyPart c then
        (readPropertyName m tries rest).map fun (name, rest) => (c :: name, rest)
      else none

/-- a class by property, from behind `\p` or `\P` on: one letter, or a name in braces -/
def readProperty (m : Mode) (negated : Bool) (cs : List Char) : Option (Escape × List Char) :=
  let named (name rest : List Char) :=
    some (Escape.named (.property (String.ofList name)) negated, rest)
  match m.skip cs with
  | [] => none
  | '\x7b' :: rest => (readPropertyName m cs.length rest).bind fun (name, rest) => named name rest
  | c :: rest => if c.isAlpha then named [c] rest else none

/-! ## escapes -/

/-- the characters with a meaning of their own somewhere in a pattern -/
def isMeta (c : Char) : Bool := "\\.+*?()|[]\x7b\x7d^$#&-~".toList.contains c

/-- the characters that a backslash leaves as they are: all of ASCII but letters, digits and
angle brackets -/
def isSelfEscaped (c : Char) : Bool :=
  isMeta c || (Text.isAscii c && !c.isAlphanum && c != '<' && c != '>')

/-- an escape from behind its backslash on. Numbers would refer back to groups, which patterns
cannot do. -/
def readEscape (m : Mode) : List Char → Option (Escape × List Char)
  | [] => none
  | c :: rest =>
    let character (code : Nat) := some (Escape.character (Char.ofNat code), rest)
    let named (k : CharClass) (negated : Bool) := some (Escape.named k negated, rest)
    let edge (e : WordEdge) := some (Escape.assertion (.word e (!m.unicode)), rest)
    match c with
    | 'x' => readCode m 2 rest
    | 'u' => readCode m 4 rest
    | 'U' => readCode m 8 rest
    | 'd' => named .digit false
    | 'D' => named .digit true
    | 's' => named .space false
    | 'S' => named .space true
    | 'w' => named .word false
    | 'W' => named .word true
    | 'p' => readProperty m false rest
    | 'P' => readProperty m true rest
    | 'a' => character 7
    | 'f' => character 12
    | 't' => character 9
    | 'n' => character 10
    | 'r' => character 13
    | 'v' => character 11
    | 'A' => some (.assertion .textStart, rest)
    | 'z' => some (.assertion .textEnd, rest)
    | 'b' => readEdge m rest
    | 'B' => edge .inside
    | '<' => edge .start
    | '>' => edge .stop
    | c => if isSelfEscaped c then some (.character c, rest) else none

/-! ## sets -/

def Mode.hasMember (m : Mode) (c : Char) : Bool := m.unicode || Text.isAscii c

def Mode.one (m : Mode) (c : Char) : Option CharSet :=
  if m.hasMember c then some (.one c) else none

/-- what a set is up to case, where case makes no difference -/
def Mode.fold (m : Mode) (s : CharSet) : CharSet :=
  if m.caseless then .folded (!m.unicode) s else s

/-- what is not in a set; outside Unicode that would not be characters -/
def Mode.negate (m : Mode) (negated : Bool) (s : CharSet) : Option CharSet :=
  if negated then if m.unicode then some (.complement s) else none else some s

/-- the set of a class. The classes with a letter of their own hold all variants of what they hold,
a property need not. -/
def Mode.named (m : Mode) (k : CharClass) (negated : Bool) : Option CharSet :=
  if m.unicode then m.negate negated (if k.isProperty then m.fold (.named k) else .named k)
  else (CharSet.ofClassInAscii? k).bind (m.negate negated)

end PathQuery.Pattern
