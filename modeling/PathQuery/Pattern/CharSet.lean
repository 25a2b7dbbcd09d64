import PathQuery.Text.Classes
import PathQuery.Text.CaseFold

/-!
# Character classes

The sets of characters that patterns name, built from ranges and classes by the operations on sets.

* `CharClass`          classes such as `\d`, and Unicode properties such as `\p{Greek}`;
* `CharSet`            the sets, with membership `contains`;
* `CharSet.folded`     what is in a set up to case;
* `CharSet.ofName?`    the ASCII classes, `[:alpha:]` and the like.
-/

namespace PathQuery

inductive CharClass where
  | digit
  | space
  | word
  /-- a Unicode property, by the name of a general category, of a script or of another property -/
  | property (name : String)
  deriving DecidableEq

inductive SetOperation where
  | intersection
  | difference
  | symmetricDifference
  deriving DecidableEq

inductive CharSet where
  | nothing
  | range (low high : Char)
  | named (c : CharClass)
  | complement (s : CharSet)
  | union (s t : CharSet)
  | combined (op : SetOperation) (s t : CharSet)
  /-- the characters with a variant in the set; `ascii` knows the case of ASCII letters only -/
  | folded (ascii : Bool) (s : CharSet)

namespace CharClass

def isProperty : CharClass → Bool
  | property _ => true
  | _ => false

def contains (k : CharClass) (c : Char) : Bool :=
  match k with
  | digit => Text.isDecimal c
  | space => Text.isBlank c
  | word => Text.isWord c
  -- there are no tables of properties here: what names one does not compile
  | property _ => false

end CharClass

def SetOperation.holds : SetOperation → Bool → Bool → Bool
  | .intersection, a, b => a && b
  | .difference, a, b => a && !b
  | .symmetricDifference, a, b => a != b

namespace CharSet

def contains : CharSet → Char → Bool
  | nothing, _ => false
  | range low high, c => low ≤ c && c ≤ high
  | named k, c => k.contains c
  | complement s, c => !s.contains c
  | union s t, c => s.contains c || t.contains c
  | combined op s t, c => op.holds (s.contains c) (t.contains c)
  | folded ascii s, c => (if ascii then Text.asciiVariants c else Text.variants c).any s.contains

/-- a Unicode property is named somewhere in the set -/
def namesProperty : CharSet → Bool
  | nothing => false
  | range _ _ => false
  | named k => k.isProperty
  | complement s => s.namesProperty
  | union s t => s.namesProperty || t.namesProperty
  | combined _ s t => s.namesProperty || t.namesProperty
  | folded _ s => s.namesProperty

def one (c : Char) : CharSet := range c c

def ofRanges (rs : List (Char × Char)) : CharSet :=
  rs.foldr (fun r s => union (range r.1 r.2) s) nothing

/-- the ASCII part of a class; Unicode properties have none -/
def ofClassInAscii? : CharClass → Option CharSet
  | .digit => some (ofRanges [('0', '9')])
  | .space => some (ofRanges [('\t', '\r'), (' ', ' ')])
  | .word => some (ofRanges [('0', '9'), ('A', 'Z'), ('a', 'z'), ('_', '_')])
  | .property _ => none

def ofName? (name : String) : Option CharSet :=
  let set (rs : List (Char × Char)) := some (ofRanges rs)
  match name with
  | "alnum" => set [('0', '9'), ('A', 'Z'), ('a', 'z')]
  | "alpha" => set [('A', 'Z'), ('a', 'z')]
  | "ascii" => set [('\x00', '\x7f')]
  | "blank" => set [('\t', '\t'), (' ', ' ')]
  | "cntrl" => set [('\x00', '\x1f'), ('\x7f', '\x7f')]
  | "digit" => set [('0', '9')]
  | "graph" => set [('!', '~')]
  | "lower" => set [('a', 'z')]
  | "print" => set [(' ', '~')]
  | "punct" => set [('!', '/'), (':', '@'), ('[', (Char.ofNat 96)), ('\x7b', '~')]
  | "space" => set [('\t', '\r'), (' ', ' ')]
  | "upper" => set [('A', 'Z')]
  | "word" => set [('0', '9'), ('A', 'Z'), ('a', 'z'), ('_', '_')]
  | "xdigit" => set [('0', '9'), ('A', 'F'), ('a', 'f')]
  | _ => none

end CharSet
end PathQuery
