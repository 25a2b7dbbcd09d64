/-!
# Documents

A document is a tree of maps and lists with scalars at its leaves. The entries of a map stand in
the order in which their keys first came; no key stands twice.

* `Document`           the trees;
* `Document.ofPairs`   a map from entries, of which the last under a key counts;
* `Document.lookup`    what stands under a key;
* `Document.children`  the values right below;
* `Document.same`      equality of trees, whatever the order of entries.
-/

namespace PathQuery

inductive Document where
  | null
  | bool (value : Bool)
  | integer (value : Int)
  | float (value : Float)
  | text (value : String)
  | list (items : List Document)
  | map (entries : List (String × Document))

namespace Document

instance : Inhabited Document := ⟨null⟩

/-! ## entries -/

def valueOf (key : String) (entries : List (String × Document)) : Option Document :=
  (entries.find? (·.1 == key)).map Prod.snd

/-- an entry put in place of the one with its key, or else at the end -/
def put (entries : List (String × Document)) (entry : String × Document) :
    List (String × Document) :=
  if entries.any (·.1 == entry.1) then
    entries.map fun e => if e.1 == entry.1 then entry else e
  else entries ++ [entry]

/-- the map of some entries: a key keeps its first place and its last value -/
def ofPairs (entries : List (String × Document)) : Document := map (entries.foldl put [])

def lookup (key : String) : Document → Option Document
  | map entries => valueOf key entries
  | _ => none

def children : Document → List Document
  | list items => items
  | map entries => entries.map Prod.snd
  | _ => []

def typeName : Document → String
  | null => "null"
  | bool _ => "boolean"
  | integer _ => "number"
  | float _ => "number"
  | text _ => "string"
  | list _ => "array"
  | map _ => "object"

/-! ## equality -/

mutual
/-- equality of trees: lists element by element, maps key by key, floats as numbers; an integer
is no float -/
def same : Document → Document → Bool
  | null, null => true
  | bool a, bool b => a == b
  | integer m, integer n => m == n
  | float x, float y => x == y
  | text s, text t => s == t
  | list items, list items' => sameItems items items'
  | map entries, map entries' =>
    entries.length == entries'.length && sameEntries entries entries'
  | _, _ => false

def sameItems : List Document → List Document → Bool
  | [], [] => true
  | d :: rest, d' :: rest' => d.same d' && sameItems rest rest'
  | _, _ => false

/-- each entry has an equal value under its key among the others -/
def sameEntries : List (String × Document) → List (String × Document) → Bool
  | [], _ => true
  | (key, d) :: rest, others =>
    (match valueOf key others with
      | some d' => d.same d'
      | none => false) && sameEntries rest others
end

end Document
end PathQuery
