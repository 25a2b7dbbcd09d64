import PathQuery.Cache.Identities

/-!
# Held documents

A host holds documents under names. A document is alive as long as some name holds it.

* `Holdings.hold`      a new document under a name;
* `Holdings.share`     a second name for a document;
* `Holdings.release`   a name given up.
-/

namespace PathQuery

/-- the documents under their names, with what they hold -/
structure Holdings (α : Type) where
  held : List (String × Instance × α)
  /-- the serial number of the next document -/
  nextSerial : Nat

namespace Holdings

variable {α : Type}

def empty : Holdings α := ⟨[], 0⟩

def find? (h : Holdings α) (name : String) : Option (Instance × α) := h.held.lookup name

def isAlive (h : Holdings α) (serial : Nat) : Bool := h.held.any (·.2.1.serial == serial)

def release (h : Holdings α) (name : String) : Holdings α :=
  { h with held := h.held.filter (·.1 != name) }

def bind (h : Holdings α) (name : String) (d : Instance × α) : Holdings α :=
  let others := h.release name
  { others with held := (name, d) :: others.held }

/-- an address that no held document has, and none in the table -/
def freeAddress (h : Holdings α) (t : Identities) : Nat :=
  let taken := h.held.map (·.2.1.address) ++ t.entries.map (·.document.address)
  taken.foldl max 0 + 1

def create (h : Holdings α) (t : Identities) (content : α) : (Instance × α) × Holdings α :=
  ((⟨h.nextSerial, h.freeAddress t⟩, content), { h with nextSerial := h.nextSerial + 1 })

def hold (h : Holdings α) (t : Identities) (name : String) (content : α) : Holdings α :=
  let (d, h) := h.create t content
  h.bind name d

/-- a second name for the document that `other` holds -/
def share (h : Holdings α) (name other : String) : Holdings α :=
  match h.find? other with
  | some d => h.bind name d
  | none => h

def isLast (h : Holdings α) (name : String) : Bool :=
  match h.find? name with
  | some (d, _) => !(h.release name).isAlive d.serial
  | none => false

end Holdings
end PathQuery
