import PathQuery.Cache.Key

/-!
# Identities of documents

A document instance is told from all others, equal ones too, by an id that it gets on first use.
The side table knows instances by their addresses and does not keep them alive. A host gives no
address twice while it is in the table or in use; the entry of a released document stays until the
table is purged.

* `Instance`             a document in memory;
* `Identities.idOf`      the id of a document;
* `Identities.purge`     the entries of released documents removed.
-/

namespace PathQuery

/-- a document in memory: which one it is, and where it is kept -/
structure Instance where
  serial : Nat
  address : Nat
  deriving DecidableEq

structure Identities.Entry where
  document : Instance
  id : DocumentId

structure Identities where
  entries : List Identities.Entry
  /-- the id of the next document -/
  nextId : Nat
  /-- the size at which the table is purged before it grows -/
  purgeAt : Nat

namespace Identities

/-- a table smaller than this is not purged -/
def purgeFloor : Nat := 64

def empty : Identities := ⟨[], 1, purgeFloor⟩

/-- how many documents are in the table, those not yet purged included -/
def size (t : Identities) : Nat := t.entries.length

def isEmpty (t : Identities) : Bool := t.entries.isEmpty

def find? (t : Identities) (address : Nat) : Option Entry :=
  t.entries.find? (·.document.address == address)

/-- drops the entries of released documents; `alive` tells which are not -/
def purge (t : Identities) (alive : Nat → Bool) : Identities :=
  { t with entries := t.entries.filter (alive ·.document.serial) }

/-- room made for one more entry: a table that has grown to its limit is purged, and the limit set
to twice what is left -/
def makeRoom (t : Identities) (alive : Nat → Bool) : Identities :=
  if t.purgeAt ≤ t.size then
    let purged := t.purge alive
    { purged with purgeAt := max (purged.size * 2) purgeFloor }
  else t

/-- an entry for a document that has none; one left at its address is replaced -/
def assign (t : Identities) (d : Instance) : DocumentId × Identities :=
  let id := ⟨t.nextId⟩
  let others := t.entries.filter (·.document.address != d.address)
  (id, { t with entries := ⟨d, id⟩ :: others, nextId := t.nextId + 1 })

/-- the id of a document, assigned on first use -/
def idOf (t : Identities) (alive : Nat → Bool) (d : Instance) : DocumentId × Identities :=
  match (t.find? d.address).filter (alive ·.document.serial) with
  | some e => (e.id, t)
  | none => (t.makeRoom alive).assign d

end Identities
end PathQuery
