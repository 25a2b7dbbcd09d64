import PathQuery.Engine
import PathQuery.Proofs.Cache.Identities
import PathQuery.Proofs.Filter.Sessions

/-!
# An engine and its host

A host holds documents under names, asks the engine about them, and registers operators and
functions. It may keep a new document wherever no document is kept that it holds, or that the table
of the engine still knows.

* `World`, `Event`    an engine with its host, and what the host does;
* `World.run`         one thing after the other, if all of it can be done;
* `registered`        what the host has registered by then;
* `Config.answer`     the answer of an engine without a cache.
-/

namespace PathQuery
variable {E : RegexEngine}

structure World (E : RegexEngine) where
  engine : Engine E
  host : Holdings Document

inductive Event where
  /-- a new document, kept at an address, under a name -/
  | hold (name : String) (address : Nat) (content : Document)
  /-- a second name for the document under another name -/
  | share (name other : String)
  | release (name : String)
  /-- a query about the document under a name -/
  | query (name text : String)
  | registerOperator (name : String) (run : Value → Value → Bool)
  | registerFunction (name : String) (f : HostFunction)
  | clearCache

def Event.register (r : Registry) : Event → Registry
  | registerOperator name run => r.registerOperator name run
  | registerFunction name f => r.registerFunction name f
  | _ => r

/-- what is registered after some events, if nothing was before -/
def registered (events : List Event) : Registry := events.foldl Event.register .empty

/-- the answer that is worked out from nothing but the settings and what is registered -/
def Config.answer (E : RegexEngine) (c : Config) (r : Registry) (d : Document) (text : String) :
    Except PathError Output := do
  let p ← Path.compile c.parse text
  (p.evaluate (r.hooks E) d c.evaluate).alone

namespace World

def start (e : Engine E) : World E := ⟨e, .empty⟩

/-- the numbers that the engine has given to documents -/
def ids (w : World E) : Identities := w.engine.outputs.ids

def isFree (w : World E) (address : Nat) : Bool :=
  w.host.documents.all (·.1.address != address) && w.ids.entries.all (·.document.address != address)

/-- a query about a document that the host holds -/
def query (w : World E) (d : Instance × Document) (text : String) :
    Except PathError Output × Engine E :=
  w.engine.query w.host.isAlive d text

def hold (w : World E) (name : String) (address : Nat) (content : Document) : World E :=
  let host := { w.host with nextSerial := w.host.nextSerial + 1 }
  { w with host := host.bind name (⟨w.host.nextSerial, address⟩, content) }

/-- what becomes of the world if the host does something that it can do -/
def step (w : World E) : Event → Option (World E)
  | .hold name address content =>
    if w.isFree address then some (w.hold name address content) else none
  | .share name other => some { w with host := w.host.share name other }
  | .release name => some { w with host := w.host.release name }
  | .query name text =>
    (w.host.find? name).map fun d => { w with engine := (w.query d text).2 }
  | .registerOperator name run => some { w with engine := w.engine.registerOperator name run }
  | .registerFunction name f => some { w with engine := w.engine.registerFunction name f }
  | .clearCache => some { w with engine := w.engine.clearCache }

def run : World E → List Event → Option (World E)
  | w, [] => some w
  | w, event :: events => (w.step event).bind (·.run events)

/-! ## addresses -/

theorem isFree_iff (w : World E) (address : Nat) :
    w.isFree address = true ↔ (∀ d ∈ w.host.documents, d.1.address ≠ address) ∧
      ∀ e ∈ w.ids.entries, e.document.address ≠ address := by
  rw [isFree, Bool.and_eq_true, List.all_eq_true, List.all_eq_true]
  simp only [bne_iff_ne]

theorem isFree_freeAddress (w : World E) : w.isFree (w.host.freeAddress w.ids) = true := by
  have hle : ∀ n ∈ w.host.held.map (·.2.1.address) ++ w.ids.entries.map (·.document.address),
      n ≠ w.host.freeAddress w.ids := by
    intro n hn
    have hmax := (Holdings.le_foldl_max _ 0).2 n hn
    exact Nat.ne_of_lt (Nat.lt_succ_of_le hmax)
  rw [isFree_iff]
  constructor
  · intro d hd
    obtain ⟨x, hx, rfl⟩ := List.mem_map.mp hd
    exact hle _ (List.mem_append_left _ (List.mem_map_of_mem hx))
  · intro e he
    exact hle _ (List.mem_append_right _ (List.mem_map_of_mem he))

/-- a host that leaves the choice of addresses to `Holdings.hold` can always go on -/
theorem step_hold (w : World E) (name : String) (content : Document) :
    w.step (.hold name (w.host.freeAddress w.ids) content) =
      some { w with host := w.host.hold w.ids name content } := by
  rw [step, if_pos w.isFree_freeAddress]
  rfl

end World
end PathQuery
