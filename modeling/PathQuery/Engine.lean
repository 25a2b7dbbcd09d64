import PathQuery.Cache.Outputs
import PathQuery.Config
import PathQuery.Path.Printer

/-!
# Engines

An engine compiles a path, looks its output up in the cache, and evaluates it on a miss. What a host
registers can change the outputs, so the cache is cleared then.
-/

namespace PathQuery

structure Engine (E : RegexEngine) where
  config : Config
  registry : Registry
  session : Session E
  outputs : OutputCache

namespace Engine
variable {E : RegexEngine}

def ofConfig (c : Config) : Engine E := ⟨c, .empty, .fresh, .new c.cacheCapacity⟩

def withConfig (c : Config) : Except ConfigFault (Engine E) := do
  c.validate
  pure (ofConfig c)

def default : Engine E := ofConfig .default

/-- the output of a compiled path, from the cache or evaluated; errors are not cached -/
def answer (e : Engine E) (key : CacheKey) (d : Document) (p : Path) :
    Except PathError Output × Engine E :=
  match e.outputs.get key with
  | (some output, outputs) => (.ok output, { e with outputs := outputs })
  | (none, outputs) =>
    let e := { e with outputs := outputs }
    match p.evaluate (e.registry.hooks E) d e.config.evaluate e.session with
    | .ok output session =>
      (.ok output, { e with session := session, outputs := e.outputs.set key output })
    | .error err session => (.error err, { e with session := session })

/-- the output of a path text on a document in memory; `alive` tells which documents are still there
-/
def query (e : Engine E) (alive : Nat → Bool) (d : Instance × Document) (text : String) :
    Except PathError Output × Engine E :=
  match Path.compile e.config.parse text with
  | .error err => (.error err, e)
  | .ok p =>
    let (key, outputs) := e.outputs.keyFor alive d.1 p.text
    { e with outputs := outputs }.answer key d.2 p

def registerOperator (e : Engine E) (name : String) (run : Value → Value → Bool) :
    Engine E :=
  { e with registry := e.registry.registerOperator name run, outputs := e.outputs.clear }

def registerFunction (e : Engine E) (name : String) (f : HostFunction) : Engine E :=
  { e with registry := e.registry.registerFunction name f, outputs := e.outputs.clear }

def clearCache (e : Engine E) : Engine E := { e with outputs := e.outputs.clear }

end Engine
end PathQuery
