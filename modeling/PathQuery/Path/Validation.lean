import PathQuery.Path.Basic
import PathQuery.Token.Basic
import PathQuery.Error
import PathQuery.Filter.Builtin

/-!
# Validation

The semantic checks on a path that has been parsed or put together by hand.

* `Path.validate`     names are not empty, integers are safe, operators can be written;
* `Path.checkDescents`, `Path.checkFilterDepth`   the ceilings.

Each check reports the first offender in reading order.
-/

namespace PathQuery

/-- the integer up to which doubles count without gaps: it has 53 bits -/
def maxSafeInteger : Nat := 0x1fffffffffffff

/-- the fault of an integer too large to be safe -/
def integerFault? (place : IntegerPlace) (n : Int) : Option ValidationFault :=
  if maxSafeInteger < n.natAbs then some (.unsafeInteger place n) else none

def nameFault? (name : String) : Option ValidationFault :=
  if name.isEmpty then some .emptyName else none

def Slice.fault? (s : Slice) : Option ValidationFault :=
  (s.start.bind (integerFault? .sliceStart)).or <|
  (s.stop.bind (integerFault? .sliceEnd)).or <|
  (s.step.bind (integerFault? .sliceStep)).or <|
  if s.step = some 0 then some .zeroStep else none

def Filter.ownFault? : Filter → Option ValidationFault
  | .reference names => names.findSome? nameFault?
  | .binary (.custom name) _ _ =>
    if !isPlainName name || isKeyword name then some (.operatorName name) else none
  | .call name args =>
    if name.isEmpty then some .emptyFunctionName
    else (Builtin.ofName? name).bind fun b =>
      if b.arity = args.length then none else some (.arity name b.arity args.length)
  | _ => none

def Filter.fault? (f : Filter) : Option ValidationFault := f.walk.findSome? Filter.ownFault?

def Step.fault? : Step → Option ValidationFault
  | .property name => nameFault? name
  | .descendants (some name) => nameFault? name
  | .index i => integerFault? .index i
  | .slice s => s.fault?
  | .filter f => f.fault?
  | _ => none

namespace Path

def refuseFirst (fault? : Segment → Option ValidationFault) (segments : List Segment) :
    Except PathError Unit :=
  match segments.findSome? fun s => (fault? s).map (·, s.position) with
  | some (fault, position) => .error (.validation fault (some position))
  | none => .ok ()

/-- refuses more than `limit` `..` nodes, at the first one too many -/
def checkDescents (p : Path) (limit : Nat) : Except PathError Unit :=
  match (p.segments.filter (·.step.isDescendants))[limit]? with
  | some s => .error (.validation (.descents limit) (some s.position))
  | none => .ok ()

def checkFilterDepth (p : Path) (limit : Nat) : Except PathError Unit :=
  refuseFirst
    (fun s => s.step.filter?.bind fun f =>
      if limit < f.depth then some (.filterDepth f.depth limit) else none)
    p.segments

/-- refuses a path that makes no sense or has more than `maxDescents` steps that lead to
descendants -/
def validate (p : Path) (maxDescents : Nat) : Except PathError Unit := do
  refuseFirst (·.step.fault?) p.segments
  p.checkDescents maxDescents

end Path
end PathQuery
