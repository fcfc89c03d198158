import ShaderIR.Fault
import ShaderIR.Handle

/-! Memory locations: variables, and access chains that lead from one location to a part of it. -/
namespace ShaderIR

inductive Link where
  | member (index : Word)
  | index (value : Handle)
deriving DecidableEq, Repr, Inhabited

inductive Origin where
  | root
  | chain (parent : Place) (link : Link)
deriving DecidableEq, Repr, Inhabited

structure PlaceData where
  id : Id
  storage : Storage
  pointee : Ty
  origin : Origin
  /-- 1 for a variable, one more than its parent for a chain. -/
  depth : Nat
  writable : Bool
  position : Position
  /-- Whether a load or a store goes through this location. -/
  accessed : Bool := false
deriving DecidableEq, Inhabited

def PlaceData.ty (data : PlaceData) : Ty := .pointer data.storage data.pointee

def PlaceData.isChain (data : PlaceData) : Bool :=
  match data.origin with
  | .root => false
  | .chain _ _ => true

/-- All locations of a draft. Numbers are never given out twice: clearing the table moves its first
number past all numbers given out before. -/
structure Places where
  base : Nat := 0
  entries : Array PlaceData := #[]
deriving DecidableEq, Inhabited

namespace Places

def find? (ps : Places) (p : Place) : Option PlaceData :=
  if p.index < ps.base then none else ps.entries[p.index - ps.base]?

def get (ps : Places) (p : Place) : Except Fault PlaceData :=
  match ps.find? p with
  | some data => .ok data
  | none => .error (.unknownPlace p.index)

def next (ps : Places) : Place := ⟨ps.base + ps.entries.size⟩

def push (ps : Places) (data : PlaceData) : Places :=
  { ps with entries := ps.entries.push data }

def markAccessed (ps : Places) (p : Place) : Places :=
  match ps.find? p with
  | some data =>
      { ps with
        entries := ps.entries.setIfInBounds (p.index - ps.base) { data with accessed := true } }
  | none => ps

/-- All chains, in the order in which they were made. -/
def chains (ps : Places) : List Place :=
  ps.entries.toList.zipIdx.filterMap fun (data, index) =>
    if data.isChain then some ⟨ps.base + index⟩ else none

/-- Follows parents up to the variable, collecting links so that the outermost comes first. The
depth of a location bounds the walk. -/
def walk (ps : Places) : Nat → Place → List Link → Except Fault (Place × List Link)
  | 0, p, _ => .error (.unknownPlace p.index)
  | steps + 1, p, links => do
      match (← ps.get p).origin with
      | .root => return (p, links)
      | .chain parent link => walk ps steps parent (link :: links)

/-- The variable of a location and the links that lead from it to the location. -/
def flatten (ps : Places) (p : Place) : Except Fault (Place × List Link) := do
  ps.walk (← ps.get p).depth p []

def clear (ps : Places) : Places := { base := ps.base + ps.entries.size }

end Places

def Ty.member (ty : Ty) (index : Word) : Except Fault Ty :=
  match ty with
  | .struct members =>
      match members[index.toNat]? with
      | some member => .ok member
      | none => .error (.indexOutOfBounds index (UInt32.ofNat members.length))
  | _ => .error (.notAggregate ty)

def Ty.element (ty : Ty) : Except Fault Ty :=
  match ty.element? with
  | some element => .ok element
  | none => .error (.notAggregate ty)

end ShaderIR
