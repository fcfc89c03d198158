import ShaderIR.Assoc
import ShaderIR.Handle

/-! The program-order record of memory accesses and block boundaries. An expression graph says
nothing of when a load happens relative to a store, so every load, store and boundary is recorded
when the call is made and replayed in that order. -/
namespace ShaderIR

inductive Boundary where
  | ifBegin (selection : Nat)
  | ifElse (selection : Nat)
  | ifEnd (selection : Nat)
  | loopBegin (index : Nat)
  | loopEnd (index : Nat)
  /-- A jump carries the label of the block that follows it. -/
  | leave (index : Nat) (label : Id)
  | next (index : Nat) (label : Id)
deriving DecidableEq, Repr, Inhabited

inductive Action where
  /-- A load remembers the last store before it to the same location. -/
  | load (place : Place) (value : Handle) (lastStore : Option Nat)
  | store (place : Place) (value : Handle)
  | boundary (boundary : Boundary)
deriving DecidableEq, Repr, Inhabited

structure Event where
  action : Action
  region : Option Nat
deriving DecidableEq, Repr, Inhabited

structure Trace where
  events : Array Event := #[]
  stores : Assoc Place Nat := []
  /-- The regions that are open, innermost first. -/
  regions : List Nat := []
  /-- The region around each region. -/
  parents : Assoc Nat (Option Nat) := []
deriving DecidableEq, Inhabited

namespace Trace

def region (t : Trace) : Option Nat := t.regions.head?

def size (t : Trace) : Nat := t.events.size

def position (t : Trace) : Position := { event := t.size, region := t.region }

def push (t : Trace) (action : Action) : Trace :=
  { t with events := t.events.push { action, region := t.region } }

def pushLoad (t : Trace) (place : Place) (value : Handle) : Trace :=
  t.push (.load place value (t.stores.find? place))

def pushStore (t : Trace) (place : Place) (value : Handle) : Trace :=
  { t.push (.store place value) with stores := t.stores.insert place t.size }

def openRegion (t : Trace) (event : Nat) : Trace :=
  { t with parents := t.parents.insert event t.region, regions := event :: t.regions }

def closeRegion (t : Trace) : Trace := { t with regions := t.regions.tail }

/-- Records a boundary. It belongs to the region that is open before it takes effect. -/
def pushBoundary (t : Trace) (boundary : Boundary) : Trace :=
  let pushed := t.push (.boundary boundary)
  match boundary with
  | .ifBegin _ | .loopBegin _ => pushed.openRegion t.size
  | .ifElse _ => pushed.closeRegion.openRegion t.size
  | .ifEnd _ | .loopEnd _ => pushed.closeRegion
  | .leave _ _ | .next _ _ => pushed

def action? (t : Trace) (event : Nat) : Option Action := t.events[event]?.map Event.action

/-- Whether `outer` is `inner` or a region around it, by walking outwards. A region is recorded
after the one around it, so its number bounds the walk. -/
def enclosesWithin (t : Trace) (outer : Option Nat) : Nat → Option Nat → Bool
  | steps, inner =>
      if inner = outer then true
      else
        match inner, steps with
        | none, _ => false
        | some _, 0 => false
        | some region, steps + 1 =>
            t.enclosesWithin outer steps ((t.parents.find? region).getD none)

def encloses (t : Trace) (outer inner : Option Nat) : Bool :=
  t.enclosesWithin outer (t.size + 1) inner

/-- Whether something built at a position is computed in a block that every path to an event
passes. -/
def dominates (t : Trace) (position : Position) (event : Nat) : Bool :=
  match t.events[event]? with
  | some e => decide (position.event ≤ event) && t.encloses position.region e.region
  | none => false

end Trace

end ShaderIR
