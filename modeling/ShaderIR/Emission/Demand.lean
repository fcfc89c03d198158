import ShaderIR.Draft.Expression
import ShaderIR.Emission.Declaration

/-! Writing values, events and locations on demand. A value is written where it is first needed: its
operands come first, then its own instruction, and its id is noted so that it is written once. Loads
are tied to their event, and a load is never written before the last store to its location.

Each of the three kinds can ask for the others. One level of asking is written as a function of the
level below, and `demand` stacks the levels; everything that is asked for was built before what
asks, so the ids taken when a draft was built bound the number of levels that a compilation can
need. -/
namespace ShaderIR

/-- What can be asked for: a value, an event or a location. -/
structure Demand where
  value : Handle → Emit Id
  event : Nat → Emit Unit
  place : Place → Emit Id

namespace Emit

variable (d : Draft) (below : Demand)

def inputValue (node : Node) (slot : Nat) : Emit Id := do
  match d.inputs[slot]? with
  | none => throw (.unknownInput slot)
  | some input =>
      let source ← below.place input.place
      let type ← type node.ty
      write (.load type node.id source)
      return node.id

def lookupValue (node : Node) (source index : Handle) : Emit Id := do
  let sourceTy ← check (d.graph.typeOf source)
  let type ← type node.ty
  if sourceTy.isTexture then
    let image ← below.value source
    let coordinates ← below.value index
    let lod ← constant .floatZero none
    write (.sample type node.id image coordinates lod)
  else if sourceTy.isMatrix then
    let indexNode ← check (d.graph.node index)
    match ← check indexNode.kind.constantIndex with
    | none => check (BinaryOp.refuseUnsupported .lookup sourceTy indexNode.ty)
    | some column =>
        let matrix ← below.value source
        write (.extract type node.id matrix column)
  else
    let vector ← below.value source
    let component ← below.value index
    write (.extractDynamic type node.id vector component)
  return node.id

/-- Writes a node that is computed from other values. The operation is selected from the types of
the operands, which are defined before the result type is declared. -/
def computedValue (node : Node) (arguments : List Handle) : Emit Id := do
  match node.kind, arguments with
  | .unary op, [argument] =>
      let (operation, _) ← check (op.lower (← check (d.graph.typeOf argument)))
      let operand ← below.value argument
      let type ← type node.ty
      write (.compute operation type node.id [operand])
      return node.id
  | .binary .lookup, [source, index] => lookupValue d below node source index
  | .binary op, [lhs, rhs] =>
      let lhsTy ← check (d.graph.typeOf lhs)
      let rhsTy ← check (d.graph.typeOf rhs)
      let lowering ← check (op.lower lhsTy rhsTy)
      let lhsId ← below.value lhs
      let rhsId ← below.value rhs
      let type ← type node.ty
      write (.compute lowering.operation type node.id
        (if lowering.swap then [rhsId, lhsId] else [lhsId, rhsId]))
      return node.id
  | .select, [condition, accept, reject] =>
      let condition ← below.value condition
      let accept ← below.value accept
      let reject ← below.value reject
      let type ← type node.ty
      write (.select type node.id condition accept reject)
      return node.id
  | .unary _, _ => throw (.wrongArgumentCount arguments.length 1)
  | .binary _, _ => throw (.wrongArgumentCount arguments.length 2)
  | _, _ => throw (.wrongArgumentCount arguments.length 3)

def constructedValue (node : Node) (arguments : List Handle) : Emit Id := do
  let type ← type node.ty
  let parts ← arguments.mapM below.value
  write (.construct type node.id parts)
  return node.id

/-- Waits for the event of a load, which notes the id of its value. -/
def loadedValue (slot event : Nat) : Emit Id := do
  below.event event
  match (← get).results.find? slot with
  | some id => return id
  | none => throw (.controlFlow .loadNotReplayed)

def nodeValue (slot : Nat) (node : Node) : Emit Id :=
  let arguments := d.graph.operandsAt slot
  match node.kind with
  | .constant literal => constant literal (some node.id)
  | .input slot => inputValue d below node slot
  | .load event => loadedValue below slot event
  | .construct => constructedValue below node arguments
  | .unary _ | .binary _ | .select => computedValue d below node arguments

/-- The id that holds the value of a node, writing its instruction if that was not done. -/
def value (h : Handle) : Emit Id := do
  let node ← check (d.graph.node h)
  match (← get).results.find? h.slot with
  | some id => return id
  | none =>
      let id ← nodeValue d below h.slot node
      setResult h.slot id
      return id

def linkIndex : Link → Emit Id
  | .member index => constant (.int index.toInt32) none
  | .index value => below.value value

/-- The id of a location, writing its access chain if that was not done. A chain is written from its
variable, with one index for each link. -/
def place (p : Place) : Emit Id := do
  let data ← check (d.places.get p)
  if p ∈ (← get).reached then return data.id
  let (root, links) ← check (d.places.flatten p)
  if links.isEmpty then throw (.undeclaredVariable data.id)
  let base ← below.place root
  let type ← type data.ty
  let indices ← links.mapM (linkIndex below)
  write (.accessChain type data.id base indices)
  markReached p
  return data.id

def loadEvent (p : Place) (h : Handle) (lastStore : Option Nat) : Emit Unit := do
  if let some store := lastStore then below.event store
  if let some node := d.graph.find? h then
    let source ← below.place p
    let type ← type node.ty
    write (.load type node.id source)
    setResult h.slot node.id

def storeEvent (p : Place) (h : Handle) : Emit Unit := do
  let value ← below.value h
  let target ← below.place p
  write (.store target value)

/-- Writes the values and the chains that were built in a block that dominates an event and are not
written yet, so that their ids can be used inside and after the block that opens there. -/
def defineDominating (event : Nat) : Emit Unit := do
  d.graph.handles.forM fun h => do
    if let some node := d.graph.find? h then
      let pending := 0 < node.refs && !node.kind.isLoad && ((← get).results.find? h.slot).isNone
      if pending && d.trace.dominates node.position event then
        let _ ← below.value h
  d.places.chains.forM fun p => do
    if let some data := d.places.find? p then
      let pending := data.accessed && decide (p ∉ (← get).reached)
      if pending && d.trace.dominates data.position event then
        let _ ← below.place p

def advanceSelection (index : Nat) (expected : List Phase) (next : Phase) (fault : FlowFault) :
    Emit Selection := do
  match d.selections[index]? with
  | none => throw (.controlFlow .unknownSelection)
  | some selection =>
      let phase := ((← get).selectionPhases.find? index).getD .built
      if phase ∉ expected then throw (.controlFlow fault)
      modify fun e => { e with selectionPhases := e.selectionPhases.insert index next }
      return selection

def advanceLoop (index : Nat) (expected next : Phase) (fault : FlowFault) : Emit CountedLoop := do
  match d.loops[index]? with
  | none => throw (.controlFlow .unknownLoop)
  | some l =>
      let phase := ((← get).loopPhases.find? index).getD .built
      if phase ≠ expected then throw (.controlFlow fault)
      modify fun e => { e with loopPhases := e.loopPhases.insert index next }
      return l

def boundaryEvent (event : Nat) : Boundary → Emit Unit
  | .ifBegin index => do
      defineDominating d below event
      let selection ← advanceSelection d index [.built] .opened .selectionOpenedTwice
      let condition ← below.value selection.condition
      writeAll (selection.beginGroup condition)
  | .ifElse index => do
      let selection ← advanceSelection d index [.opened] .switched .elseOutsideSelection
      writeAll selection.elseGroup
  | .ifEnd index => do
      let selection ← advanceSelection d index [.opened, .switched] .closed .selectionNotOpen
      writeAll selection.endGroup
  | .loopBegin index => do
      defineDominating d below event
      let l ← advanceLoop d index .built .opened .loopOpenedTwice
      let first ← below.value l.first
      let last ← below.value l.last
      let counter ← below.place l.counter
      let int ← type .sint
      let bool ← type .bool
      let current ← freshId
      let computed ← freshId
      writeAll (l.beginGroup { int, counter, current, computed } bool first last)
  | .loopEnd index => do
      let l ← advanceLoop d index .opened .closed .loopNotOpen
      let step ← below.value l.step
      let counter ← below.place l.counter
      let int ← type .sint
      let current ← freshId
      let computed ← freshId
      writeAll (l.endGroup { int, counter, current, computed } step)
  | .leave index label => do
      let l ← advanceLoop d index .opened .opened .jumpOutsideBody
      writeAll (l.leaveGroup label)
  | .next index label => do
      let l ← advanceLoop d index .opened .opened .jumpOutsideBody
      writeAll (l.nextGroup label)

/-- Writes an event, unless it is written or being written. -/
def event (index : Nat) : Emit Unit := do
  match d.trace.action? index with
  | none => throw (.controlFlow .unknownEvent)
  | some action =>
      if index ∈ (← get).written then return
      modify fun e => { e with written := index :: e.written }
      match action with
      | .load p h lastStore => loadEvent d below p h lastStore
      | .store p h => storeEvent below p h
      | .boundary boundary => boundaryEvent d below index boundary

end Emit

def Demand.above (d : Draft) (below : Demand) : Demand where
  value := Emit.value d below
  event := Emit.event d below
  place := Emit.place d below

/-- The lowest level, which answers nothing. -/
def Demand.bottom : Demand where
  value _ := throw .cyclicValue
  event _ := throw .cyclicValue
  place _ := throw .cyclicValue

def demand (d : Draft) : Nat → Demand
  | 0 => .bottom
  | levels + 1 => .above d (demand d levels)

/-- Enough levels for a draft: for each id a value, the load that gives it and the store before that
load. -/
def Draft.levels (d : Draft) : Nat := 3 * d.nextId + 1

end ShaderIR
