import ShaderIR.Handle
import ShaderIR.Instruction.Basic

/-! Structured blocks: selections and counting loops. Labels are taken when a block is opened by the
caller; the instruction groups at its boundaries are fixed, given the ids they use. -/
namespace ShaderIR

structure Selection where
  condition : Handle
  thenLabel : Id
  elseLabel : Id
  mergeLabel : Id
  hasElse : Bool := false
deriving DecidableEq, Repr, Inhabited

namespace Selection

/-- Where a condition that does not hold leads. -/
def falseLabel (s : Selection) : Id := if s.hasElse then s.elseLabel else s.mergeLabel

def beginGroup (s : Selection) (condition : Id) : List Instruction :=
  [.selectionMerge s.mergeLabel,
    .branchConditional condition s.thenLabel s.falseLabel,
    .label s.thenLabel]

def elseGroup (s : Selection) : List Instruction :=
  [.branch s.mergeLabel, .label s.elseLabel]

def endGroup (s : Selection) : List Instruction :=
  [.branch s.mergeLabel, .label s.mergeLabel]

end Selection

/-- A loop that counts from `first` up to `last`, which is excluded, in a counter variable. -/
structure CountedLoop where
  first : Handle
  last : Handle
  step : Handle
  counter : Place
  header : Id
  check : Id
  body : Id
  increment : Id
  post : Id
deriving DecidableEq, Repr, Inhabited

/-- The ids a loop group uses besides the labels of the loop. -/
structure LoopIds where
  int : Id
  counter : Id
  /-- The counter as read in this group. -/
  current : Id
  computed : Id
deriving DecidableEq, Repr, Inhabited

namespace CountedLoop

/-- Sets the counter, writes the header and the bound check, and opens the body. -/
def beginGroup (l : CountedLoop) (ids : LoopIds) (bool first last : Id) : List Instruction :=
  [.store ids.counter first,
    .branch l.header,
    .label l.header,
    .loopMerge l.post l.increment,
    .branch l.check,
    .label l.check,
    .load ids.int ids.current ids.counter,
    .compute .sLessThan bool ids.computed [ids.current, last],
    .branchConditional ids.computed l.body l.post,
    .label l.body]

/-- Closes the body, writes the increment, and goes on after the loop. -/
def endGroup (l : CountedLoop) (ids : LoopIds) (step : Id) : List Instruction :=
  [.branch l.increment,
    .label l.increment,
    .load ids.int ids.current ids.counter,
    .compute .iAdd ids.int ids.computed [ids.current, step],
    .store ids.counter ids.computed,
    .branch l.header,
    .label l.post]

/-- Leaves the loop. What follows a jump cannot run but still needs a block. -/
def leaveGroup (l : CountedLoop) (label : Id) : List Instruction :=
  [.branch l.post, .label label]

def nextGroup (l : CountedLoop) (label : Id) : List Instruction :=
  [.branch l.increment, .label label]

end CountedLoop

end ShaderIR
