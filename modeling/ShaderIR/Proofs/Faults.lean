import ShaderIR.Draft.Call

/-! Refusals and what they name. Only one refusal names a location as it was given out, and only the
calls that open and close blocks complain about blocks; checks do neither. -/
namespace ShaderIR

variable {f : Fault}

/-- Whether a fault has nothing to do with locations and blocks, nor with asking in circles. -/
def Fault.isModest : Fault → Bool
  | .unknownPlace _ | .controlFlow _ | .cyclicValue => false
  | _ => true

def Fault.Plain : Fault → Prop
  | .unknownPlace _ | .cyclicValue | .controlFlow .loadNotReplayed => False
  | _ => True

/-- Misuse that comes from blocks that are not paired: one is switched or closed where no such block
is innermost, or is still open when a draft is compiled. -/
def FlowFault.isUnpaired : FlowFault → Bool
  | .openAtCompile | .elseWithoutSelection | .secondElse | .endWithoutSelection
  | .endWithoutLoop => true
  | _ => false

def Fault.isUnpaired : Fault → Bool
  | .controlFlow cause => cause.isUnpaired
  | _ => false

def Modest {α : Type} (x : Except Fault α) : Prop := ∀ f, x = .error f → f.isModest = true

section Modest

variable {α β : Type}

@[simp] theorem modest_ok (a : α) : Modest (.ok a) := nofun

@[simp] theorem modest_error : Modest (.error f : Except Fault α) ↔ f.isModest = true := by
  simp [Modest]

theorem Modest.bind {x : Except Fault α} {f : α → Except Fault β} (first : Modest x)
    (rest : ∀ a, Modest (f a)) : Modest (x >>= f) := by
  cases x with
  | error fault => exact modest_error.mpr (modest_error.mp first)
  | ok a => exact rest a

theorem Modest.plain {x : Except Fault α} (modest : Modest x) (refused : x = .error f) :
    f.Plain := by
  have modest := modest f refused
  cases f with
  | unknownPlace | cyclicValue | controlFlow => contradiction
  | _ => trivial

theorem modest_node (g : Graph) (h : Handle) : Modest (g.node h) := by
  unfold Graph.node
  split <;> simp [Fault.isModest]

theorem modest_typeOf (g : Graph) (h : Handle) : Modest (g.typeOf h) :=
  (modest_node g h).bind fun n => modest_ok n.ty

theorem modest_retain (g : Graph) (h : Handle) : Modest (g.retain h) :=
  (modest_node g h).bind fun _ => modest_ok _

theorem modest_insert (g : Graph) (n : Node) : Modest (g.insert n) := by
  refine Modest.bind ?_ fun _ => modest_ok _
  induction n.operands with
  | nil => exact modest_ok _
  | cons h rest ih =>
    rw [List.forM_eq_forM, List.forM_cons]
    exact (Modest.bind ((modest_node g h).bind fun _ => modest_ok _)) fun _ => ih

theorem modest_arithmetic (op : BinaryOp) (lhs rhs : Ty) :
    Modest (op.arithmetic lhs rhs) := by
  unfold BinaryOp.arithmetic BinaryOp.refuse BinaryOp.refuseUnsupported
  repeat' split
  all_goals simp [Fault.isModest]

theorem modest_product (lhs rhs : Ty) : Modest (BinaryOp.product lhs rhs) := by
  unfold BinaryOp.product BinaryOp.refuse BinaryOp.refuseUnsupported
  repeat' split
  all_goals simp [Fault.isModest]

theorem modest_comparison (op : BinaryOp) (lhs rhs : Ty) :
    Modest (op.comparison lhs rhs) := by
  unfold BinaryOp.comparison BinaryOp.refuse
  repeat' split
  all_goals simp [Fault.isModest]

theorem modest_lower (op : BinaryOp) (lhs rhs : Ty) : Modest (op.lower lhs rhs) := by
  cases op with
  | add | sub | mul | div => exact modest_arithmetic _ lhs rhs
  | dot => exact modest_product lhs rhs
  | lookup => exact modest_error.mpr rfl
  | equal | notEqual | less | greater | lessEqual | greaterEqual =>
    exact modest_comparison _ lhs rhs

theorem modest_negate (ty : Ty) : Modest (UnaryOp.lower .negate ty) := by
  unfold UnaryOp.lower
  split <;> simp_all [Fault.isModest]

theorem modest_lookupResult (source index : Ty) :
    Modest (BinaryOp.lookupResult source index) := by
  unfold BinaryOp.lookupResult BinaryOp.refuse
  repeat' split
  all_goals simp [Fault.isModest]

theorem modest_constantIndex (kind : NodeKind) : Modest kind.constantIndex := by
  unfold NodeKind.constantIndex
  repeat' split
  all_goals simp [Fault.isModest]

theorem modest_checkIndex (source index : Ty) (kind : NodeKind) :
    Modest (Draft.checkIndex source index kind) := by
  refine (modest_constantIndex kind).bind fun value => ?_
  cases value with
  | none =>
    dsimp only
    split
    · exact modest_error.mpr rfl
    · exact modest_ok _
  | some value =>
    dsimp only
    generalize Option.getD _ _ = length
    split
    · exact modest_error.mpr rfl
    · exact modest_ok _

theorem modest_constructParts (ty : Ty) : Modest (Draft.constructParts ty) := by
  unfold Draft.constructParts
  repeat' split
  all_goals simp [Fault.isModest]

theorem modest_bindingStorage (kind : BindingKind) (ty : Ty) :
    Modest (Draft.bindingStorage kind ty) := by
  unfold Draft.bindingStorage
  split <;> simp [Fault.isModest]

theorem modest_member (ty : Ty) (index : Word) : Modest (ty.member index) := by
  unfold Ty.member
  repeat' split
  all_goals simp [Fault.isModest]

theorem modest_element (ty : Ty) : Modest ty.element := by
  unfold Ty.element
  split <;> simp [Fault.isModest]

theorem modest_loopRange (strict : Bool) (first last : Int32) :
    Modest (Draft.loopRange strict first last) := by
  unfold Draft.loopRange
  repeat' split
  all_goals simp [Fault.isModest]

end Modest

end ShaderIR
