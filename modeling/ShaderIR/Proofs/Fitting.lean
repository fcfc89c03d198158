import Mathlib.Data.List.Forall2
import ShaderIR.Proofs.CallEffect

/-! How types fit together in a draft. A node that is computed has a type that follows from those of
its operands, and a part of a location has one that follows from that of the location. -/
namespace ShaderIR

variable {kind : NodeKind} {ty : Ty} {count : Nat} {d : Draft} {h : Handle} {n : Node}

/-- What a check sees of an operand: its type and, for an index, how it gets its value. -/
structure Shape where
  ty : Ty
  kind : NodeKind

inductive NodeKind.Fits : NodeKind → Ty → List Shape → Prop where
  | constant (literal : Literal) : Fits (.constant literal) literal.ty []
  | unary {op : UnaryOp} {a : Shape} {operation : Operation} {ty : Ty} :
      op.lower a.ty = .ok (operation, ty) → Fits (.unary op) ty [a]
  | binary {op : BinaryOp} {a b : Shape} {lowering : Lowering} : op ≠ .lookup →
      op.lower a.ty b.ty = .ok lowering → Fits (.binary op) lowering.result [a, b]
  | sample {a b : Shape} {ty : Ty} : BinaryOp.lookupResult a.ty b.ty = .ok ty →
      a.ty.isTexture = true → Fits (.binary .lookup) ty [a, b]
  | extract {a b : Shape} {ty : Ty} : BinaryOp.lookupResult a.ty b.ty = .ok ty →
      a.ty.isTexture = false → Draft.checkIndex a.ty b.ty b.kind = .ok () →
      Fits (.binary .lookup) ty [a, b]
  | select {condition a b : Shape} {ty : Ty} : a.ty = ty → b.ty = ty →
      (condition.ty = .bool ∨ condition.ty = if ty.isVector then ty.toBool else .bool) →
      Fits .select ty [condition, a, b]
  | construct {ty part : Ty} {count : Nat} {parts : List Shape} :
      Draft.constructParts ty = .ok (count, part) → parts.length = count →
      (∀ shape ∈ parts, shape.ty = part) → Fits .construct ty parts

def NodeKind.arity? : NodeKind → Option Nat
  | .constant _ | .input _ | .load _ => some 0
  | .unary _ => some 1
  | .binary _ => some 2
  | .select => some 3
  | .construct => none

theorem NodeKind.Fits.length {shapes : List Shape} (fits : kind.Fits ty shapes)
    (arity : kind.arity? = some count) : shapes.length = count := by
  cases fits with
  | construct => contradiction
  | _ => exact Option.some.inj arity

namespace Draft

def HasShape (d : Draft) (h : Handle) (shape : Shape) : Prop :=
  ∃ n, d.graph.find? h = some n ∧ n.ty = shape.ty ∧ n.kind = shape.kind

def Fits (d : Draft) (ty : Ty) (kind : NodeKind) (operands : List Handle) : Prop :=
  ∃ shapes, List.Forall₂ d.HasShape operands shapes ∧ kind.Fits ty shapes

def Selects (d : Draft) (pointee ty : Ty) : Link → Prop
  | .member index => pointee.member index = .ok ty
  | .index value => pointee.element = .ok ty ∧
      ∀ v, d.graph.find? value = some v → v.ty.isInteger = true

def Typed (d : Draft) (h : Handle) (ty : Ty) : Prop := ∀ n, d.graph.find? h = some n → n.ty = ty

theorem hasShape (found : d.graph.find? h = some n) : d.HasShape h ⟨n.ty, n.kind⟩ :=
  ⟨n, found, rfl, rfl⟩

theorem typed_of (found : d.graph.find? h = some n) (typed : n.ty = ty) : d.Typed h ty := by
  intro n' found'
  rwa [Option.mem_unique found' found]

end Draft

/-! What the calls that build a node have checked. -/

theorem Draft.fits_constant (literal : Literal) : d.Fits literal.ty (.constant literal) [] :=
  ⟨[], .nil, .constant literal⟩

theorem Draft.fits_pair {lhs rhs : Handle} {l r : Node} (left : d.graph.find? lhs = some l)
    (right : d.graph.find? rhs = some r) (fits : kind.Fits ty [⟨l.ty, l.kind⟩, ⟨r.ty, r.kind⟩]) :
    d.Fits ty kind [lhs, rhs] :=
  ⟨_, .cons (Draft.hasShape left) (.cons (Draft.hasShape right) .nil), fits⟩

theorem Draft.fits_construct {part : Ty} {parts : List Handle}
    (shape : Draft.constructParts ty = .ok (count, part)) (length : parts.length = count)
    (typed : ∀ value ∈ parts, ∃ v, d.graph.find? value = some v ∧ v.ty = part) :
    d.Fits ty .construct parts := by
  have shapes : ∃ shapes, List.Forall₂ d.HasShape parts shapes ∧ ∀ s ∈ shapes, s.ty = part := by
    clear length
    induction parts with
    | nil => exact ⟨[], .nil, by simp⟩
    | cons value rest ih =>
      obtain ⟨v, found, same⟩ := typed value (by simp)
      obtain ⟨shapes, others, all⟩ := ih fun value member => typed value (by simp [member])
      refine ⟨⟨v.ty, v.kind⟩ :: shapes, .cons (Draft.hasShape found) others, ?_⟩
      intro s member
      rcases List.mem_cons.mp member with rfl | member
      · exact same
      · exact all s member
  obtain ⟨shapes, each, all⟩ := shapes
  exact ⟨shapes, each, .construct shape (each.length_eq ▸ length) all⟩

end ShaderIR
