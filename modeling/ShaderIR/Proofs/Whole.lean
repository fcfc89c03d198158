import ShaderIR.Emission.Basic
import ShaderIR.Proofs.Declarable
import ShaderIR.Proofs.Paths

/-! What a compilation needs of a draft in order not to fail. A caller that drops references it does
not hold can break some of it; nothing else can. -/
namespace ShaderIR

variable {f : Fault} {p : Place} {a b h : Handle} {n v w : Node}

namespace Boundary

def scope : Boundary → Scope
  | .ifBegin s | .ifElse s | .ifEnd s => .selection s
  | .loopBegin l | .loopEnd l | .leave l _ | .next l _ => .loop l

def phase : Boundary → Phase
  | .ifBegin _ | .loopBegin _ | .leave _ _ | .next _ _ => .opened
  | .ifElse _ => .switched
  | .ifEnd _ | .loopEnd _ => .closed

/-- The phases of the block in which a boundary can come. -/
def expects : Boundary → List Phase
  | .ifBegin _ | .loopBegin _ => [.built]
  | .ifElse _ | .loopEnd _ | .leave _ _ | .next _ _ => [.opened]
  | .ifEnd _ => [.opened, .switched]

end Boundary

def Trace.phaseAt (t : Trace) (scope : Scope) : Nat → Phase
  | 0 => .built
  | k + 1 =>
      match t.action? k with
      | some (.boundary b) => if b.scope = scope then b.phase else t.phaseAt scope k
      | _ => t.phaseAt scope k

namespace Draft

def variableList (d : Draft) : List Place :=
  d.inputs.toList.map Input.place ++ d.outputs.toList.map Output.place ++
    d.builtins.toList.map BuiltinOutput.place ++ d.bindings.toList.map Binding.place ++
    d.locals.toList

/-- Nothing that a compilation asks for is missing or of the wrong type. -/
structure Whole (d : Draft) : Prop where
  operands : ∀ h n, d.graph.find? h = some n → ∀ o ∈ n.operands, d.Live o
  nodes : ∀ h n, d.graph.find? h = some n → n.kind.isComputed = true →
    d.Fits n.ty n.kind n.operands
  indices : ∀ p data parent value, d.places.find? p = some data →
    data.origin = .chain parent (.index value) → d.Live value
  stores : ∀ event p h, d.trace.action? event = some (.store p h) → d.Live h
  conditions : ∀ (index : Nat) s, d.selections[index]? = some s → d.Live s.condition
  bounds : ∀ (index : Nat) l, d.loops[index]? = some l → ∀ h ∈ [l.first, l.last, l.step], d.Live h
  inputs : ∀ i ∈ d.inputs, d.Live i.value
  outputs : ∀ o ∈ d.outputs, d.Live o.value
  builtins : ∀ o ∈ d.builtins, d.Live o.value
  roots : ∀ p, d.Rooted p → p ∈ d.variableList
  bindings : ∀ b ∈ d.bindings, ∀ data, d.places.find? b.place = some data → data.pointee = b.ty
  paced : ∀ event b, d.trace.action? event = some (.boundary b) →
    d.trace.phaseAt b.scope event ∈ b.expects

/-- Every value and every location has a type that a module can declare. -/
structure Declarable (d : Draft) : Prop where
  values : ∀ h n, d.graph.find? h = some n → n.ty.isDeclarable = true
  places : ∀ p data, d.places.find? p = some data → data.pointee.isDeclarable = true

/-- The faults that a compilation can give. None of them names a location, and a draft that is whole
is refused only for a type that no module can declare. -/
def Allows (d : Draft) (f : Fault) : Prop :=
  f.Plain ∧ (d.Whole → f.Undeclarable ∧ ¬d.Declarable)

variable {d : Draft}

theorem allows_undeclarable (undeclarable : f.Undeclarable) {ty : Ty}
    (rejected : ty.isDeclarable = false) (used : d.Declarable → ty.isDeclarable = true) :
    d.Allows f := by
  refine ⟨undeclarable.plain, fun _ => ⟨undeclarable, fun declarable => ?_⟩⟩
  rw [used declarable] at rejected
  contradiction

theorem allows_broken (plain : f.Plain) (broken : ¬d.Whole) : d.Allows f :=
  ⟨plain, fun whole => absurd whole broken⟩

theorem Declarable.pointer {data : PlaceData} (found : d.places.find? p = some data)
    (declarable : d.Declarable) : data.ty.isDeclarable = true := by
  rw [PlaceData.ty, Ty.isDeclarable]
  exact declarable.places p data found

theorem Whole.arguments (whole : d.Whole) (found : d.graph.find? h = some n) :
    d.graph.arguments n = n.operands :=
  List.filter_eq_self.mpr (whole.operands h n found)

theorem live_argument (member : h ∈ d.graph.arguments n) : d.Live h :=
  (List.mem_filter.mp member).2

theorem HasShape.eq {shape : Shape} (has : d.HasShape h shape) (found : d.graph.find? h = some n) :
    shape = ⟨n.ty, n.kind⟩ := by
  obtain ⟨n', found', ty, kind⟩ := has
  obtain rfl := Option.mem_unique found found'
  obtain ⟨_, _⟩ := shape
  rw [ty, kind]

section Nodes

variable (whole : d.Whole) (found : d.graph.find? h = some n)

include whole found

theorem Whole.fits (computed : n.kind.isComputed = true) :
    d.Fits n.ty n.kind (d.graph.arguments n) := by
  rw [whole.arguments found]
  exact whole.nodes h n found computed

theorem Whole.arity {count : Nat} (computed : n.kind.isComputed = true)
    (arity : n.kind.arity? = some count) : (d.graph.arguments n).length = count := by
  obtain ⟨shapes, each, fits⟩ := whole.fits found computed
  exact each.length_eq.trans (fits.length arity)

theorem Whole.unary {op : UnaryOp} (kind : n.kind = .unary op)
    (arguments : d.graph.arguments n = [a]) (known : d.graph.find? a = some v) :
    ∃ operation, op.lower v.ty = .ok (operation, n.ty) := by
  obtain ⟨shapes, each, fits⟩ := whole.fits found (by rw [kind]; rfl)
  rw [arguments] at each
  rw [kind] at fits
  cases fits with
  | unary lowered =>
    obtain _ | ⟨first, _⟩ := each
    rw [first.eq known] at lowered
    exact ⟨_, lowered⟩

theorem Whole.binary {op : BinaryOp} (kind : n.kind = .binary op) (other : op ≠ .lookup)
    (arguments : d.graph.arguments n = [a, b]) (left : d.graph.find? a = some v)
    (right : d.graph.find? b = some w) :
    ∃ lowering, op.lower v.ty w.ty = .ok lowering ∧ lowering.result = n.ty := by
  obtain ⟨shapes, each, fits⟩ := whole.fits found (by rw [kind]; rfl)
  rw [arguments] at each
  generalize n.ty = ty at fits ⊢
  rw [kind] at fits
  cases fits with
  | binary _ lowered =>
    obtain _ | ⟨first, _ | ⟨second, _⟩⟩ := each
    rw [first.eq left, second.eq right] at lowered
    exact ⟨_, lowered, rfl⟩
  | sample | extract => contradiction

/-- A sample, or a lookup whose index was checked. -/
theorem Whole.lookup (kind : n.kind = .binary .lookup) (arguments : d.graph.arguments n = [a, b])
    (left : d.graph.find? a = some v) (right : d.graph.find? b = some w) :
    BinaryOp.lookupResult v.ty w.ty = .ok n.ty ∧
      (v.ty.isTexture = false → checkIndex v.ty w.ty w.kind = .ok ()) := by
  obtain ⟨shapes, each, fits⟩ := whole.fits found (by rw [kind]; rfl)
  rw [arguments] at each
  generalize n.ty = ty at fits ⊢
  rw [kind] at fits
  cases fits with
  | binary other => contradiction
  | sample result texture =>
    obtain _ | ⟨first, _ | ⟨second, _⟩⟩ := each
    rw [first.eq left, second.eq right] at result
    rw [first.eq left] at texture
    exact ⟨result, fun notTexture => by rw [notTexture] at texture; contradiction⟩
  | extract result _ checked =>
    obtain _ | ⟨first, _ | ⟨second, _⟩⟩ := each
    rw [first.eq left, second.eq right] at result checked
    exact ⟨result, fun _ => checked⟩

/-- A column is taken at a constant index. -/
theorem Whole.column (kind : n.kind = .binary .lookup) (arguments : d.graph.arguments n = [a, b])
    (left : d.graph.find? a = some v) (right : d.graph.find? b = some w)
    (notTexture : v.ty.isTexture = false) (matrix : v.ty.isMatrix = true) :
    ∃ column, w.kind.constantIndex = .ok (some column) ∧ column < v.ty.columns?.getD 0 := by
  have checked := (whole.lookup found kind arguments left right).2 notTexture
  unfold checkIndex at checked
  cases index : w.kind.constantIndex with
  | error fault =>
    rw [index] at checked
    contradiction
  | ok column =>
    rw [index] at checked
    cases column with
    | none =>
      simp [Bind.bind, Except.bind, matrix, BinaryOp.refuseUnsupported] at checked
    | some column =>
      refine ⟨column, rfl, ?_⟩
      simp only [Bind.bind, Except.bind, matrix, if_true] at checked
      split at checked
      · contradiction
      · exact UInt32.not_le.mp ‹_›

end Nodes

end Draft

theorem Places.Path.live {d : Draft} {root : Place} {links : List Link}
    (path : d.places.Path p root links) (whole : d.Whole) {value : Handle}
    (member : .index value ∈ links) : d.Live value := by
  induction path with
  | root => simp at member
  | chain found origin _ ih =>
    rcases List.mem_append.mp member with inside | last
    · exact ih inside
    · obtain rfl := List.mem_singleton.mp last
      exact whole.indices _ _ _ _ found origin

end ShaderIR
