import ShaderIR.Proofs.Grounded
import ShaderIR.Proofs.Nesting

/-! The layout of a module. Its sections come in their order, and its function consists of blocks that
are nested as the calls that opened and closed them were. -/
namespace ShaderIR

variable {i : Instruction} {o : Outline}

def Call.mark? : Call → Option Mark
  | .beginIf _ => some .beginIf
  | .beginElse => some .beginElse
  | .endIf => some .endIf
  | .beginFor _ _ => some .beginFor
  | .endFor => some .endFor
  | .breakLoop => some .breakLoop
  | .continueLoop => some .continueLoop
  | _ => none

section Marks

variable {d d' : Draft} {c : Call} {reply : Reply}

theorem Effect.marks (effect : Effect d c reply d') :
    (c.records d reply).filterMap Action.mark? = c.mark?.toList := by
  cases effect with
  | beginElse scopes | endIf scopes | endFor scopes =>
    simp only [Call.records, scopes]
    rfl
  | breakLoop inside | continueLoop inside =>
    simp only [Call.records, inside]
    rfl
  | _ => rfl

end Marks

namespace Emission

section Step

variable {strict : Prop} {d : Draft} {k : Nat} {bound : Id} {e e' : Emission}

/-- Straight code is written between two states. It uses what is known before it, and what is known
after it was known before or got its meaning from it. -/
def Proceeds (known known' : Id → Prop) (e e' : Emission) : Prop :=
  ∃ code, e'.body.toList = e.body.toList ++ code ∧ (∀ i ∈ code, i.isPlain = true) ∧
    Ordered known code ∧ ∀ id, known' id → Gained known code id

section Proceeds

variable {known known' known'' : Id → Prop} {e'' : Emission}

theorem Proceeds.trans (first : Proceeds known known' e e') (second : Proceeds known' known'' e' e'') :
    Proceeds known known'' e e'' := by
  obtain ⟨code, written, plain, ordered, gained⟩ := first
  obtain ⟨more, written', plain', ordered', gained'⟩ := second
  refine ⟨code ++ more, by rw [written', written, List.append_assoc], fun i member => ?_,
    ordered.append (ordered'.mono gained), fun id now => ?_⟩
  · exact (List.mem_append.mp member).elim (plain i) (plain' i)
  · exact gained_append.mpr ((gained' id now).mono gained)

theorem proceeds_same (body : e'.body = e.body) (kept : ∀ id, known' id → known id) :
    Proceeds known known' e e' :=
  ⟨[], by rw [body, List.append_nil], by simp, trivial, fun id now => .inl (kept id now)⟩

theorem proceeds_push (body : e'.body = e.body.push i) (plain : i.isPlain = true)
    (uses : ∀ id ∈ i.uses, known id) (gained : ∀ id, known' id → known id ∨ i.result? = some id) :
    Proceeds known known' e e' := by
  refine ⟨[i], by rw [body, Array.toList_push], fun j member => ?_, ⟨uses, trivial⟩, fun id now => ?_⟩
  · rwa [List.mem_singleton.mp member]
  · exact (gained id now).imp_right fun result => ⟨i, List.mem_singleton_self i, result⟩

end Proceeds

def WritesPlain (e e' : Emission) : Prop := Proceeds (fun _ => True) (fun _ => True) e e'

theorem writesPlain_same (body : e'.body = e.body) : e.WritesPlain e' :=
  proceeds_same body fun _ => id

theorem writesPlain_push (body : e'.body = e.body.push i) (plain : i.isPlain = true) :
    e.WritesPlain e' :=
  proceeds_push body plain (fun _ _ => trivial) fun _ => .inl

theorem Computes.plain {n : Node} {type : Id} (computes : e.Computes d n type i) :
    i.isPlain = true := by
  cases computes <;> rfl

theorem Asks.writesPlain (steps : Asks strict d k bound e e') : e.WritesPlain e' := by
  induction steps with
  | refl => exact writesPlain_same rfl
  | tail _ step ih =>
    refine Proceeds.trans ih ?_
    cases step with
    | quiet step => exact writesPlain_same step.still.body
    | literal => exact writesPlain_same rfl
    | compute _ _ _ _ _ computes => exact writesPlain_push rfl computes.plain
    | chain => exact writesPlain_push rfl rfl

theorem Loads.writesPlain {i : Input} (loads : Loads d i e e') : e.WritesPlain e' := by
  obtain ⟨n, data, type, e₁, _, _, steps, _, _, _, rfl⟩ := loads
  exact Proceeds.trans (writesPlain_same steps.still.body) (writesPlain_push rfl rfl)

theorem Stored.writesPlain {p : Place} {h : Handle} (stored : Stored strict d k p h e e') :
    e.WritesPlain e' := by
  obtain ⟨n, data, x, e₁, _, _, steps, _, _, rfl⟩ := stored
  exact Proceeds.trans steps.writesPlain (writesPlain_push rfl rfl)

/-- The code of an event, where nothing is said of what is known. -/
theorem Replays.piece (replays : Replays strict d k e e') :
    ∃ action chunk, d.trace.action? k = some action ∧
      d.Piece (fun _ _ => True) (fun _ _ => True) k action chunk ∧
      e'.body.toList = e.body.toList ++ chunk := by
  have straight : ∀ {action}, d.trace.action? k = some action → (∀ b, action ≠ .boundary b) →
      e.WritesPlain e' → ∃ action chunk, d.trace.action? k = some action ∧
        d.Piece (fun _ _ => True) (fun _ _ => True) k action chunk ∧
        e'.body.toList = e.body.toList ++ chunk := by
    rintro action recorded quiet ⟨code, written, plain, ordered, gained⟩
    exact ⟨action, code, recorded, .plain quiet plain ordered gained, written⟩
  have marked : e.WritesPlain (e.mark k) := writesPlain_same rfl
  cases replays with
  | released recorded => exact straight recorded (by simp) marked
  | load recorded _ _ steps =>
    exact straight recorded (by simp)
      (Proceeds.trans (Proceeds.trans marked steps.writesPlain) (writesPlain_push rfl rfl))
  | store recorded stored =>
    exact straight recorded (by simp) (Proceeds.trans marked stored.writesPlain)
  | @boundary b fresh group e₁ recorded steps _ written =>
    obtain ⟨asked, before, plain, ordered, gained⟩ := Proceeds.trans marked steps.writesPlain
    refine ⟨.boundary b, asked ++ group, recorded, .boundary plain ordered gained written
      (ordered_of_known fun _ _ _ _ => trivial) fun _ _ => trivial, ?_⟩
    rw [Array.toList_append, before, List.append_assoc]

end Step

section Events

variable {strict : Prop} {d : Draft} {e : Emission} (proper : d.Proper strict) {ids : EntryIds}
  {interface : List Id} {stages : Stages} (compiled : Compiled strict d ids interface e stages)

include proper compiled

/-- The states between the events of a compilation, with what is written after each of them. -/
theorem Compiled.remains : ∃ states : Nat → Emission, states 0 = stages.loaded ∧
    (∀ k < d.trace.size, Replays strict d k (states k) (states (k + 1))) ∧
    ∀ k ≤ d.trace.size, (states k).Grows e ∧ ∃ marks code,
      marks = (d.trace.actions.drop k).filterMap Action.mark? ∧
        e.body.toList = (states k).body.toList ++ code ∧
        d.Remains (fun _ _ => True) (d.trace.framesAt k) (fun _ => True) marks code := by
  obtain ⟨prepared, loaded, replayed⟩ := stages
  obtain ⟨stores, last, plain, ordered, _⟩ : replayed.WritesPlain e :=
    compiled.stores.keeps (fun _ _ _ _ stored before => Proceeds.trans before stored.2.writesPlain)
      (writesPlain_same rfl)
  have ends : replayed.Grows e :=
    compiled.stores.keeps (fun _ _ _ _ stored before => before.trans stored.2.grows) (.refl _)
  obtain ⟨states, begins, rfl, turns⟩ := compiled.events.states
  let body : Nat → List Instruction := fun k => (states k).body.toList
  have pieces : ∀ k < d.trace.size, ∃ action chunk, d.trace.action? k = some action ∧
      d.Piece (fun _ _ => True) (fun _ _ => True) k action chunk ∧ body (k + 1) = body k ++ chunk :=
    fun k bound => (turns k bound).2.piece
  refine ⟨states, begins, fun k bound => (turns k bound).2, fun k bound => ⟨?_, ?_⟩⟩
  · induction bound using Nat.decreasingInduction with
    | self => exact ends
    | of_succ k bound ih => exact ((turns k bound).2.grows proper.sound (turns k bound).1).trans ih
  · rw [last]
    exact Draft.exists_remains proper.sound proper.orderly compiled.scopes pieces plain ordered bound

theorem Compiled.boundary_written {k : Nat} {b : Boundary}
    (recorded : d.trace.action? k = some (.boundary b)) :
    ∃ (e₁ : Emission) (fresh : Nat) (group before : List Instruction) (marks : List Mark)
      (code : List Instruction), e₁.Group d b fresh group ∧ e₁.Grows e ∧
      e.body.toList = before ++ (group ++ code) ∧
      d.Remains (fun _ _ => True) (d.trace.framesAt (k + 1)) (fun _ => True) marks code := by
  obtain ⟨states, _, turns, rest⟩ := compiled.remains proper
  have bound := Trace.action?_lt recorded
  have replays := turns k bound
  obtain ⟨later, marks, code, _, written, remains⟩ := rest (k + 1) bound
  generalize states (k + 1) = next at replays later written
  cases replays with
  | released other | load other | store other => simp [recorded] at other
  | @boundary b' fresh group e₁ recorded' _ _ group' =>
    obtain rfl := Action.boundary.inj (Option.mem_unique recorded recorded')
    refine ⟨e₁, fresh, group, e₁.body.toList, marks, code, group',
      (grows_boundary e₁ b fresh group).trans later, ?_, remains⟩
    rw [written, Array.toList_append, List.append_assoc]

/-- The body of a function is that of an outline. -/
theorem Compiled.outline :
    ∃ o : Outline, e.body.toList = o.code ∧ o.marks = d.trace.actions.filterMap Action.mark? ∧
      o.Plain ∧ o.Jumps none := by
  obtain ⟨prepared, loaded, replayed⟩ := stages
  have empty : prepared.body.toList = [] := by
    rw [compiled.unbegun.body]
    rfl
  obtain ⟨loads, first, plain, _⟩ : prepared.WritesPlain loaded :=
    compiled.inputs.keeps (fun _ _ _ _ loads before => Proceeds.trans before loads.writesPlain)
      (writesPlain_same rfl)
  obtain ⟨states, rfl, _, rest⟩ := compiled.remains proper
  obtain ⟨_, marks, code, marked, written, remains⟩ := rest 0 (Nat.zero_le _)
  rw [first, empty, List.nil_append] at written
  cases remains with
  | @outermost _ o fits => exact ⟨.straight loads o, written, marked, ⟨plain, fits.plain⟩, fits.jumps⟩

end Events

end Emission

structure Layout where
  capabilities : List Capability
  library : Id
  title : String
  stage : Stage
  entryPoint : String
  interface : List Id
  modes : List Instruction
  decorations : List Instruction
  declarations : List Instruction
  void : Id
  function : Id
  signature : Id
  entry : Id
  /-- The pointer types and the ids of the variables of the function. -/
  locals : List (Id × Id)
  outline : Outline

namespace Layout

def variableList (l : Layout) : List Instruction :=
  l.locals.map fun v => .variableDecl v.1 v.2 .function

def blocks (l : Layout) : List Block :=
  l.outline.layout l.entry l.variableList none

def instructions (l : Layout) : List Instruction :=
  l.capabilities.map .capability ++
    [.importSet l.library l.title, .memoryModel,
      .entryPoint l.stage l.function l.entryPoint l.interface] ++
    l.modes ++ l.decorations ++ l.declarations ++
    .functionBegin l.void l.function l.signature :: (l.blocks.flatMap Block.instructions ++
      [.functionEnd])

/-- Every section holds what belongs there, and the blocks fit together: the function ends in the last
block only, labels are distinct, what the end of a block names is a block, and a loop header is entered
from the block before it and from the block where its loop goes on only. -/
structure WellFormed (l : Layout) : Prop where
  capabilities : l.capabilities ≠ []
  modes : l.modes.length ≤ 1 ∧ ∀ i ∈ l.modes,
    i = .originUpperLeft l.function ∨ ∃ size, i = .localSize l.function size
  decorations : ∀ i ∈ l.decorations, i.part = .decoration
  declarations : ∀ i ∈ l.declarations, i.part = .declaration
  plain : ∃ code exit rest, l.blocks = ⟨l.entry, l.variableList ++ code, exit⟩ :: rest ∧
    Outline.AllPlain (⟨l.entry, code, exit⟩ :: rest)
  ends : Outline.Ends l.blocks .finish
  labels : (l.blocks.map Block.label).Nodup
  targets : ∀ b ∈ l.blocks, ∀ t ∈ b.exit.refers, t ∈ l.blocks.map Block.label
  headers : ∀ b ∈ l.blocks, ∀ merge continuing target, b.exit = .enter merge continuing target →
    ∃ before back, [before, b] <:+: l.blocks ∧ back ∈ l.blocks ∧ back.label = continuing ∧
      ∀ b' ∈ l.blocks, b.label ∈ b'.exit.targets ↔ b' = before ∨ b' = back

end Layout

theorem exists_locals {items : List Instruction}
    (all : ∀ i ∈ items, ∃ type id, i = .variableDecl type id .function) :
    ∃ locals : List (Id × Id), items = locals.map fun v => .variableDecl v.1 v.2 .function := by
  induction items with
  | nil => exact ⟨[], rfl⟩
  | cons i rest ih =>
    obtain ⟨⟨type, id, rfl⟩, later⟩ := List.forall_mem_cons.mp all
    obtain ⟨locals, rfl⟩ := ih later
    exact ⟨(type, id) :: locals, rfl⟩

/-- The labels of the blocks are among the results of their instructions. -/
theorem labels_sublist (blocks : List Block) :
    (blocks.map Block.label).Sublist
      ((blocks.flatMap Block.instructions).filterMap Instruction.result?) := by
  induction blocks with
  | nil => exact .slnil
  | cons b rest ih =>
    simp only [List.map_cons, List.flatMap_cons, List.filterMap_append, Block.instructions,
      List.filterMap_cons, Instruction.result?]
    exact (ih.trans (List.sublist_append_right ..)).cons_cons _

namespace Emission

variable {strict : Prop} {d : Draft} {ids : EntryIds} {interface : List Id}
  {e : Emission} {stages : Stages}

theorem function_layout (code : e.body.toList = o.code) (label : Id) :
    .label label :: (e.locals.toList ++ e.body.toList ++ [.returnVoid]) =
      (o.layout label e.locals.toList none).flatMap Block.instructions := by
  rw [Outline.instructions_layout, code, List.append_assoc]
  rfl

theorem Compiled.labels_distinct (proper : d.Proper strict)
    (compiled : Compiled strict d ids interface e stages)
    (code : e.body.toList = o.code) :
    ((o.layout ids.label e.locals.toList none).map Block.label).Nodup := by
  refine List.Nodup.sublist ?_ (compiled.distinct proper)
  refine (labels_sublist _).trans (List.Sublist.filterMap _ ?_)
  rw [instructions_eq, function_layout code]
  exact ((List.sublist_append_left ..).cons _).trans (List.sublist_append_right ..)

theorem Compiled.layout (proper : d.Proper strict)
    (compiled : Compiled strict d ids interface e stages) :
    ∃ l : Layout, e.instructions d ids interface = l.instructions ∧ l.WellFormed ∧
      l.outline.Plain ∧ l.outline.Jumps none ∧
      l.outline.marks = d.trace.actions.filterMap Action.mark? := by
  have sections := (compiled.sections proper.sound)
  obtain ⟨o, code, marks, plain, jumps⟩ := compiled.outline proper
  have owned : ∀ i ∈ e.locals.toList, ∃ type id, i = .variableDecl type id .function :=
    fun i member => sections.locals i (Array.mem_toList_iff.mp member)
  obtain ⟨locals, own⟩ := exists_locals owned
  let l : Layout := ⟨d.capabilities, ids.glsl, "GLSL.std.450", d.settings.stage,
    d.settings.entryPoint, interface, d.settings.executionMode ids.function, e.annotations.toList,
    e.declarations.toList, ids.void, ids.function, ids.signature, ids.label, locals, o⟩
  have listed : l.variableList = e.locals.toList := own.symm
  have same : e.instructions d ids interface = l.instructions := by
    rw [instructions_eq, function_layout code, Layout.instructions, Layout.blocks, listed]
    simp [l, Emission.preamble, heading]
  have distinct : (l.blocks.map Block.label).Nodup := by
    rw [Layout.blocks, listed]
    exact compiled.labels_distinct proper code
  refine ⟨l, same, ?_, plain, jumps, marks⟩
  exact {
    capabilities := List.cons_ne_nil _ _
    modes := by
      simp only [l, Settings.executionMode]
      split <;> simp
    decorations := fun i member => sections.annotations i (Array.mem_toList_iff.mp member)
    declarations := fun i member => sections.declarations i (Array.mem_toList_iff.mp member)
    plain := by
      obtain ⟨more, exit, rest, _, shape⟩ := o.head_layout ids.label none
      refine ⟨more, exit, rest, shape _, ?_⟩
      have blocks := Outline.plain_layout ids.label [] none plain (by simp)
      rwa [shape [], List.nil_append] at blocks
    ends := o.ends_layout ids.label l.variableList none
    labels := distinct
    targets := refers_layout jumps
    headers := fun b member merge continuing target enters =>
      header_branches distinct jumps rfl member enters }

end Emission

end ShaderIR
