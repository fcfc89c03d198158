import ShaderIR.Proofs.Outcome
import ShaderIR.Proofs.StepwiseDemand

/-! What a compilation tells about its shared variables: which it declares, in which storage class,
and by which annotations they are found from outside of the shader. Only the declaration of the
variables tells anything, and it tells exactly what the lists of the draft hold. -/
namespace ShaderIR

variable {p : Place} {places : List Place}

def Instruction.root? : Instruction → Option (Id × Storage)
  | .variableDecl _ id storage => some (id, storage)
  | _ => none

def Instruction.mark? : Instruction → Option (Id × Decoration)
  | .decorate id decoration => if decoration.locates then some (id, decoration) else none
  | _ => none

namespace Emission

def roots (e : Emission) : List (Id × Storage) :=
  e.declarations.toList.filterMap Instruction.root?

def marks (e : Emission) : List (Id × Decoration) :=
  e.annotations.toList.filterMap Instruction.mark?

end Emission

def Draft.shown (d : Draft) (p : Place) : Id × Storage :=
  match d.places.find? p with
  | some data => (data.id, data.storage)
  | none => (0, .function)

def markedAs (x : Id × List Decoration) : List (Id × Decoration) := x.2.map (Prod.mk x.1)

namespace Emit

variable {α β : Type}

/-- A part of a compilation, with the variables that it declares, the marks that it makes and what
it gives. -/
def Tells (x : Emit α) (roots : List (Id × Storage)) (marks : List (Id × Decoration))
    (good : α → Prop) : Prop :=
  ∀ e, Outcome x e
    (fun a e' => e'.roots = e.roots ++ roots ∧ e'.marks = e.marks ++ marks ∧ good a)
    fun _ _ => True

abbrev Discreet (x : Emit α) : Prop :=
  Leads (fun e e' => e'.roots = e.roots ∧ e'.marks = e.marks) x

variable {x : Emit α} {f : α → Emit β} {roots roots' : List (Id × Storage)}
  {marks marks' : List (Id × Decoration)} {good : α → Prop} {good' : β → Prop}

theorem tells_pure {a : α} (holds : good a) : Tells (pure a) [] [] good :=
  fun _ => ⟨(List.append_nil _).symm, (List.append_nil _).symm, holds⟩

theorem Tells.bind (first : Tells x roots marks good)
    (rest : ∀ a, good a → Tells (f a) roots' marks' good') :
    Tells (x >>= f) (roots ++ roots') (marks ++ marks') good' := by
  intro e
  rw [outcome_bind]
  apply (first e).imp
  rintro a e₁ ⟨declared, marked, holds⟩
  apply (rest a holds e₁).imp
  rintro b e₂ ⟨declared', marked', holds'⟩
  rw [declared', declared, marked', marked]
  exact ⟨List.append_assoc .., List.append_assoc .., holds'⟩

theorem Tells.knowing (first : Tells x [] [] good)
    (rest : ∀ a, good a → Tells (f a) roots marks good') : Tells (x >>= f) roots marks good' :=
  Tells.bind first rest

theorem Tells.after (first : Discreet x) (rest : ∀ a, Tells (f a) roots marks good') :
    Tells (x >>= f) roots marks good' := by
  have silent : Tells x [] [] fun _ => True := by
    intro e
    rw [List.append_nil, List.append_nil]
    exact (first e).mono (fun _ _ same => ⟨same.1, same.2, trivial⟩) fun _ _ _ => trivial
  exact Tells.knowing silent fun a _ => rest a

theorem Tells.last (first : Tells x roots marks good)
    (rest : ∀ a, good a → Tells (f a) [] [] good') : Tells (x >>= f) roots marks good' := by
  have both := first.bind rest
  rwa [List.append_nil, List.append_nil] at both

theorem tells_declare (instruction : Instruction) :
    Tells (declare instruction) instruction.root?.toList [] fun _ => True := by
  intro e
  constructor
  · cases told : instruction.root? <;> simp [Emission.roots, told]
  · exact ⟨(List.append_nil _).symm, trivial⟩

theorem tells_annotate (instruction : Instruction) :
    Tells (annotate instruction) [] instruction.mark?.toList fun _ => True := by
  intro e
  refine ⟨(List.append_nil _).symm, ?_, trivial⟩
  cases told : instruction.mark? <;> simp [Emission.marks, told]

/-- Apart from the variables, a compilation tells nothing. -/
theorem announcing_discreet : Announcing .still (Alone Discreet) := by
  refine announcing_leads (fun _ => ⟨rfl, rfl⟩)
    (fun first second => ⟨second.1.trans first.1, second.2.trans first.2⟩) (fun _ => ⟨rfl, rfl⟩)
    (fun e i other => ⟨?_, rfl⟩) (fun e e' same => ⟨?_, ?_⟩) fun _ _ => ⟨rfl, rfl⟩
  · cases i with
    | variableDecl => contradiction
    | _ => simp [Emission.roots, Instruction.root?]
  · rw [Emission.roots, same.declarations]
    rfl
  · rw [Emission.marks, same.annotations]
    rfl

theorem laying_discreet : Laying .still (Alone Discreet) where
  core := announcing_discreet.core
  annotate {i} layout e := by
    refine ⟨rfl, ?_⟩
    cases i with
    | decorateMember => simp [Emission.marks, Instruction.mark?]
    | decorate id decoration =>
      cases decoration with
      | arrayStride => simp [Emission.marks, Instruction.mark?, Decoration.locates]
      | _ => contradiction
    | _ => contradiction
  note _ _ := ⟨rfl, rfl⟩

/-! The variables. -/

variable {d : Draft}

/-- What is told of a location: nothing for a variable of the function. -/
def told (shown : Id × Storage) : List (Id × Storage) :=
  if shown.2 = .function then [] else [shown]

theorem tells_variableDecl (d : Draft) (p : Place) :
    Tells (variableDecl d p) (told (d.shown p)) [] fun id => id = (d.shown p).1 := by
  unfold variableDecl
  cases found : d.places.find? p with
  | none =>
    rw [Places.get, found]
    exact fun _ => trivial
  | some data =>
    have shows : d.shown p = (data.id, data.storage) := by simp only [Draft.shown, found]
    have known : Tells (check (d.places.get p)) [] [] (· = data) := by
      rw [Places.get, found]
      exact tells_pure rfl
    rw [shows]
    have last : Tells (do markReached p; return data.id) [] [] fun id => id = data.id :=
      Tells.after (fun _ => ⟨rfl, rfl⟩) fun _ => tells_pure rfl
    refine Tells.knowing known fun other same => ?_
    rw [same]
    refine Tells.after (announcing_discreet.noting.type _) fun type => ?_
    dsimp only
    split
    · rename_i own
      rw [told, if_pos own]
      exact Tells.after (fun _ => ⟨rfl, rfl⟩) fun _ => last
    · rename_i shared
      rw [told, if_neg shared]
      exact Tells.bind (tells_declare _) fun _ _ => last

theorem tells_shared (shared : (d.shown p).2 ≠ .function) :
    Tells (variableDecl d p) [d.shown p] [] fun id => id = (d.shown p).1 := by
  have tells := tells_variableDecl d p
  rwa [told, if_neg shared] at tells

theorem tells_own {p : Place} (own : (d.shown p).2 = .function) :
    Tells (do let _ ← variableDecl d p) [] [] fun _ => True := by
  have tells := tells_variableDecl d p
  rw [told, if_pos own] at tells
  exact Tells.bind tells fun _ _ => tells_pure trivial

def locations (index : Nat) : List Id → List (Id × List Decoration)
  | [] => []
  | id :: rest => (id, [.location index]) :: locations (index + 1) rest

theorem tells_located (shared : ∀ p ∈ places, (d.shown p).2 ≠ .function) (index : Nat) :
    Tells (located d index places) (places.map d.shown)
      ((locations index (places.map fun p => (d.shown p).1)).flatMap markedAs)
      fun ids => ids = places.map fun p => (d.shown p).1 := by
  induction places generalizing index with
  | nil => exact tells_pure rfl
  | cons p rest ih =>
    have others := ih (fun q member => shared q (List.mem_cons_of_mem p member)) (index + 1)
    refine Tells.bind (tells_shared (shared p (by simp))) fun id named => ?_
    subst named
    refine Tells.bind (tells_annotate (.decorate _ (.location index))) fun _ _ => ?_
    refine Tells.last others fun ids same => ?_
    subst same
    exact tells_pure rfl

theorem tells_builtinDecl {o : BuiltinOutput} (shared : (d.shown o.place).2 ≠ .function) :
    Tells (builtinDecl d o) [d.shown o.place] [((d.shown o.place).1, .builtIn o.builtin)]
      fun id => id = (d.shown o.place).1 := by
  refine Tells.bind (tells_shared shared) fun id named => ?_
  subst named
  exact Tells.last (tells_annotate _) fun _ _ => tells_pure rfl

theorem tells_builtins {outputs : List BuiltinOutput}
    (shared : ∀ o ∈ outputs, (d.shown o.place).2 ≠ .function) :
    Tells (outputs.mapM (builtinDecl d)) (outputs.map fun o => d.shown o.place)
      ((outputs.map fun o => ((d.shown o.place).1, [.builtIn o.builtin])).flatMap markedAs)
      fun ids => ids = outputs.map fun o => (d.shown o.place).1 := by
  induction outputs with
  | nil => exact tells_pure rfl
  | cons o rest ih =>
    have others := ih fun q member => shared q (List.mem_cons_of_mem o member)
    rw [List.mapM_cons]
    refine Tells.bind (tells_builtinDecl (shared o (by simp))) fun id named => ?_
    subst named
    refine Tells.last others fun ids same => ?_
    subst same
    exact tells_pure rfl

theorem tells_bindingDecl (marked : List (Id × Decoration)) {b : Binding}
    (shared : (d.shown b.place).2 ≠ .function) :
    Tells (bindingDecl d marked b) [d.shown b.place]
      (markedAs ((d.shown b.place).1, [.descriptorSet b.set, .binding b.binding]))
      fun _ => True := by
  refine Tells.bind (tells_shared shared) fun id named => ?_
  subst named
  refine Tells.bind (tells_annotate (.decorate _ (.descriptorSet b.set))) fun _ _ => ?_
  refine Tells.last (tells_annotate (.decorate _ (.binding b.binding))) fun _ _ => ?_
  -- How a block is marked and laid out is no matter of the variable.
  cases kind : b.kind with
  | texture => exact tells_pure trivial
  | uniform | storage =>
    refine Tells.after (walk_declaredType announcing_discreet.core _) fun struct => ?_
    dsimp only
    split
    · exact Tells.knowing (tells_annotate _) fun _ _ =>
        Tells.after (walk_layout laying_discreet _) fun _ => tells_pure trivial
    · exact Tells.after (walk_layout laying_discreet _) fun _ => tells_pure trivial

theorem tells_bindings {bindings : List Binding}
    (shared : ∀ b ∈ bindings, (d.shown b.place).2 ≠ .function) (marked : List (Id × Decoration)) :
    Tells (bindings.foldlM (bindingDecl d) marked) (bindings.map fun b => d.shown b.place)
      ((bindings.map fun b =>
        ((d.shown b.place).1, [.descriptorSet b.set, .binding b.binding])).flatMap markedAs)
      fun _ => True := by
  induction bindings generalizing marked with
  | nil => exact tells_pure trivial
  | cons b rest ih =>
    rw [List.foldlM_cons]
    exact Tells.bind (tells_bindingDecl marked (shared b (by simp))) fun marked' _ =>
      ih (fun c member => shared c (List.mem_cons_of_mem b member)) marked'

theorem tells_locals (own : ∀ p ∈ places, (d.shown p).2 = .function) :
    Tells (places.forM fun p => do let _ ← variableDecl d p) [] [] fun _ => True := by
  induction places with
  | nil => exact tells_pure trivial
  | cons p rest ih =>
    rw [List.forM_eq_forM, List.forM_cons, ← List.forM_eq_forM]
    exact Tells.knowing (tells_own (own p (by simp))) fun _ _ =>
      ih fun q member => own q (List.mem_cons_of_mem p member)

end Emit

namespace Draft

def inputIds (d : Draft) : List Id := d.inputs.toList.map fun i => (d.shown i.place).1
def outputIds (d : Draft) : List Id := d.outputs.toList.map fun o => (d.shown o.place).1
def builtinIds (d : Draft) : List Id := d.builtins.toList.map fun o => (d.shown o.place).1
def resourceIds (d : Draft) : List Id := d.bindings.toList.map fun b => (d.shown b.place).1

/-- The ids of the shared variables and where each is found. -/
def exposed (d : Draft) : List (Id × List Decoration) :=
  Emit.locations 0 d.inputIds ++ Emit.locations 0 d.outputIds ++
    d.builtins.toList.map (fun o => ((d.shown o.place).1, [.builtIn o.builtin])) ++
    d.bindings.toList.map fun b =>
      ((d.shown b.place).1, [.descriptorSet b.set, .binding b.binding])

def shared (d : Draft) : List (Id × Storage) :=
  d.inputs.toList.map (fun i => d.shown i.place) ++
    d.outputs.toList.map (fun o => d.shown o.place) ++
    d.builtins.toList.map (fun o => d.shown o.place) ++
    d.bindings.toList.map fun b => d.shown b.place

def Stands (d : Draft) (storage : Storage) (p : Place) : Prop :=
  ∃ data, d.places.find? p = some data ∧ data.storage = storage

theorem Stands.shown {d : Draft} {storage : Storage} (stands : d.Stands storage p) :
    (d.shown p).2 = storage := by
  obtain ⟨data, found, same⟩ := stands
  simp only [Draft.shown, found, same]

structure Sorted (d : Draft) : Prop where
  inputs : ∀ i ∈ d.inputs, d.Stands .input i.place
  outputs : ∀ o ∈ d.outputs, d.Stands .output o.place
  builtins : ∀ o ∈ d.builtins, d.Stands .output o.place
  bindings : ∀ b ∈ d.bindings, d.Stands .uniform b.place ∨ d.Stands .uniformConstant b.place
  locals : ∀ p ∈ d.locals, d.Stands .function p

end Draft

namespace Emit

variable {d : Draft}

theorem tells_allVariables (sorted : d.Sorted) :
    Tells (allVariables d) d.shared (d.exposed.flatMap markedAs)
      fun ids => ids = d.inputIds ++ d.outputIds ++ d.builtinIds := by
  have inputs : Tells (located d 0 (d.inputs.toList.map Input.place)) _ _ _ :=
    tells_located (fun p member => by
      obtain ⟨i, listed, rfl⟩ := List.mem_map.mp member
      simp [(sorted.inputs i (Array.mem_toList_iff.mp listed)).shown]) 0
  have outputs : Tells (located d 0 (d.outputs.toList.map Output.place)) _ _ _ :=
    tells_located (fun p member => by
      obtain ⟨o, listed, rfl⟩ := List.mem_map.mp member
      simp [(sorted.outputs o (Array.mem_toList_iff.mp listed)).shown]) 0
  have builtins : Tells (d.builtins.toList.mapM (builtinDecl d)) _ _ _ :=
    tells_builtins fun o listed => by
      simp [(sorted.builtins o (Array.mem_toList_iff.mp listed)).shown]
  have bindings : Tells (d.bindings.toList.foldlM (bindingDecl d) []) _ _ _ :=
    tells_bindings (fun b listed => by
      rcases sorted.bindings b (Array.mem_toList_iff.mp listed) with stands | stands
      all_goals simp [stands.shown]) []
  rw [List.map_map, List.map_map] at inputs outputs
  simp only [Draft.shared, Draft.exposed, List.flatMap_append, List.append_assoc]
  refine Tells.bind inputs fun ids₁ same₁ => Tells.bind outputs fun ids₂ same₂ => ?_
  refine Tells.bind builtins fun ids₃ same₃ => Tells.last bindings fun _ _ => ?_
  refine Tells.knowing (tells_locals fun p listed =>
    (sorted.locals p (Array.mem_toList_iff.mp listed)).shown) fun _ _ => tells_pure ?_
  rw [same₁, same₂, same₃, List.append_assoc]
  rfl

/-- A whole compilation tells what the lists of the draft hold, and gives the ids of its interface
in the order inputs, outputs, outputs with a fixed role. -/
theorem tells_everything (sorted : d.Sorted) :
    Tells (everything d) d.shared (d.exposed.flatMap markedAs)
      fun done => done.2 = d.inputIds ++ d.outputIds ++ d.builtinIds := by
  unfold everything
  have run : Tells (do
      let ids ← entry
      let interface ← allVariables d
      functionBody d
      return (ids, interface)) d.shared (d.exposed.flatMap markedAs)
      fun done => done.2 = d.inputIds ++ d.outputIds ++ d.builtinIds :=
    Tells.after (walk_entry announcing_discreet.noting.inner) fun ids =>
      Tells.last (tells_allVariables sorted) fun interface same =>
        Tells.after (announcing_discreet.noting.functionBody d.types d) fun _ => tells_pure same
  split
  · exact fun _ => trivial
  · exact run

end Emit

end ShaderIR
