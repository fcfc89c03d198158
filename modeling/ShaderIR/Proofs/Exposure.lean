import ShaderIR.Proofs.Catalogue
import ShaderIR.Proofs.Resources
import ShaderIR.Proofs.Telling

/-! How a module is met from outside. Its entry point lists the variables that are read and written,
each once; locations are numbered in the order of the slots and of the calls, roles and descriptors
belong to one variable each, and every descriptor that a resource was given for has its variable. -/
namespace ShaderIR

def Instruction.interface? : Instruction → Option (List Id)
  | .entryPoint _ _ _ ids => some ids
  | _ => none

namespace ShaderModule

def interfaces (m : ShaderModule) : List (List Id) :=
  m.instructions.filterMap Instruction.interface?

def decorations (m : ShaderModule) (id : Id) : List Decoration :=
  ((m.instructions.filterMap Instruction.mark?).filter fun mark => mark.1 = id).map Prod.snd

end ShaderModule

namespace Call

def slot? : Call → Option Ty
  | .addInput ty => some ty
  | _ => none

end Call

namespace Draft

def descriptors (d : Draft) : List (Word × Word) :=
  d.bindings.toList.map fun b => (b.set, b.binding)

section Step

variable {d d' : Draft}

structure Lists (d d' : Draft) : Prop where
  inputs : ∀ i ∈ d'.inputs, i ∈ d.inputs ∨ d'.Stands .input i.place := by exact fun _ => .inl
  outputs : ∀ o ∈ d'.outputs, o ∈ d.outputs ∨ d'.Stands .output o.place := by exact fun _ => .inl
  builtins : ∀ o ∈ d'.builtins, o ∈ d.builtins ∨ d'.Stands .output o.place := by
    exact fun _ => .inl
  bindings : ∀ b ∈ d'.bindings, b ∈ d.bindings ∨ d'.Stands .uniform b.place ∨
    d'.Stands .uniformConstant b.place := by exact fun _ => .inl
  locals : ∀ p ∈ d'.locals, p ∈ d.locals ∨ d'.Stands .function p := by exact fun _ => .inl

theorem Sorted.grow (sorted : d.Sorted)
    (kept : ∀ storage p, d.Stands storage p → d'.Stands storage p) (lists : Lists d d') :
    d'.Sorted where
  inputs i member := (lists.inputs i member).elim (fun old => kept _ _ (sorted.inputs i old)) id
  outputs o member := (lists.outputs o member).elim (fun old => kept _ _ (sorted.outputs o old)) id
  builtins o member :=
    (lists.builtins o member).elim (fun old => kept _ _ (sorted.builtins o old)) id
  bindings b member := (lists.bindings b member).elim
    (fun old => (sorted.bindings b old).imp (kept _ _) (kept _ _)) id
  locals p member := (lists.locals p member).elim (fun old => kept _ _ (sorted.locals p old)) id

theorem Stands.evolve {storage : Storage} {p : Place} (stands : d.Stands storage p)
    (evolves : d.places.Evolves d'.places)
    (known : (d.places.find? p).isSome → (d'.places.find? p).isSome) : d'.Stands storage p := by
  obtain ⟨data, found, same⟩ := stands
  obtain ⟨data', found'⟩ := Option.isSome_iff_exists.mp (known (by rw [found]; rfl))
  obtain ⟨old, before, kept⟩ := evolves.old p data' (Places.index_lt_next found) found'
  obtain rfl := Option.mem_unique found before
  refine ⟨data', found', ?_⟩
  rw [kept]
  exact same

theorem stands_next {storage : Storage} {ty : Ty} {writable : Bool}
    (places : d'.places = d.places.push (d.variableData storage ty writable)) :
    d'.Stands storage d.places.next :=
  ⟨_, (places ▸ Places.find?_push ..).trans (if_pos rfl), rfl⟩

theorem mem_push_cases {α : Type} {P : α → Prop} {items : Array α} {new : α} (holds : P new) :
    ∀ a ∈ items.push new, a ∈ items ∨ P a := by
  intro a member
  rcases Array.mem_push.mp member with before | rfl
  · exact .inl before
  · exact .inr holds

theorem bound_sorted {set binding : Word} {kind : BindingKind} {ty : Ty} {p : Place}
    (bound : Bound d set binding kind ty p d') (sorted : d.Sorted) : d'.Sorted := by
  cases bound with
  | again => exact sorted
  | @new storage _ fits =>
    refine sorted.grow (fun _ _ stands => stands.evolve (Places.evolves_push _ _) fun known =>
      Places.known_push known _) { bindings := mem_push_cases ?_ }
    have stands : (d.withBinding set binding kind ty storage).Stands storage d.places.next :=
      stands_next rfl
    -- Blocks are uniform, and textures are constant.
    unfold bindingStorage at fits
    split at fits
    · obtain rfl := Except.ok.inj fits
      exact .inl stands
    · obtain rfl := Except.ok.inj fits
      exact .inl stands
    · contradiction
    · contradiction
    · obtain rfl := Except.ok.inj fits
      exact .inr stands

theorem bound_descriptors {set binding : Word} {kind : BindingKind} {ty : Ty} {p : Place}
    (bound : Bound d set binding kind ty p d') (distinct : d.descriptors.Nodup) :
    d'.descriptors.Nodup := by
  cases bound with
  | again => exact distinct
  | @new storage missing =>
    have list : (d.withBinding set binding kind ty storage).descriptors =
        d.descriptors ++ [(set, binding)] := by
      simp [descriptors, withBinding, withVariable, withPlace]
    have fresh : (set, binding) ∉ d.descriptors := by
      intro member
      obtain ⟨b, listed, same⟩ := List.mem_map.mp member
      obtain ⟨rfl, rfl⟩ := Prod.mk.inj same
      have differs := Array.find?_eq_none.mp missing b (Array.mem_toList_iff.mp listed)
      simp at differs
    rw [list, ← List.concat_eq_append]
    exact distinct.concat fresh

end Step

end Draft

open Draft

section Effect

variable {d d' : Draft} {c : Call} {reply : Reply}

theorem Effect.sorted (effect : Effect d c reply d') (valid : d.graph.Valid) (sorted : d.Sorted) :
    d'.Sorted := by
  have grow := sorted.grow fun _ _ stands =>
    stands.evolve (effect.evolves valid).places effect.known
  cases effect with
  | addInput => exact grow { inputs := mem_push_cases (stands_next rfl) }
  | output => exact grow { outputs := mem_push_cases (stands_next rfl) }
  | builtin => exact grow { builtins := mem_push_cases (stands_next rfl) }
  | localVariable => exact grow { locals := mem_push_cases (stands_next rfl) }
  | uniform bound | storage bound => exact bound_sorted bound sorted
  | texture bound =>
    exact (bound_sorted bound sorted).grow (fun _ _ stands =>
      stands.evolve (Places.evolves_markAccessed _ _) fun known =>
        Places.known_markAccessed known _) {}
  | @beginFor _ _ low high =>
    refine grow { locals := ?_ }
    have counter : ((d.withBounds low high).withLocal .sint).Stands .function
        (d.withBounds low high).places.next := stands_next rfl
    exact mem_push_cases (counter.evolve (Places.evolves_markAccessed _ _) fun known =>
      Places.known_markAccessed known _)
  | _ => exact grow {}

theorem Effect.slots (effect : Effect d c reply d') :
    d'.inputs.toList.map Input.ty = d.inputs.toList.map Input.ty ++ c.slot?.toList := by
  cases effect with
  | addInput => simp [withInput, Call.slot?]
  | uniform bound | storage bound | texture bound =>
    cases bound <;> exact (List.append_nil _).symm
  | _ => exact (List.append_nil _).symm

theorem Effect.roles (effect : Effect d c reply d')
    (distinct : (d.builtins.toList.map BuiltinOutput.builtin).Nodup) :
    (d'.builtins.toList.map BuiltinOutput.builtin).Nodup := by
  cases effect with
  | @builtin role value v _ free =>
    have list : (d.withBuiltin role value v.ty).builtins.toList.map BuiltinOutput.builtin =
        d.builtins.toList.map BuiltinOutput.builtin ++ [role] := by
      simp [withBuiltin]
    have fresh : role ∉ d.builtins.toList.map BuiltinOutput.builtin := by
      intro member
      obtain ⟨o, listed, rfl⟩ := List.mem_map.mp member
      rw [Array.any_eq_false'] at free
      exact free o (Array.mem_toList_iff.mp listed) (beq_self_eq_true _)
    rw [list, ← List.concat_eq_append]
    exact distinct.concat fresh
  | uniform bound | storage bound | texture bound => cases bound <;> exact distinct
  | _ => exact distinct

theorem Effect.descriptors (effect : Effect d c reply d') (distinct : d.descriptors.Nodup) :
    d'.descriptors.Nodup := by
  cases effect with
  | uniform bound | storage bound | texture bound => exact (bound_descriptors bound distinct :)
  | _ => exact distinct

end Effect

namespace Draft

variable {d : Draft}

structure Exposes (past : List Call) (d : Draft) : Prop where
  sorted : d.Sorted
  slots : d.inputs.toList.map Input.ty = past.filterMap Call.slot?
  outputs : d.outputs.toList.map Output.value = past.filterMap Call.output?
  builtins : d.builtins.toList.map (fun o => (o.builtin, o.value)) = past.filterMap Call.builtin?
  roles : (d.builtins.toList.map BuiltinOutput.builtin).Nodup
  distinct : d.descriptors.Nodup

theorem Exposes.effect {past : List Call} (exposes : d.Exposes past) (valid : d.graph.Valid)
    {c : Call} {reply : Reply} {d' : Draft} (effect : Effect d c reply d') :
    d'.Exposes (past ++ [c]) where
  sorted := effect.sorted valid exposes.sorted
  slots := by rw [effect.slots, exposes.slots, filterMap_snoc]
  outputs := by rw [effect.outputs.1, exposes.outputs, filterMap_snoc]
  builtins := by rw [effect.outputs.2, exposes.builtins, filterMap_snoc]
  roles := effect.roles exposes.roles
  distinct := effect.descriptors exposes.distinct

theorem Exposes.withSlots {past : List Call} (exposes : d.Exposes past) (valid : d.graph.Valid)
    (slots : List Ty) : (d.withSlots slots).Exposes (past ++ slots.map Call.addInput) := by
  induction slots generalizing past d with
  | nil => rwa [List.map_nil, List.append_nil]
  | cons ty rest ih =>
    have first := exposes.effect valid (Effect.addInput ty)
    rw [List.map_cons, List.append_cons]
    exact ih first (valid_withInput valid ty)

theorem exposes_new (settings : Settings) : (new settings).Exposes [] := by
  refine ⟨⟨?_, ?_, ?_, ?_, ?_⟩, rfl, rfl, rfl, List.nodup_nil, List.nodup_nil⟩
  all_goals simp [new]

theorem exposes_begun (settings : Settings) (slots : List Ty) {program : List Call}
    (building : ∀ c ∈ program, c.restarts = false) :
    (((new settings).withSlots slots).after program).Exposes
      (slots.map Call.addInput ++ ((new settings).withSlots slots).accepted program) := by
  have start := (exposes_new settings).withSlots (valid_new settings) slots
  refine after_accepts (I := fun past d => d.Exposes past)
    (fun past d valid exposes c reply d' => exposes.effect valid) ?_ building
    (valid_withSlots (valid_new settings) slots) start
  intro past d exposes value g
  have sorted : { d with graph := g }.Sorted := { exposes.sorted with }
  have same : ∀ {β : Type} (f : Call → Option β), f (.release value) = none →
      (past ++ [Call.release value]).filterMap f = past.filterMap f := by
    intro β f none
    rw [filterMap_snoc, none, Option.toList_none, List.append_nil]
  constructor
  · exact { exposes with sorted }
  · exact { exposes with
      sorted
      slots := exposes.slots.trans (same _ rfl).symm
      outputs := exposes.outputs.trans (same _ rfl).symm
      builtins := exposes.builtins.trans (same _ rfl).symm }

end Draft

namespace Emission

section Module

variable {d : Draft} {e : Emission} {ids : EntryIds} {interface : List Id} {α : Type}
  {key : Instruction → Option α}

theorem filterMap_mode (s : Settings) (function : Id)
    (origin : key (.originUpperLeft function) = none)
    (size : key (.localSize function s.localSize) = none) :
    (s.executionMode function).filterMap key = [] := by
  unfold Settings.executionMode
  split
  · exact List.filterMap_cons_none origin
  · exact List.filterMap_cons_none size
  · rfl

def Lacks (key : Instruction → Option α) (part : Part) : Prop := ∀ i, i.part = part → key i = none

theorem filterMap_of_part {items : List Instruction} {part : Part}
    (all : ∀ i ∈ items, i.part = part) (none : Lacks key part) : items.filterMap key = [] := by
  rw [List.filterMap_eq_nil_iff]
  exact fun i member => none i (all i member)

/-- The sections of a module, seen through a key that the code of the function does not have. -/
theorem Sections.filterMap (sections : e.Sections) (body : Lacks key .body)
    (bracket : Lacks key .bracket) :
    (e.instructions d ids interface).filterMap key =
      (heading d ids interface).filterMap key ++ e.annotations.toList.filterMap key ++
        e.declarations.toList.filterMap key ++ e.locals.toList.filterMap key := by
  have written := filterMap_of_part
    (fun i member => sections.body i (Array.mem_toList_iff.mp member)) body
  have begins := bracket (.functionBegin ids.void ids.function ids.signature) rfl
  have labelled := body (.label ids.label) rfl
  have returns := body .returnVoid rfl
  have ends := bracket .functionEnd rfl
  simp only [instructions, heading, List.filterMap_append, written,
    List.filterMap_cons_none begins, List.filterMap_cons_none labelled,
    List.filterMap_cons_none returns, List.filterMap_cons_none ends, List.filterMap_nil,
    List.append_nil]

section Keys

variable (sections : e.Sections)

include sections

theorem Sections.annotations_nil (none : Lacks key .decoration) :
    e.annotations.toList.filterMap key = [] :=
  filterMap_of_part (fun i member => sections.annotations i (Array.mem_toList_iff.mp member)) none

theorem Sections.declarations_nil (none : Lacks key .declaration) :
    e.declarations.toList.filterMap key = [] :=
  filterMap_of_part (fun i member => sections.declarations i (Array.mem_toList_iff.mp member)) none

theorem Sections.locals_nil (none : Lacks key .own) :
    e.locals.toList.filterMap key = [] := by
  refine filterMap_of_part (fun i member => ?_) none
  obtain ⟨_, _, rfl⟩ := sections.locals i (Array.mem_toList_iff.mp member)
  rfl

end Keys

theorem Sections.interfaces (sections : e.Sections) :
    (e.instructions d ids interface).filterMap Instruction.interface? = [interface] := by
  have outside : ∀ {part}, part ≠ .preamble → Lacks Instruction.interface? part := by
    rintro _ other i rfl
    cases i with
    | entryPoint => exact absurd rfl other
    | _ => rfl
  have capabilities : (d.capabilities.map Instruction.capability).filterMap
      Instruction.interface? = [] := by
    simp [Instruction.interface?]
  rw [sections.filterMap (outside nofun) (outside nofun), sections.annotations_nil (outside nofun),
    sections.declarations_nil (outside nofun), sections.locals_nil (outside nofun), heading,
    List.filterMap_append, List.filterMap_append, capabilities, filterMap_mode _ _ rfl rfl]
  rfl

/-- The annotations of a module, seen through a key that nothing else has. -/
theorem Sections.decorations (sections : e.Sections)
    (outside : ∀ i : Instruction, i.part ≠ .decoration → key i = none) :
    (e.instructions d ids interface).filterMap key = e.annotations.toList.filterMap key := by
  have lacks {part} (other : part ≠ .decoration) : Lacks key part :=
    fun i same => outside i (same ▸ other)
  rw [sections.filterMap (lacks nofun) (lacks nofun),
    filterMap_of_part (fun i member => (of_heading member).1) (lacks nofun),
    sections.declarations_nil (lacks nofun), sections.locals_nil (lacks nofun), List.nil_append,
    List.append_nil, List.append_nil]

theorem Sections.marks (sections : e.Sections) :
    (e.instructions d ids interface).filterMap Instruction.mark? = e.marks := by
  refine sections.decorations fun i part => ?_
  cases i with
  | decorate => exact absurd rfl part
  | _ => rfl

theorem Sections.roots (sections : e.Sections) :
    (e.instructions d ids interface).filterMap Instruction.root? =
      e.roots ++ e.locals.toList.filterMap Instruction.root? := by
  have outside : ∀ {part}, part ∉ [.declaration, .own] → Lacks Instruction.root? part := by
    rintro _ other i rfl
    cases i with
    | variableDecl type id storage =>
      simp only [Instruction.part] at other
      split at other <;> simp at other
    | _ => rfl
  rw [sections.filterMap (outside (by decide)) (outside (by decide)),
    filterMap_of_part (fun i member => (of_heading member).1) (outside (by decide)),
    sections.annotations_nil (outside (by decide))]
  rfl

end Module

end Emission

theorem marks_of_other {id : Id} {xs : List (Id × List Decoration)} (other : id ∉ xs.map Prod.fst) :
    (xs.flatMap markedAs).filter (fun mark => mark.1 = id) = [] := by
  rw [List.filter_eq_nil_iff]
  intro mark member
  obtain ⟨x, listed, marked⟩ := List.mem_flatMap.mp member
  obtain ⟨decoration, _, rfl⟩ := List.mem_map.mp marked
  simp only [decide_eq_true_eq]
  rintro rfl
  exact other (List.mem_map_of_mem listed)

/-- An id that is marked once has the decorations that it is marked with. -/
theorem marks_of_id {xs : List (Id × List Decoration)} (distinct : (xs.map Prod.fst).Nodup)
    {x : Id × List Decoration} (member : x ∈ xs) :
    ((xs.flatMap markedAs).filter fun mark => mark.1 = x.1).map Prod.snd = x.2 := by
  obtain ⟨before, after, rfl⟩ := List.append_of_mem member
  rw [List.map_append, List.map_cons, List.nodup_middle, List.nodup_cons, List.mem_append,
    not_or] at distinct
  have own : (markedAs x).filter (fun mark => mark.1 = x.1) = markedAs x := by
    simp [markedAs]
  rw [List.flatMap_append, List.flatMap_cons, List.filter_append, List.filter_append,
    marks_of_other distinct.1.1, marks_of_other distinct.1.2, own]
  simp [markedAs, Function.comp_def]

namespace Draft

variable {d : Draft}

theorem locations_fst (index : Nat) (ids : List Id) :
    (Emit.locations index ids).map Prod.fst = ids := by
  induction ids generalizing index with
  | nil => rfl
  | cons id rest ih => rw [Emit.locations, List.map_cons, ih]

theorem exposed_ids (d : Draft) :
    d.exposed.map Prod.fst = d.inputIds ++ d.outputIds ++ d.builtinIds ++ d.resourceIds := by
  simp only [exposed, List.map_append, locations_fst, List.map_map]
  rfl

theorem shared_ids (d : Draft) : d.shared.map Prod.fst = d.exposed.map Prod.fst := by
  simp only [exposed_ids, shared, List.map_append, List.map_map]
  rfl

theorem assemble_told (sorted : d.Sorted) {m : ShaderModule} {e : Emission}
    (run : d.assemble = .ok m e) :
    e.roots = d.shared ∧ e.marks = d.exposed.flatMap markedAs ∧
      ∃ ids, m.instructions =
        e.instructions d ids (d.inputIds ++ d.outputIds ++ d.builtinIds) := by
  obtain ⟨ids, interface, done, put, _⟩ := assemble_eq_ok run
  obtain ⟨roots, marks, same⟩ := (Emit.tells_everything sorted (.start d)).ok done
  obtain rfl : interface = _ := same
  exact ⟨roots, marks, ids, put⟩

structure Told (d : Draft) (m : ShaderModule) : Prop where
  interfaces : m.interfaces = [d.inputIds ++ d.outputIds ++ d.builtinIds]
  roots : ∃ own : List (Id × Storage), (∀ v ∈ own, v.2 = .function) ∧
    m.instructions.filterMap Instruction.root? = d.shared ++ own
  distinct : (d.exposed.map Prod.fst).Nodup
  decorations : ∀ x ∈ d.exposed, m.decorations x.1 = x.2

theorem Proper.told {strict : Prop} (proper : d.Proper strict) (sorted : d.Sorted)
    {m : ShaderModule} (compiled : d.compilation.result = .ok m) : d.Told m := by
  obtain ⟨e, run, _, _, _, parts, put, _⟩ := proper.assemble_ok compiled
  obtain ⟨roots, marks, ids, written⟩ := assemble_told sorted run
  have sections := (parts.sections proper.sound)
  have results : (m.instructions.filterMap Instruction.result?).Nodup := by
    rw [put]
    exact parts.distinct proper
  have declared : m.instructions.filterMap Instruction.root? =
      d.shared ++ e.locals.toList.filterMap Instruction.root? := by
    rw [written, sections.roots, roots]
  have distinct : (d.exposed.map Prod.fst).Nodup := by
    have named : ∀ (i : Instruction) (id : Id), i.root?.map Prod.fst = some id →
        i.result? = some id := by
      intro i id known
      cases i with
      | variableDecl => exact known
      | _ => contradiction
    have ids : (m.instructions.filterMap fun i => i.root?.map Prod.fst).Nodup := by
      refine nodup_filterMap_of_results results (fun i _ id known => ⟨id, named i id known⟩) ?_
      intro i _ j _ id known known'
      rw [named i id known, named j id known']
    rw [← List.map_filterMap, declared, List.map_append] at ids
    rw [← shared_ids]
    exact (List.nodup_append.mp ids).1
  refine ⟨?_, ⟨_, ?_, declared⟩, distinct, fun x member => ?_⟩
  · rw [ShaderModule.interfaces, written, sections.interfaces]
  · intro v member
    obtain ⟨i, listed, known⟩ := List.mem_filterMap.mp member
    obtain ⟨type, id, rfl⟩ := sections.locals i (Array.mem_toList_iff.mp listed)
    obtain rfl := Option.some.inj known
    rfl
  · rw [ShaderModule.decorations, written, sections.marks, marks]
    exact marks_of_id distinct member

end Draft

end ShaderIR
