import ShaderIR.Proofs.Aging
import ShaderIR.Proofs.Owners

/-! Using a draft again. After a compilation or a reset a draft is a new one with its handles moved
up, apart from what its type table remembers. -/
namespace ShaderIR

variable {Q : TypeTable → Prop} {d : Draft} {s : Shift} {types : TypeTable} {e : Emission}
  {ids : EntryIds} {m : ShaderModule}

/-! The type table that a compilation leaves. -/

namespace Emit

/-- A part of a compilation that keeps a property of the type table, also if it fails. -/
abbrev Preserves (Q : TypeTable → Prop) {α : Type} (x : Emit α) : Prop :=
  Leads (fun e e' => Q e.types → Q e'.types) x

theorem noting_preserves (kept : TypeTable.Kept Q) : Noting .still (Alone (Preserves Q)) := by
  have announcing : Announcing .still (Alone (Preserves Q)) :=
    announcing_leads (fun _ => id) (fun first second => second ∘ first) (fun _ => id)
      (fun _ _ _ => id) (fun _ _ same holds => same.types ▸ holds)
      fun e ty => kept.declare e.types ty e.nextId
  exact announcing.noting

theorem whole_preserves (kept : TypeTable.Kept Q) : Whole .still (Alone (Preserves Q)) where
  inner := (noting_preserves kept).inner
  variableDecl _ _ _ _ := id
  locate _ _ _ _ := id
  annotate _ _ := id
  note ty e := kept.decorate e.types ty

theorem declares_void (e : Emission) :
    Outcome (type .void) e (fun _ e' => (e'.types.find? .void).isSome) fun _ _ => False := by
  rw [type]
  unfold scalarType onceType
  cases declared : e.types.find? .void with
  | some line => simp [TypeTable.id?, declared]
  | none =>
    simp [TypeTable.id?, declared, announce, freshId, declare, TypeTable.find?_declare]

end Emit

namespace Draft

def finalEmission (d : Draft) : Emission :=
  match Emit.everything d (.start d) with
  | .ok _ e => e
  | .error _ e => e

theorem leaves_compile (d : Draft) : Call.compile.leaves d = d.restart d.finalEmission.types := by
  simp only [Call.leaves, Call.run, compile, Functor.map, EStateM.map, compilation, assemble,
    finalEmission, EStateM.run]
  cases Emit.everything d (.start d) <;> rfl

theorem leaves_reset (d : Draft) : Call.reset.leaves d = d.restart d.types := rfl

theorem finalEmission_open (d : Draft) (opened : d.scopes ≠ []) :
    d.finalEmission.types = d.types := by
  have refused : Emit.everything d (.start d) =
      .error (.controlFlow .openAtCompile) (.start d) := by
    unfold Emit.everything
    rw [if_pos (by simpa using opened)]
    rfl
  simp only [finalEmission, refused]
  rfl

theorem finalEmission_of_outcome
    (outcome : Outcome (Emit.everything d) (.start d) (fun _ e => Q e.types) fun _ e => Q e.types) :
    Q d.finalEmission.types := by
  unfold finalEmission
  cases run : Emit.everything d (.start d) with
  | ok done e => exact outcome.ok run
  | error fault e => exact outcome.error run

theorem finalEmission_grows (d : Draft) : d.types.Grows d.finalEmission.types := by
  by_cases closed : d.scopes = []
  · have kept := TypeTable.kept_grows d.types
    exact finalEmission_of_outcome ((Emit.walk_everything (Emit.whole_preserves kept) d.types d
      closed (Emit.walk_demand (Emit.noting_preserves kept) ..) _).mono
        (fun _ _ keeps => keeps (.refl _)) fun _ _ keeps => keeps (.refl _))
  · rw [d.finalEmission_open closed]
    exact .refl _

theorem finalEmission_void (d : Draft) (closed : d.scopes = []) :
    (d.finalEmission.types.find? .void).isSome := by
  have kept := TypeTable.kept_declared .void
  have steps := Emit.whole_preserves kept
  refine finalEmission_of_outcome (Q := fun t => (t.find? .void).isSome) ?_
  unfold Emit.everything
  rw [closed]
  refine (outcome_bind ..).mpr ((outcome_bind ..).mpr ((Emit.declares_void _).mono ?_ ?_))
  · intro void e declared
    have rest := steps.next (Emit.walk_entryIds steps.core void) fun ids =>
      steps.next (Emit.walk_allVariables steps d.types d) fun interface =>
        steps.next ((Emit.noting_preserves kept).functionBody d.types d) fun _ =>
          steps.pure id (ids, interface)
    have last := (rest e).mono (fun _ _ keeps => keeps declared) fun _ _ keeps => keeps declared
    exact (outcome_bind ..).mp last
  · exact fun _ _ failed => failed.elim

end Draft

/-! How many compilations a draft has been through. -/

/-- A compilation that finds no block open. Any other one ends before it declares anything. -/
def Call.assembles (d : Draft) : Call → Bool
  | .compile => d.scopes.isEmpty
  | _ => false

namespace Draft

def assemblies (d : Draft) : List Call → Nat
  | [] => 0
  | c :: rest => (if c.assembles d then 1 else 0) + (c.leaves d).assemblies rest

theorem assemblies_append (d : Draft) (calls more : List Call) :
    d.assemblies (calls ++ more) = d.assemblies calls + (d.after calls).assemblies more := by
  induction calls generalizing d with
  | nil => exact (Nat.zero_add _).symm
  | cons c rest ih =>
    simp only [List.cons_append, assemblies, after, ih, Nat.add_assoc]

structure Used (settings : Settings) (compilations : Nat) (d : Draft) : Prop where
  valid : d.graph.Valid
  settings : d.settings = settings
  aged : d.types.Aged compilations

variable {settings : Settings} {n : Nat}

theorem Used.leaves (used : d.Used settings n) (c : Call) :
    (c.leaves d).Used settings (n + if c.assembles d then 1 else 0) := by
  have building : c.builds = true → (c.leaves d).Used settings n := by
    intro builds
    rcases Call.leaves_cases used.valid builds with ⟨reply, _, effect⟩ | ⟨_, same⟩
    · obtain ⟨settings, types⟩ := effect.frame
      exact ⟨effect.valid used.valid, settings.trans used.settings, types ▸ used.aged⟩
    · rwa [same]
  cases c with
  | release value =>
    obtain ⟨g, shrinks, same⟩ := leaves_release (d := d) value
    rw [same]
    exact ⟨shrinks.valid used.valid, used.settings, used.aged⟩
  | reset =>
    obtain ⟨settings, types⟩ := restart_frame d d.types
    refine ⟨valid_restart d d.types, settings.trans used.settings, ?_⟩
    rw [leaves_reset, types, used.aged.forget]
    exact used.aged
  | compile =>
    rw [leaves_compile]
    obtain ⟨settings, types⟩ := restart_frame d d.finalEmission.types
    refine ⟨valid_restart d _, settings.trans used.settings, ?_⟩
    rw [types]
    by_cases closed : d.scopes = []
    · rw [Call.assembles, if_pos (by simp [closed])]
      exact used.aged.next d.finalEmission_grows (d.finalEmission_void closed)
    · rw [Call.assembles, if_neg (by simpa using closed), d.finalEmission_open closed,
        used.aged.forget]
      exact used.aged
  | _ => exact building rfl

theorem Used.after (used : d.Used settings n) (calls : List Call) :
    (d.after calls).Used settings (n + d.assemblies calls) := by
  induction calls generalizing d n with
  | nil => exact used
  | cons c rest ih =>
    have rested := ih (used.leaves c)
    rwa [Nat.add_assoc] at rested

theorem used_new (settings : Settings) (slots : List Ty) :
    ((new settings).withSlots slots).Used settings 0 := by
  obtain ⟨same, types⟩ := withSlots_frame (new settings) slots
  refine ⟨valid_withSlots (valid_new settings) slots, same, ?_⟩
  rw [types]
  exact ⟨rfl, fun _ => rfl⟩

/-! A draft that starts over is a new one with its handles moved up. -/

def moves (d : Draft) : Shift := ⟨d.releasedGraph.nextSerial, d.places.base + d.places.entries.size⟩

theorem cleared_eq (d : Draft) (types : TypeTable) :
    d.cleared types = d.moves.draft types.forget (new d.settings) := by
  simp [cleared, Shift.draft, new, Shift.graph, Graph.clear, Shift.table, Places.clear, Shift.trace,
    moves]

theorem stored_shift {g : Graph} {slot : Nat} {n : Node}
    (stored : (s.graph g).slots[slot]? = some (some n)) :
    ∃ original, g.slots[slot]? = some (some original) ∧ s.node original = n := by
  simp only [Shift.graph, Array.getElem?_map, Option.map_eq_some_iff] at stored
  obtain ⟨content, found, original, rfl, same⟩ := stored
  exact ⟨original, found, same⟩

theorem edgesInto_shift (g : Graph) (slot : Nat) (n : Node) :
    (s.graph g).edgesInto slot (s.node n) = g.edgesInto slot n := by
  simp only [Graph.edgesInto, Shift.node, List.zipIdx_map, List.filter_map, List.map_map,
    Function.comp_def, Prod.map_fst, Shift.graph_contains]
  rfl

theorem valid_shift {g : Graph} (valid : g.Valid) : (s.graph g).Valid where
  empty slot member := by
    simp only [Shift.graph, Array.getElem?_map, valid.empty slot member]
    rfl
  nodup := valid.nodup
  serial slot n stored := by
    obtain ⟨original, found, rfl⟩ := stored_shift stored
    exact Nat.add_lt_add_right (valid.serial slot original found) s.serials
  older slot n stored := by
    obtain ⟨original, found, rfl⟩ := stored_shift stored
    intro o member
    obtain ⟨source, listed, rfl⟩ := List.mem_map.mp member
    exact Nat.add_lt_add_right (valid.older slot original found source listed) s.serials
  targets e member := by
    obtain ⟨n, stored⟩ := valid.targets e member
    exact ⟨s.node n, by simp only [Shift.graph, Array.getElem?_map, stored, Option.map_some]⟩
  wired slot n stored := by
    obtain ⟨original, found, rfl⟩ := stored_shift stored
    rw [edgesInto_shift]
    exact valid.wired slot original found

theorem shift_withSlots (valid : d.graph.Valid) (slots : List Ty) :
    (s.draft types d).withSlots slots = s.draft types (d.withSlots slots) := by
  induction slots generalizing d with
  | nil => rfl
  | cons ty rest ih =>
    have valid' : (s.draft types d).graph.Valid := valid_shift valid
    obtain ⟨h, moved, run, _, same⟩ :=
      (carries_addInput ty d (s.draft types d) rfl).ok (addInput_ok valid ty)
    rw [addInput_ok valid' ty] at run
    obtain ⟨_, rfl⟩ := EStateM.Result.ok.inj run
    have next := ih (valid_withInput valid ty)
    rw [← same] at next
    exact next

theorem restart_moves (d : Draft) (types : TypeTable) :
    d.restart types = d.moves.draft types.forget
      ((new d.settings).withSlots (d.inputs.toList.map Input.ty)) := by
  rw [restart_eq, cleared_eq]
  exact shift_withSlots (valid_new d.settings) _

end Draft

/-! Programs on a draft and on its renamed twin. -/

def Shift.answer (s : Shift) (x : Except Fault Reply) : Except Fault Reply :=
  (x.map s.reply).mapError s.fault

theorem Call.leaves_shift {c : Call} (building : c.restarts = false) :
    (s.call c).leaves (s.draft types d) = s.draft types (c.leaves d) ∧
      (s.call c).answer (s.draft types d) = s.answer (c.answer d) := by
  have alike := Call.twins_run building d (s.draft types d) rfl
  unfold Call.leaves Call.answer
  cases run : c.run d with
  | ok reply d' =>
    obtain ⟨_, _, run', rfl, rfl⟩ := alike.ok run
    rw [run']
    exact ⟨rfl, rfl⟩
  | error fault d' =>
    obtain ⟨_, _, run', rfl, rfl⟩ := alike.error run
    rw [run']
    exact ⟨rfl, rfl⟩

theorem Draft.after_shift {program : List Call} (building : ∀ c ∈ program, c.restarts = false) :
    (s.draft types d).after (program.map s.call) = s.draft types (d.after program) ∧
      (s.draft types d).answers (program.map s.call) = (d.answers program).map s.answer := by
  induction program generalizing d with
  | nil => exact ⟨rfl, rfl⟩
  | cons c rest ih =>
    obtain ⟨left, answered⟩ := @Call.leaves_shift d s types c (building c (by simp))
    obtain ⟨later, others⟩ := ih (d := c.leaves d) fun b member =>
      building b (List.mem_cons_of_mem c member)
    simp only [List.map_cons, Draft.after, Draft.answers, left, answered, later, others, and_self]

/-! Compiling the same program on a new draft and on one that started over. -/

theorem Draft.capabilities_shift (s : Shift) (types : TypeTable) (d : Draft) :
    (s.draft types d).capabilities = d.capabilities := by
  simp only [Draft.capabilities, Shift.draft, Array.toList_map, List.filterMap_map]
  rfl

/-- Parts of two compilations that keep them the same up to the names of locations and are not
refused for unpaired blocks. -/
abbrev Reflects (s : Shift) {α β : Type} (value : α → β) (x : Emit α) (y : Emit β) : Prop :=
  Agree s.Mirrors s.Repeats value x y

/-- Ids are given out and instructions are written in the same order, so two compilations stay the
same up to the names of locations. -/
theorem Emit.noting_reflects (s : Shift) : Noting s (Reflects s) := by
  have core : Stepwise s (Reflects s) :=
    { pure := fun value a => agree_pure value a
      throw := fun value _ paired => agree_throw value ⟨rfl, paired⟩
      get := fun rest e e' mirrors => rest e e' mirrors e e' mirrors
      bind := Agree.bind
      freshId := fun _ _ mirrors =>
        ⟨mirrors.nextId, { mirrors with nextId := congrArg (· + 1) mirrors.nextId }⟩
      proceed := fun mirrored _ => agree_modify mirrored
      declare := fun {i} _ => agree_modify fun _ _ mirrors =>
        { mirrors with declarations := congrArg (Array.push · i) mirrors.declarations } }
  refine Announcing.noting ⟨⟨core, fun mirrored _ => agree_modify mirrored⟩, fun ty form => ?_⟩
  refine core.next core.freshId fun id => core.next (agree_modify fun e e' mirrors => ?_)
    fun _ => core.next (core.declare rfl) fun _ => core.pure _ id
  refine { mirrors with types := fun other => ?_ }
  simp only [TypeTable.find?_declare, mirrors.types]

theorem Emit.whole_reflects (s : Shift) : Whole s (Reflects s) := by
  have annotate : ∀ i, Reflects s id (annotate i) (annotate i) := fun i =>
    agree_modify fun _ _ mirrors =>
      { mirrors with annotations := congrArg (Array.push · i) mirrors.annotations }
  refine
    { inner := (noting_reflects s).inner
      variableDecl := fun type id storage => agree_modify fun _ _ mirrors =>
        { mirrors with
          declarations := congrArg (Array.push · (.variableDecl type id storage))
            mirrors.declarations }
      locate := fun _ _ _ => annotate _
      annotate
      note := fun ty => agree_modify fun e e' mirrors => { mirrors with types := fun other => ?_ } }
  simp only [TypeTable.find?_markDecorated, mirrors.types]

/-- All of a compilation but the check that no block is open. -/
theorem Emit.reflects_everything (s : Shift) (types : TypeTable) (closed : d.scopes = []) :
    Reflects s id (everything d) (everything (s.draft types d)) :=
  walk_everything (whole_reflects s) types d closed (walk_demand (noting_reflects s) types d d.levels)

theorem Emit.agree_everything (s : Shift) (types : TypeTable) (d : Draft) :
    Agree s.Mirrors (fun f g => g = s.fault f) id (everything d)
      (everything (s.draft types d)) := by
  by_cases closed : d.scopes = []
  · exact (reflects_everything s types closed).mono fun _ _ => And.left
  · have opened : (!d.scopes.isEmpty) = true := by simpa using closed
    unfold everything
    rw [show (s.draft types d).scopes = d.scopes from rfl, opened]
    exact agree_throw id rfl

/-- As long as the same types count as declared, the same module comes out. -/
theorem Draft.result_shift (same : ∀ ty, types.find? ty = d.types.find? ty) :
    (s.draft types d).compilation.result = d.compilation.result.mapError s.fault := by
  have start : s.Mirrors (.start d) (.start (s.draft types d)) :=
    ⟨rfl, same, rfl, rfl, rfl, rfl, rfl, rfl, rfl, rfl, rfl, rfl⟩
  have alike := Emit.agree_everything s types d _ _ start
  simp only [compilation, assemble, EStateM.run]
  cases run : Emit.everything d (.start d) with
  | ok result e =>
    obtain ⟨_, e', run', rfl, mirrors⟩ := alike.ok run
    rw [run']
    simp only [Emission.instructions, Emission.encode, capabilities_shift, mirrors.annotations,
      mirrors.declarations, mirrors.locals, mirrors.body, mirrors.nextId]
    rfl
  | error fault e =>
    obtain ⟨_, e', run', rfl, _⟩ := alike.error run
    rw [run']
    rfl

/-- The number of ids that the entry function takes before the instruction set is imported tells
whether the empty type was declared. -/
theorem Emit.entry_glsl {u : Emission} (run : entry e = .ok ids u) :
    ids.glsl = e.nextId + if (e.types.find? .void).isSome then 3 else 4 := by
  have outcome : Outcome entry e
      (fun ids _ => ids.glsl = e.nextId + if (e.types.find? .void).isSome then 3 else 4)
      fun _ _ => True := by
    unfold entry
    rw [type]
    unfold scalarType onceType
    cases declared : e.types.find? .void with
    | some line => simp [TypeTable.id?, declared, freshId, declare]
    | none => simp [TypeTable.id?, declared, announce, freshId, declare]
  exact outcome.ok run

theorem Draft.everything_glsl {interface : List Id}
    (run : Emit.everything d (.start d) = .ok (ids, interface) e) :
    ids.glsl = d.nextId + if (d.types.find? .void).isSome then 3 else 4 := by
  unfold Emit.everything at run
  split at run
  · contradiction
  · obtain ⟨ids', u, entered, run⟩ := bind_eq_ok.mp run
    obtain ⟨interface', v, _, run⟩ := bind_eq_ok.mp run
    obtain ⟨_, w, _, run⟩ := bind_eq_ok.mp run
    obtain ⟨same, _⟩ := EStateM.Result.ok.inj run
    obtain ⟨rfl, _⟩ := Prod.mk.inj same
    exact Emit.entry_glsl entered

/-- Once the empty type counts as declared, every module comes out different. -/
theorem Draft.words_differ {m' : ShaderModule} (stuck : (types.find? .void).isSome)
    (fresh : d.types.find? .void = none) (compiled : d.compilation.result = .ok m)
    (compiled' : (s.draft types d).compilation.result = .ok m') : m'.words ≠ m.words := by
  intro same
  obtain ⟨e, done⟩ := result_eq_ok compiled
  obtain ⟨e', done'⟩ := result_eq_ok compiled'
  obtain ⟨ids, interface, run, listed, _⟩ := assemble_eq_ok done
  obtain ⟨ids', interface', run', listed', _⟩ := assemble_eq_ok done'
  have glsl : ids.glsl = d.nextId + 4 := by
    rw [everything_glsl run, fresh]
    rfl
  have glsl' : ids'.glsl = d.nextId + 3 := by
    rw [everything_glsl run', show (s.draft types d).types = types from rfl, if_pos stuck]
    rfl
  -- The streams first differ in the id that the instruction set is imported as.
  have streams : m'.instructions.flatMap Instruction.words =
      m.instructions.flatMap Instruction.words := by
    rw [words_eq compiled, words_eq compiled'] at same
    exact List.append_inj_right same rfl
  rw [listed, listed'] at streams
  simp only [Emission.instructions, capabilities_shift, List.append_assoc,
    List.flatMap_append] at streams
  have tails := List.append_cancel_left streams
  simp only [List.flatMap_cons, Instruction.words, Instruction.operands, List.cons_append,
    List.cons.injEq, glsl, glsl', Word.ofId] at tails
  have apart : ∀ n : Nat, UInt32.ofNat (n + 3) ≠ UInt32.ofNat (n + 4) := by
    intro n equal
    have numbers := congrArg UInt32.toNat equal
    simp only [UInt32.toNat_ofNat'] at numbers
    omega
  exact apart d.nextId tails.2.1

theorem Draft.inputs_withSlots (d : Draft) (slots : List Ty) :
    (d.withSlots slots).inputs.toList.map Input.ty = d.inputs.toList.map Input.ty ++ slots := by
  induction slots generalizing d with
  | nil => exact (List.append_nil _).symm
  | cons ty rest ih =>
    show ((d.withInput ty).withSlots rest).inputs.toList.map Input.ty = _
    rw [ih]
    simp [withInput, withRef, withNode, withVariable]

/-- What a compilation of a new session says about a fault does not name a handle. -/
theorem Draft.Proper.result_plain (proper : d.Proper False) (s : Shift) :
    d.compilation.result.mapError s.fault = d.compilation.result := by
  cases result : d.compilation.result with
  | ok m => rfl
  | error fault => exact congrArg Except.error ((proper.toSteady.refuses result).1.fault s)

/-- What a session has become when it starts over: a new session, renamed, apart from what its type
table remembers. -/
theorem Draft.Used.restarted {settings : Settings} {n : Nat} (used : d.Used settings n)
    {last : Call} (restarts : last.restarts = true) :
    ∃ types : TypeTable, types.Aged (n + if last.assembles d then 1 else 0) ∧
      last.leaves d =
        d.moves.draft types ((new settings).withSlots (d.inputs.toList.map Input.ty)) := by
  have aged := (used.leaves last).aged
  obtain ⟨types, left⟩ : ∃ types, last.leaves d = d.restart types := by
    cases last with
    | compile => exact ⟨_, leaves_compile d⟩
    | reset => exact ⟨_, leaves_reset d⟩
    | _ => contradiction
  rw [left, (restart_frame d types).2] at aged
  exact ⟨types.forget, aged, by rw [left, restart_moves, used.settings]⟩

/-- A session that has started over is a new one with its handles moved up: it answers every
program of calls alike. Compiling the program gives what the new session gives if at most one
compilation of the history got as far as declaring types; after two of them no module comes out the
same. -/
theorem Draft.reused_session_as_new (settings : Settings) (slots : List Ty) {first : Draft}
    (begun : withInputs settings slots = .ok () first) (history : List Call) {last : Call}
    (restarts : last.restarts = true) :
    ∃ (s : Shift) (fresh : Draft),
      withInputs settings ((first.after (history ++ [last])).inputs.toList.map Input.ty) =
        .ok () fresh ∧
      ∀ program : List Call, (∀ c ∈ program, c.restarts = false) →
        (first.after (history ++ [last])).answers (program.map s.call) =
          (fresh.answers program).map s.answer ∧
        (first.assemblies (history ++ [last]) ≤ 1 →
          ((first.after (history ++ [last])).after (program.map s.call)).compilation.result =
            (fresh.after program).compilation.result) ∧
        ∀ m, (fresh.after program).compilation.result = .ok m →
          ((∃ m', ((first.after (history ++ [last])).after
              (program.map s.call)).compilation.result = .ok m' ∧ m'.words = m.words) ↔
            first.assemblies (history ++ [last]) ≤ 1) := by
  obtain rfl := eq_of_withInputs begun
  have used := (used_new settings slots).after history
  rw [Nat.zero_add] at used
  rw [after_append, assemblies_append]
  generalize ((new settings).withSlots slots).after history = d at *
  obtain ⟨types, aged, left⟩ := used.restarted restarts
  have slotTypes : (last.leaves d).inputs.toList.map Input.ty = d.inputs.toList.map Input.ty := by
    rw [left]
    simp only [Shift.draft, Array.toList_map, List.map_map]
    exact inputs_withSlots (new settings) _
  refine ⟨d.moves, (new settings).withSlots (d.inputs.toList.map Input.ty),
    by simp only [after, slotTypes, withInputs_eq], fun program building => ?_⟩
  simp only [after, assemblies, Nat.add_zero, left]
  have proper := (proper_begun False settings (d.inputs.toList.map Input.ty)).after building
  obtain ⟨later, answers⟩ := @after_shift ((new settings).withSlots (d.inputs.toList.map Input.ty))
    d.moves types program building
  rw [later]
  generalize ((new settings).withSlots (d.inputs.toList.map Input.ty)).after program = built at *
  have undeclared (ty : Ty) : built.types.find? ty = none := by
    simpa only [TypeTable.id?, Option.map_eq_none_iff] using proper.types ty
  generalize ((new settings).withSlots slots).assemblies history +
    (if last.assembles d then 1 else 0) = age at aged ⊢
  have same (young : age ≤ 1) : (d.moves.draft types built).compilation.result =
      built.compilation.result := by
    rw [result_shift fun ty => (aged.undeclared young ty).trans (undeclared ty).symm,
      proper.result_plain]
  refine ⟨answers, same, fun m compiled => ⟨?_, fun young => ⟨m, (same young).trans compiled, rfl⟩⟩⟩
  rintro ⟨m', compiled', words⟩
  by_contra old
  exact words_differ (aged.void_declared (by omega)) (undeclared .void) compiled compiled' words

/-- An empty session compiles to the same words twice, but not a third time. -/
theorem Draft.third_compilation_differs :
    withInputs { stage := .vertex } [] = .ok () (new { stage := .vertex }) ∧
      Call.compile.restarts = true ∧
      (∃ m, (new { stage := .vertex }).compilation.result = .ok m ∧
        ((new { stage := .vertex }).after [.compile]).compilation.result = .ok m ∧
        ¬ ∃ m', ((new { stage := .vertex }).after [.compile, .compile]).compilation.result = .ok m' ∧
          m'.words = m.words) := by
  obtain ⟨s, fresh, begun, once⟩ :=
    @reused_session_as_new { stage := .vertex } [] _ rfl [] .compile rfl
  obtain ⟨s', fresh', begun', twice⟩ :=
    @reused_session_as_new { stage := .vertex } [] _ rfl [.compile] .compile rfl
  have slots : ((new { stage := .vertex }).after ([] ++ [.compile])).inputs.toList.map Input.ty =
      [] := by
    decide +kernel
  have slots' : ((new { stage := .vertex }).after ([.compile] ++ [.compile])).inputs.toList.map
      Input.ty = [] := by
    decide +kernel
  rw [slots] at begun
  rw [slots'] at begun'
  obtain ⟨_, rfl⟩ := EStateM.Result.ok.inj begun
  obtain ⟨_, rfl⟩ := EStateM.Result.ok.inj begun'
  obtain ⟨m, compiled⟩ := exists_of_toBool
    (show (new { stage := .vertex }).compilation.result.toBool = true by decide +kernel)
  have same := (once [] (by simp)).2.1 (by decide +kernel)
  have differs := (not_congr ((twice [] (by simp)).2.2 m compiled)).mpr (by decide +kernel)
  simp only [List.map_nil, List.nil_append, List.cons_append, after] at same differs
  refine ⟨rfl, rfl, m, compiled, ?_, ?_⟩
  · simp only [after]
    exact same.trans compiled
  · simp only [after]
    exact differs

end ShaderIR
