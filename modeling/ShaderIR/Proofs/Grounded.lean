import ShaderIR.Proofs.Distinct
import ShaderIR.Proofs.Sections

/-! Every id is used where it has a meaning. Declarations, variables and the function body are
collected apart and joined at the end; so for each of them it is recorded what it may use. -/
namespace ShaderIR

variable {i : Instruction} {e : Emission} {stages : Emission.Stages} {id type : Id} {ty : Ty}
  {literal : Literal} {group : List Instruction} {n : Node} {b : Boundary} {fresh : Nat}
  {interface : List Id}

namespace Instruction

theorem inert_decoration (part : i.part = .decoration) : i.uses = [] ∧ i.result? = none := by
  cases i with
  | decorate | decorateMember => exact ⟨rfl, rfl⟩
  | variableDecl =>
    rw [Instruction.part] at part
    split at part <;> contradiction
  | _ => simp [Instruction.part] at part

theorem refers_declaration (part : i.part = .declaration) : i.refers = [] := by
  cases i with
  | typeDecl | constant | variableDecl => rfl
  | _ => simp [Instruction.part] at part

end Instruction

namespace Emission

def Announces (e : Emission) (id : Id) : Prop := ∃ i ∈ e.declarations, i.result? = some id

theorem mem_defined : id ∈ e.defined ↔ e.Introduces id ∨ ∃ i ∈ e.body, i.result? = some id := by
  simp only [defined, Introduces, List.mem_filterMap, List.mem_append, Array.mem_toList_iff,
    or_and_right, exists_or]

theorem Announces.introduces (announced : e.Announces id) : e.Introduces id := by
  obtain ⟨i, member, result⟩ := announced
  exact ⟨i, .inl member, result⟩

theorem Introduces.defined (introduced : e.Introduces id) : id ∈ e.defined :=
  mem_defined.mpr (.inl introduced)

/-- Declarations and the function body use ids only after they got a meaning, and annotations are
about ids that have one. -/
structure Grounded (e : Emission) : Prop where
  listed : e.Listed
  declarations : Ordered (fun _ => False) e.declarations.toList
  body : Ordered e.Introduces e.body.toList
  annotations : ∀ i ∈ e.annotations, ∀ id ∈ i.refers, e.Introduces id

section Step

variable {strict : Prop} {d : Draft} {ids : EntryIds} {k : Nat} {bound : Id} {e' : Emission}

theorem Grows.announces (grows : e.Grows e') (known : e.Announces id) : e'.Announces id := by
  obtain ⟨i, member, result⟩ := known
  exact ⟨i, grows.declarations i member, result⟩

theorem Listed.announces (listed : e.Listed) (known : e.IsType ty id) : e.Announces id := by
  obtain ⟨form, _, member⟩ := listed.types ty id known
  exact ⟨_, member, rfl⟩

theorem Listed.announces_literal (listed : e.Listed) (known : e.IsLiteral literal id) :
    e.Announces id := by
  obtain ⟨type, _, member⟩ := listed.constants literal id known
  exact ⟨_, member, rfl⟩

/-- What a type is built from is declared. -/
theorem Listed.announces_form (listed : e.Listed) {form : TypeForm} (forms : e.Forms ty form) :
    ∀ id ∈ form.ids, e.Announces id := by
  intro id member
  cases forms with
  | void | bool | int | float => simp [TypeForm.ids] at member
  | vector _ known | matrix _ _ known | runtimeArray known | pointer known | image known
  | texture _ known =>
    rw [List.mem_singleton.mp member]
    exact listed.announces known
  | array element length =>
    rcases List.mem_cons.mp member with rfl | last
    · exact listed.announces element
    · rw [List.mem_singleton.mp last]
      exact listed.announces_literal length
  | struct members =>
    obtain ⟨ty, _, known⟩ := related_left members.flip member
    exact listed.announces known

theorem Grounded.prepare (grounded : e.Grounded) (grows : e.Grows e') (listed : e'.Listed)
    (body : e'.body = e.body) (declarations : Ordered (fun _ => False) e'.declarations.toList)
    (annotations : ∀ i ∈ e'.annotations, i ∈ e.annotations ∨ ∀ id ∈ i.refers, e.Introduces id) :
    e'.Grounded where
  listed := listed
  declarations := declarations
  body := by
    rw [body]
    exact grounded.body.mono fun id => grows.introduces
  annotations i member id refers := by
    rcases annotations i member with before | now
    · exact grows.introduces (grounded.annotations i before id refers)
    · exact grows.introduces (now id refers)

theorem Grounded.write (grounded : e.Grounded) (grows : e.Grows e') (listed : e'.Listed)
    (declarations : e'.declarations = e.declarations) (annotations : e'.annotations = e.annotations)
    (body : e'.body = e.body ++ group.toArray) (ordered : Ordered (· ∈ e.defined) group) :
    e'.Grounded where
  listed := listed
  declarations := declarations ▸ grounded.declarations
  body := by
    rw [body, Array.toList_append]
    refine (grounded.body.mono fun id => grows.introduces).append (ordered.mono fun id known => ?_)
    rcases mem_defined.mp known with before | ⟨i, member, result⟩
    · exact .inl (grows.introduces before)
    · exact .inr ⟨i, Array.mem_toList_iff.mpr member, result⟩
  annotations i member id refers :=
    grows.introduces (grounded.annotations i (annotations ▸ member) id refers)

theorem Grounded.push (grounded : e.Grounded) (grows : e.Grows e') (listed : e'.Listed)
    (declarations : e'.declarations = e.declarations) (annotations : e'.annotations = e.annotations)
    (body : e'.body = e.body.push i) (uses : ∀ id ∈ i.uses, id ∈ e.defined) : e'.Grounded :=
  grounded.write grows listed declarations annotations (body.trans (Array.push_eq_append ..))
    ⟨uses, trivial⟩

theorem ordered_push (ordered : Ordered (fun _ => False) e.declarations.toList)
    (uses : ∀ id ∈ i.uses, e.Announces id) :
    Ordered (fun _ => False) (e.declarations.push i).toList := by
  rw [Array.toList_push]
  apply ordered.append
  refine ⟨fun id used => ?_, trivial⟩
  obtain ⟨j, member, result⟩ := uses id used
  exact .inr ⟨j, Array.mem_toList_iff.mpr member, result⟩

theorem Grounded.ordered_typed (grounded : e.Grounded) (uses : i.uses = [type])
    (typed : e.IsType ty type) : Ordered (fun _ => False) (e.declarations.push i).toList := by
  apply ordered_push grounded.declarations
  rw [uses]
  exact List.forall_mem_singleton.mpr (grounded.listed.announces typed)

theorem Quiet.grounded (step : Quiet d e e') (grounded : e.Grounded) : e'.Grounded := by
  have grows := step.grows
  have listed := step.listed grounded.listed
  cases step with
  | fresh | register | name | decorate =>
    exact grounded.prepare grows listed rfl grounded.declarations fun _ => .inl
  | announce _ forms =>
    exact grounded.prepare grows listed rfl
      (ordered_push grounded.declarations (grounded.listed.announces_form forms)) fun _ => .inl
  | declare _ typed =>
    exact grounded.prepare grows listed rfl (grounded.ordered_typed rfl typed) fun _ => .inl
  | annotate _ targets =>
    exact grounded.prepare grows listed rfl grounded.declarations
      (mem_push_or fun id refers => grounded.listed.targets (targets id refers))

theorem grounded_start (proper : d.Proper strict) : (start d).Grounded where
  listed := proper.listed
  declarations := trivial
  body := trivial
  annotations := by simp [start]

theorem Enters.grounded (proper : d.Proper strict) (enters : Enters d ids e) : e.Grounded := by
  have listed := enters.listed proper.listed
  obtain ⟨e₀, steps, known, _, _, _, _, rfl⟩ := enters
  have grounded := keeps_along (fun step => step.grounded) steps (grounded_start proper)
  exact grounded.prepare (grows_entry e₀ _ 4) listed rfl (grounded.ordered_typed rfl known)
    fun _ => .inl

theorem Prepare.grounded (step : Prepare d e e') (grounded : e.Grounded) : e'.Grounded := by
  have grows := step.grows
  have listed := step.listed grounded.listed
  cases step with
  | quiet step => exact step.grounded grounded
  | shared _ _ _ _ typed =>
    exact grounded.prepare grows listed rfl (grounded.ordered_typed rfl typed) fun _ => .inl
  | own => exact grounded.prepare grows listed rfl grounded.declarations fun _ => .inl

/-! What is held, reached or in the tables has a meaning. -/

theorem Own.uses (own : e.Own d i) (listed : e.Listed) : ∀ id ∈ i.uses, e.Announces id := by
  obtain ⟨p, data, type, _, _, typed, rfl⟩ := own
  exact List.forall_mem_singleton.mpr (listed.announces typed)

/-- A computation uses its type, its arguments and constants. -/
theorem Computes.sources (computes : e.Computes d n type i) :
    ∀ id ∈ i.uses, id = type ∨ (∃ o ∈ d.graph.arguments n, e.Holds o id) ∨
      ∃ literal, e.IsLiteral literal id := by
  have operand : ∀ {o id}, o ∈ d.graph.arguments n → e.Holds o id →
      id = type ∨ (∃ o ∈ d.graph.arguments n, e.Holds o id) ∨ ∃ literal, e.IsLiteral literal id :=
    fun member holds => .inr (.inl ⟨_, member, holds⟩)
  cases computes with
  | unary _ arguments _ _ a | column _ arguments _ _ _ _ _ a =>
    simp only [Instruction.uses, List.forall_mem_cons]
    exact ⟨.inl trivial, operand (by simp [arguments]) a, by simp⟩
  | binary _ _ arguments _ _ _ a b =>
    have first := operand (by simp [arguments]) a
    have second := operand (by simp [arguments]) b
    simp only [Instruction.uses, List.forall_mem_cons]
    refine ⟨.inl trivial, ?_⟩
    split <;> simp only [List.forall_mem_cons]
    · exact ⟨second, first, by simp⟩
    · exact ⟨first, second, by simp⟩
  | sample _ arguments _ _ a b lod =>
    simp only [Instruction.uses, List.forall_mem_cons]
    exact ⟨.inl trivial, operand (by simp [arguments]) a, operand (by simp [arguments]) b,
      .inr (.inr ⟨_, lod⟩), by simp⟩
  | component _ arguments _ _ _ a b =>
    simp only [Instruction.uses, List.forall_mem_cons]
    exact ⟨.inl trivial, operand (by simp [arguments]) a, operand (by simp [arguments]) b, by simp⟩
  | select _ arguments a b c =>
    simp only [Instruction.uses, List.forall_mem_cons]
    exact ⟨.inl trivial, operand (by simp [arguments]) a, operand (by simp [arguments]) b,
      operand (by simp [arguments]) c, by simp⟩
  | construct _ parts =>
    intro id used
    rcases List.mem_cons.mp used with rfl | part
    · exact .inl rfl
    · obtain ⟨o, member, holds⟩ := related_left parts.flip part
      exact .inr (.inl ⟨o, member, holds⟩)

theorem Computes.refers (computes : e.Computes d n type i) : i.refers = [] := by
  cases computes <;> rfl

theorem defined_written (member : i ∈ e.body) (result : i.result? = some id) : id ∈ e.defined :=
  mem_defined.mpr (.inr ⟨i, member, result⟩)

section Ids

variable (purposeful : e.Purposeful d ids) (listed : e.Listed)

include listed

theorem Listed.defined (known : e.IsType ty id) : id ∈ e.defined :=
  (listed.announces known).introduces.defined

theorem Listed.defined_literal (known : e.IsLiteral literal id) : id ∈ e.defined :=
  (listed.announces_literal known).introduces.defined

include purposeful

theorem Purposeful.held {h : Handle} (held : e.Held d h id) : id ∈ e.defined := by
  obtain ⟨n, found⟩ := Option.isSome_iff_exists.mp held.2
  cases purposeful.values h n id found held.1 with
  | literal _ known => exact listed.defined_literal known
  | loaded _ _ written => exact defined_written written rfl
  | computed computes _ written => exact defined_written written computes.result

omit listed in
theorem Purposeful.reached {p : Place} {data : PlaceData} (found : d.places.find? p = some data)
    (reached : p ∈ e.reached) : data.id ∈ e.defined := by
  cases purposeful.places p data found reached with
  | root _ _ declared => exact Introduces.defined ⟨_, declared, rfl⟩
  | chain _ _ _ _ _ _ written => exact defined_written written rfl

theorem Purposeful.index {link : Link} (indexes : e.Indexes d link id) : id ∈ e.defined := by
  cases link with
  | member => exact listed.defined_literal indexes
  | index => exact purposeful.held listed indexes

theorem Computes.uses (computes : e.Computes d n type i) (typed : e.IsType n.ty type) :
    ∀ id ∈ i.uses, id ∈ e.defined := by
  intro id used
  rcases computes.sources id used with rfl | ⟨o, argument, holds⟩ | ⟨literal, known⟩
  · exact listed.defined typed
  · exact purposeful.held listed ⟨holds, Draft.live_argument argument⟩
  · exact listed.defined_literal known

end Ids

theorem Ask.grounded (step : Ask strict d k bound e e') (purposeful : e.Purposeful d ids)
    (grounded : e.Grounded) : e'.Grounded := by
  have grows := step.grows
  have listed := (Move.ask step).listed grounded.listed
  cases step with
  | quiet step => exact step.grounded grounded
  | literal => exact grounded.prepare grows listed rfl grounded.declarations fun _ => .inl
  | compute _ _ _ _ typed computes =>
    exact grounded.push grows listed rfl rfl rfl (computes.uses purposeful grounded.listed typed)
  | chain _ _ _ _ _ _ reached base typed walks =>
    refine grounded.push grows listed rfl rfl rfl fun id used => ?_
    rcases List.mem_cons.mp used with rfl | rest
    · exact grounded.listed.defined typed
    · rcases List.mem_cons.mp rest with rfl | index
      · exact purposeful.reached base reached
      · obtain ⟨link, _, indexes⟩ := related_left walks.flip index
        exact purposeful.index grounded.listed indexes

/-- The group of a boundary uses what is there, and what it has computed itself. -/
theorem Group.ordered (written : e.Group d b fresh group) (purposeful : e.Purposeful d ids)
    (listed : e.Listed) : Ordered (· ∈ e.defined) group := by
  cases written with
  | ifBegin _ held =>
    simp [Selection.beginGroup, Ordered, Instruction.uses, purposeful.held listed held]
  | ifElse | ifEnd | leave | next =>
    simp [Selection.elseGroup, Selection.endGroup, CountedLoop.leaveGroup, CountedLoop.nextGroup,
      Ordered, Instruction.uses]
  | loopBegin _ found reached typed typed' held held' =>
    simp [CountedLoop.beginGroup, Ordered, Instruction.uses, Instruction.result?,
      purposeful.reached found reached, listed.defined typed, listed.defined typed',
      purposeful.held listed held, purposeful.held listed held']
  | loopEnd _ found reached typed held =>
    simp [CountedLoop.endGroup, Ordered, Instruction.uses, Instruction.result?,
      purposeful.reached found reached, listed.defined typed, purposeful.held listed held]

/-- Once every block is closed, a boundary leads only to labels that are written. -/
theorem Group.targets (written : e.Group d b fresh group) (proper : d.Proper strict)
    (scopes : d.scopes = []) (recorded : d.trace.action? k = some (.boundary b)) :
    ∀ i ∈ group, ∀ id ∈ i.refers, d.Writes id := by
  have own : ∀ id ∈ d.writes b, d.Writes id := fun id member => ⟨k, b, recorded, member⟩
  cases written with
  | @ifBegin index s condition found =>
    rw [(Draft.writes_selection found).1] at own
    simp [Selection.beginGroup, Instruction.refers, proper.writes_merge scopes found,
      proper.writes_false scopes found, own]
  | @ifElse index s found =>
    simp [Selection.elseGroup, Instruction.refers, proper.writes_merge scopes found]
  | @ifEnd index s found =>
    simp [Selection.endGroup, Instruction.refers, proper.writes_merge scopes found]
  | @loopBegin index l counter int bool first last found =>
    rw [(Draft.writes_loop found).1] at own
    simp [CountedLoop.beginGroup, Instruction.refers, proper.writes_post scopes found, own]
  | @loopEnd index l counter int step found =>
    have header : d.Writes l.header := by
      apply proper.orderly.writes_opener recorded rfl
      rw [Boundary.scope, Scope.opener, (Draft.writes_loop found).1]
      exact List.mem_cons_self ..
    simp [CountedLoop.endGroup, Instruction.refers, proper.writes_post scopes found, header]
  | @leave index l label found =>
    simp [CountedLoop.leaveGroup, Instruction.refers, proper.writes_post scopes found]
  | @next index l label found =>
    simp [CountedLoop.nextGroup, Instruction.refers, proper.writes_post scopes found]

/-- What an instruction of the function body refers to is a label that is written. -/
theorem Statement.targets (statement : e.Statement d i) (proper : d.Proper strict)
    (scopes : d.scopes = []) : ∀ id ∈ i.refers, d.Writes id := by
  cases statement with
  | load | store | chain => simp [Instruction.refers]
  | value _ _ computes => simp [computes.refers]
  | boundary recorded wrote member =>
    obtain ⟨e₁, fresh, written, _⟩ := wrote
    exact written.targets proper scopes recorded i member

theorem Move.grounded {k' : Nat} (move : Move strict d k e k' e') (purposeful : e.Purposeful d ids)
    (grounded : e.Grounded) : e'.Grounded := by
  have grows := move.grows
  have listed := move.listed grounded.listed
  cases move with
  | prepare step => exact step.grounded grounded
  | ask step => exact step.grounded purposeful grounded
  | mark => exact grounded.prepare grows listed rfl grounded.declarations fun _ => .inl
  | load _ _ _ found reached typed =>
    refine grounded.push grows listed rfl rfl rfl ?_
    simp [Instruction.uses, grounded.listed.defined typed,
      purposeful.reached found reached]
  | store _ live found holds reached =>
    refine grounded.push grows listed rfl rfl rfl ?_
    simp [Instruction.uses, purposeful.reached found reached,
      purposeful.held grounded.listed ⟨holds, Option.isSome_of_eq_some live⟩]
  | boundary _ written =>
    exact grounded.write grows listed rfl rfl rfl (written.ordered purposeful grounded.listed)
  | pass => exact grounded

theorem Compiled.grounded (proper : d.Proper strict)
    (compiled : Compiled strict d ids interface e stages) : e.Grounded :=
  (compiled.keeps (P := fun _ e => e.Purposeful d ids ∧ e.Grounded)
    (fun move kept => ⟨move.purposeful kept.1, move.grounded kept.1 kept.2⟩) proper.sound
    fun _ enters => ⟨enters.purposeful, enters.grounded proper⟩).2

/-- Every label that a boundary writes has a meaning. -/
theorem Compiled.label_defined (sound : d.Sound strict)
    (compiled : Compiled strict d ids interface e stages) (writes : d.Writes id) :
    id ∈ e.defined := by
  obtain ⟨event, b, recorded, member⟩ := writes
  obtain ⟨group, e₁, fresh, written, _, _, inside⟩ := compiled.wrote sound recorded
  have result := written.results.mem_iff.mpr (List.mem_append_left _ member)
  obtain ⟨i, inGroup, result⟩ := List.mem_filterMap.mp result
  exact defined_written (inside i inGroup) result

end Step

section Module

variable {strict : Prop} {d : Draft} {ids : EntryIds} {interface : List Id}

theorem Sections.results (sections : e.Sections) :
    ((e.instructions d ids interface).filterMap Instruction.result?).Perm
      (ids.reserved ++ e.defined) := by
  have capabilities : (d.capabilities.map Instruction.capability).filterMap Instruction.result? =
      [] := by
    simp [Instruction.result?]
  have mode : (d.settings.executionMode ids.function).filterMap Instruction.result? = [] := by
    unfold Settings.executionMode
    split <;> rfl
  have annotations : e.annotations.toList.filterMap Instruction.result? = [] := by
    rw [List.filterMap_eq_nil_iff]
    intro i member
    exact (Instruction.inert_decoration (sections.annotations i (Array.mem_toList_iff.mp member))).2
  refine List.perm_iff_count.mpr fun id => ?_
  simp only [instructions, defined, EntryIds.reserved, List.filterMap_append, capabilities, mode,
    annotations, List.filterMap_cons, List.filterMap_nil, Instruction.result?, List.count_append,
    List.count_cons, List.count_nil]
  omega

/-- Every instruction of a module comes after what it uses. -/
theorem Grounded.ordered (grounded : e.Grounded) (purposeful : e.Purposeful d ids)
    (sections : e.Sections) (void : e.Announces ids.void) (signature : e.Announces ids.signature) :
    Ordered (fun _ => False) (e.instructions d ids interface) := by
  have preamble : Ordered (fun _ => False) (e.preamble d ids interface) := by
    refine Ordered.append (ordered_of_known fun i member id used => ?_)
      (grounded.declarations.mono fun _ => False.elim)
    have unused : i.uses = [] := by
      rcases List.mem_append.mp member with head | decoration
      · exact (of_heading head).2.1
      · exact (Instruction.inert_decoration
          (sections.annotations i (Array.mem_toList_iff.mp decoration))).1
    simp [unused] at used
  rw [instructions_eq]
  apply preamble.append
  have announced : ∀ id, e.Announces id →
      Gained (fun _ => False) (e.preamble d ids interface) id := by
    rintro id ⟨i, member, result⟩
    exact .inr ⟨i, List.mem_append_right _ (Array.mem_toList_iff.mpr member), result⟩
  refine ⟨?_, by simp [Instruction.uses], ?_⟩
  · simp [Instruction.uses, announced _ void, announced _ signature]
  · have locals : Ordered (fun id => e.Announces id) e.locals.toList :=
      ordered_of_known fun i member =>
        (purposeful.locals i (Array.mem_toList_iff.mp member)).uses grounded.listed
    have body : Ordered (fun id => e.Announces id) (e.locals.toList ++ e.body.toList) := by
      refine locals.append (grounded.body.mono ?_)
      rintro id ⟨i, declaration | own, result⟩
      · exact .inl ⟨i, declaration, result⟩
      · exact .inr ⟨i, Array.mem_toList_iff.mpr own, result⟩
    refine ((body.mono fun id known => ?_).append ?_).append ?_
    · exact .inl (.inl (announced id known))
    · simp [Ordered, Instruction.uses]
    · simp [Ordered, Instruction.uses]

variable (proper : d.Proper strict) (compiled : Compiled strict d ids interface e stages)

include proper compiled

theorem Compiled.distinct :
    ((e.instructions d ids interface).filterMap Instruction.result?).Nodup :=
  (compiled.sections proper.sound).results.nodup_iff.mpr (compiled.numbered proper).distinct

theorem Compiled.ordered : Ordered (fun _ => False) (e.instructions d ids interface) := by
  have grounded := compiled.grounded proper
  obtain ⟨begun, ⟨e₀, _, void, _, _, _, _, rfl⟩, steps⟩ := compiled.prepare
  have grows := steps.grows.trans (compiled.within proper.sound).prepared
  apply grounded.ordered (compiled.purposeful proper.sound) (compiled.sections proper.sound)
  · exact grounded.listed.announces (grows.types .void ids.void void)
  · exact grows.announces ⟨_, Array.mem_push_self, rfl⟩

theorem Compiled.refers (member : i ∈ e.instructions d ids interface) :
    ∀ id ∈ i.refers, id ∈ ids.reserved ++ e.defined := by
  have sections := compiled.sections proper.sound
  have introduced : ∀ {id}, e.Introduces id → id ∈ ids.reserved ++ e.defined :=
    fun introduced => List.mem_append_right _ introduced.defined
  intro id refers
  rw [instructions_eq] at member
  simp only [Emission.preamble, List.mem_append, List.mem_cons, List.not_mem_nil, or_false,
    Array.mem_toList_iff] at member
  rcases member with ((head | decoration) | declaration) | rfl | (rfl | (own | body) | rfl) | rfl
  · rcases (of_heading head).2.2 id refers with rfl | inInterface
    · simp [EntryIds.reserved]
    · exact introduced ((compiled.within proper.sound).prepared.introduces
        (compiled.interface id inInterface))
  · exact introduced ((compiled.grounded proper).annotations i decoration id refers)
  · simp [Instruction.refers_declaration (sections.declarations i declaration)] at refers
  · simp [Instruction.refers] at refers
  · simp [Instruction.refers] at refers
  · obtain ⟨_, _, rfl⟩ := sections.locals i own
    simp [Instruction.refers] at refers
  · refine List.mem_append_right _ (compiled.label_defined proper.sound ?_)
    exact ((compiled.purposeful proper.sound).body i body).targets proper compiled.scopes id refers
  · simp [Instruction.refers] at refers
  · simp [Instruction.refers] at refers

end Module

end Emission

/-- A program that leaves a loop under a condition. -/
def Draft.leavesLoop : List Call :=
  [.localVariable .single, .beginFor 0 4, .constant (.int 2), .binary .less ⟨4, 4⟩ ⟨5, 5⟩,
    .beginIf ⟨6, 6⟩, .breakLoop, .endIf, .store ⟨1⟩ ⟨0, 0⟩, .endFor, .load ⟨1⟩, .output ⟨7, 7⟩]

end ShaderIR
