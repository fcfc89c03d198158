import ShaderIR.Emission.Assembly
import ShaderIR.Proofs.Replay
import ShaderIR.Proofs.Variables

/-! A whole compilation, taken apart: the variables are declared, the inputs are loaded, the events
are replayed in the order in which they were recorded, and the outputs are stored. What a module
contains is proved from these parts. -/
namespace ShaderIR

open Relation (ReflTransGen)

variable {d : Draft} {i : Input} {e e' : Emission} {strict : Prop} {k levels : Nat} {p : Place}
  {h : Handle} {more places : List Place} {done : List Input}

namespace Emission

/-- The ids of the entry function are the next ones, after the type of its result is declared. -/
def Enters (d : Draft) (ids : EntryIds) (e : Emission) : Prop :=
  ∃ e₀, Quiets d (.start d) e₀ ∧ e₀.IsType .void ids.void ∧ ids.signature = e₀.nextId ∧
    ids.function = e₀.nextId + 1 ∧ ids.label = e₀.nextId + 2 ∧ ids.glsl = e₀.nextId + 3 ∧
    e = { e₀ with
      nextId := e₀.nextId + 4
      declarations := e₀.declarations.push (.typeDecl ids.signature (.function ids.void)) }

inductive Prepare (d : Draft) (e : Emission) : Emission → Prop where
  | quiet {e' : Emission} : Quiet d e e' → Prepare d e e'
  | shared {p : Place} {data : PlaceData} {type : Id} : d.places.find? p = some data →
      data.origin = .root → data.storage ≠ .function → p ∉ e.reached → e.IsType data.ty type →
      Prepare d e { e with
        declarations := e.declarations.push (.variableDecl type data.id data.storage)
        reached := p :: e.reached }
  | own {p : Place} {data : PlaceData} {type : Id} : d.places.find? p = some data →
      data.origin = .root → data.storage = .function → p ∉ e.reached → e.IsType data.ty type →
      Prepare d e { e with
        locals := e.locals.push (.variableDecl type data.id data.storage)
        reached := p :: e.reached }

abbrev Prepares (d : Draft) : Emission → Emission → Prop := ReflTransGen fun a b => Prepare d a b

def Loads (d : Draft) (i : Input) (e e' : Emission) : Prop :=
  ∃ n data type e₁, d.graph.find? i.value = some n ∧ d.places.find? i.place = some data ∧
    Quiets d e e₁ ∧ i.place ∈ e₁.reached ∧ e₁.IsType n.ty type ∧
    e₁.results.find? i.value.slot = none ∧
    e' = { e₁ with
      body := e₁.body.push (.load type n.id data.id)
      results := e₁.results.insert i.value.slot n.id }

theorem Loads.grows (loads : Loads d i e e') : e.Grows e' := by
  obtain ⟨n, data, type, e₁, _, _, steps, _, _, free, rfl⟩ := loads
  exact steps.grows.trans (grows_hold free _)

theorem Stored.grows (stored : Stored strict d k p h e e') : e.Grows e' := by
  obtain ⟨n, data, x, e₁, _, _, steps, _, _, rfl⟩ := stored
  exact steps.grows.trans (grows_push _ _)

/-- The states that a compilation passes through. -/
structure Stages where
  prepared : Emission
  loaded : Emission
  replayed : Emission

structure Compiled (strict : Prop) (d : Draft) (ids : EntryIds) (interface : List Id) (e : Emission)
    (stages : Stages) : Prop where
  scopes : d.scopes = []
  prepare : ∃ begun, Enters d ids begun ∧ Prepares d begun stages.prepared
  interface : ∀ id ∈ interface, stages.prepared.Introduces id
  inputs : Chain (Loads d) d.inputs.toList stages.prepared stages.loaded
  events : Chain (fun k e e' => e.Ready d k ∧ Replays strict d k e e') (List.range d.trace.size)
    stages.loaded stages.replayed
  stores : Chain (fun s e e' => e.Ready d d.trace.size ∧ Stored strict d d.trace.size s.1 s.2 e e')
    (Emit.finalStores d) stages.replayed e
  ends : e.Ready d d.trace.size

section Prepare

variable {ids : EntryIds}

theorem grows_entry (e : Emission) (i : Instruction) (taken : Nat) :
    e.Grows { e with nextId := e.nextId + taken, declarations := e.declarations.push i } :=
  { Grows.refl e with
    nextId := Nat.le_add_right _ taken
    declarations := fun _ => mem_push_of_mem i }

theorem Enters.defines (enters : Enters d ids e) (defines : (start d).Defines) : e.Defines := by
  obtain ⟨e₀, steps, _, _, _, _, _, rfl⟩ := enters
  exact (keeps_along (fun step => step.defines) steps defines).same (grows_entry e₀ _ 4) rfl

theorem Enters.listed (enters : Enters d ids e) (listed : (start d).Listed) : e.Listed := by
  obtain ⟨e₀, steps, _, _, _, _, _, rfl⟩ := enters
  exact (steps.listed listed).same (grows_entry e₀ _ 4) rfl rfl

theorem Enters.still (enters : Enters d ids e) : (start d).Still e := by
  obtain ⟨e₀, steps, _, _, _, _, _, rfl⟩ := enters
  exact { steps.still with }

theorem Prepare.grows (step : Prepare d e e') : e.Grows e' := by
  have same := Grows.refl e
  cases step with
  | quiet step => exact step.grows
  | shared =>
    exact { same with
      reached := fun _ member => List.mem_cons_of_mem _ member
      declarations := fun i => mem_push_of_mem _ }
  | own =>
    exact { same with
      reached := fun _ member => List.mem_cons_of_mem _ member
      locals := fun i => mem_push_of_mem _ }

theorem Prepares.grows (steps : Prepares d e e') : e.Grows e' :=
  keeps_along (fun step grows => grows.trans step.grows) steps (.refl e)

theorem Prepare.listed (step : Prepare d e e') (listed : e.Listed) : e'.Listed := by
  have grows := step.grows
  cases step with
  | quiet step => exact step.listed listed
  | shared | own => exact listed.same grows rfl rfl

theorem Prepares.listed (steps : Prepares d e e') (listed : e.Listed) : e'.Listed :=
  keeps_along (fun step => step.listed) steps listed

theorem Quiets.prepares (steps : Quiets d e e') : Prepares d e e' :=
  ReflTransGen.mono (fun _ _ step => Prepare.quiet step) _ _ steps

theorem Prepares.unbegun (steps : Prepares d e e') : e.Unbegun e' := by
  induction steps with
  | refl => exact (Still.refl e).toUnbegun
  | tail _ step ih =>
    cases step with
    | quiet step => exact ih.trans step.still.toUnbegun
    | shared | own => exact { ih with }

/-- Nothing is written before the function body is begun. -/
theorem Compiled.unbegun {interface : List Id} {stages : Stages}
    (compiled : Compiled strict d ids interface e stages) :
    (start d).Unbegun stages.prepared := by
  obtain ⟨begun, enters, steps⟩ := compiled.prepare
  exact enters.still.toUnbegun.trans steps.unbegun

def Undeclared (e : Emission) (places : List Place) : Prop := (places ++ e.reached).Nodup

theorem Undeclared.first {rest : List Place} (undeclared : e.Undeclared (p :: rest)) :
    p ∉ e.reached :=
  fun member => (List.nodup_cons.mp undeclared).1 (List.mem_append_right _ member)

theorem Undeclared.left (undeclared : e.Undeclared (places ++ more)) : e.Undeclared places := by
  unfold Undeclared at *
  rw [List.append_assoc] at undeclared
  exact undeclared.sublist (List.Sublist.append_left (List.sublist_append_right _ _) _)

theorem Undeclared.right (undeclared : e.Undeclared (places ++ more))
    (reached : e'.reached = places.reverse ++ e.reached) : e'.Undeclared more := by
  unfold Undeclared at *
  rw [reached]
  refine (List.Perm.nodup_iff ?_).mp undeclared
  refine List.perm_iff_count.mpr fun p => ?_
  simp only [List.count_append, List.count_reverse]
  omega

theorem Undeclared.rest {p : Place} {rest : List Place} (undeclared : e.Undeclared (p :: rest))
    (reached : e'.reached = [p].reverse ++ e.reached) : e'.Undeclared rest := by
  have split : e.Undeclared ([p] ++ rest) := undeclared
  exact split.right reached

end Prepare

end Emission

open Emission

/-- A part of a compilation that declares variables before the function body. What it is refused for
is known if the tables are right. -/
def Preparing {α : Type} (d : Draft) (places : List Place) (e : Emission) (x : Emit α)
    (good : α → Emission → Prop) : Prop :=
  Outcome x e
    (fun a e' => Prepares d e e' ∧ e'.reached = places.reverse ++ e.reached ∧ good a e')
    fun f _ => f.Plain ∧ (e.Listed → d.Allows f)

namespace Emit

variable {α β : Type} {x : Emit α} {f : α → Emit β} {places : List Place}
  {good : α → Emission → Prop} {good' : β → Emission → Prop}

theorem Preparing.andThen {more : List Place} (first : Preparing d places e x good)
    (rest : ∀ a e', Prepares d e e' → e'.reached = places.reverse ++ e.reached → good a e' →
      Preparing d more e' (f a) good') :
    Preparing d (places ++ more) e (x >>= f) good' := by
  unfold Preparing
  rw [outcome_bind]
  refine Outcome.imp first ?_
  rintro a e₁ ⟨steps, reached, holds⟩
  refine Outcome.mono (rest a e₁ steps reached holds) ?_
    fun _ _ failed => failed.imp_right fun allows listed => allows (steps.listed listed)
  rintro b e₂ ⟨more, reached', last⟩
  refine ⟨steps.trans more, ?_, last⟩
  rw [reached', reached, List.reverse_append, List.append_assoc]

theorem Preparing.last (first : Preparing d places e x good)
    (rest : ∀ a e', Prepares d e e' → good a e' → Preparing d [] e' (f a) good') :
    Preparing d places e (x >>= f) good' := by
  rw [← List.append_nil places]
  exact Preparing.andThen first fun a e' steps _ holds => rest a e' steps holds

theorem preparing_pure {a : α} (holds : good a e) :
    Preparing d [] e (pure a) good :=
  ⟨.refl, rfl, holds⟩

theorem Annotates.preparing {relies : Prop} (annotates : Annotates d e relies x)
    (known : e.Listed → relies) : Preparing d [] e x fun _ _ => True :=
  Outcome.mono annotates (fun _ _ steps => ⟨steps.prepares, steps.still.reached, trivial⟩)
    fun _ _ failed => failed.imp_right fun missing listed => absurd (known listed) missing

theorem Preparing.annotated {instruction : Instruction} {f : Unit → Emit α}
    (part : instruction.part = .decoration)
    (targets : ∀ id ∈ instruction.refers, e.Targets id)
    (rest : ∀ e', Prepares d e e' → e'.reached = e.reached → Preparing d places e' (f ()) good) :
    Preparing d places e (annotate instruction >>= f) good :=
  Preparing.andThen (Annotates.preparing (annotates_annotate part targets) fun _ => trivial)
    fun _ e' steps reached _ => rest e' steps reached

structure Declared (d : Draft) (p : Place) (id : Id) (e : Emission) : Prop where
  introduced : e.Introduces id
  typed : ∃ data type, d.places.find? p = some data ∧ e.IsType data.ty type

theorem preparing_variableDecl (rooted : d.Rooted p) (fresh : p ∉ e.reached) :
    Preparing d [p] e (variableDecl d p) (Declared d p) := by
  obtain ⟨data, found, root⟩ := rooted
  refine outcome_known (Places.get_eq_ok.mpr found) ?_
  rw [outcome_bind]
  refine Outcome.mono (quietly_type (d := d) data.ty e) ?_ fun _ _ failed =>
    ⟨failed.2.1.plain, fun _ =>
      Draft.allows_undeclarable failed.2.1 failed.2.2 fun whole => whole.pointer found⟩
  rintro type e₁ ⟨steps, ⟨known, _⟩⟩
  have free : p ∉ e₁.reached := by rwa [steps.still.reached]
  have reached : p :: e₁.reached = [p].reverse ++ e.reached := by
    rw [steps.still.reached]
    rfl
  dsimp only
  cases storage : data.storage with
  | function =>
    have declared := steps.prepares.tail (.own found root storage free known)
    rw [storage] at declared
    exact ⟨declared, reached, ⟨_, .inr Array.mem_push_self, rfl⟩, data, type, found, known⟩
  | _ =>
    have declared := steps.prepares.tail (.shared found root (by simp [storage]) free known)
    rw [storage] at declared
    exact ⟨declared, reached, ⟨_, .inl Array.mem_push_self, rfl⟩, data, type, found, known⟩

def Introduced (ids : List Id) (e : Emission) : Prop := ∀ id ∈ ids, e.Introduces id

theorem Introduced.cons {id : Id} {ids : List Id} (first : e.Introduces id)
    (others : Introduced ids e) : Introduced (id :: ids) e := by
  intro other member
  rcases List.mem_cons.mp member with rfl | inside
  · exact first
  · exact others other inside

theorem preparing_located (rooted : ∀ p ∈ places, d.Rooted p) (undeclared : e.Undeclared places)
    (index : Nat) : Preparing d places e (located d index places) Introduced := by
  induction places generalizing index e with
  | nil => exact preparing_pure (by simp [Introduced])
  | cons p rest ih =>
    show Preparing d ([p] ++ rest) e _ _
    refine Preparing.andThen (preparing_variableDecl (rooted p (by simp)) undeclared.first)
      fun id e₁ _ reached₁ done => ?_
    refine Preparing.annotated rfl (fun _ member => ?_) fun e₂ steps₂ reached₂ => ?_
    · rw [List.mem_singleton.mp member]
      exact .inl done.introduced
    have undeclared₂ := undeclared.rest (reached₂.trans reached₁)
    refine Preparing.last (ih (fun q member => rooted q (by simp [member])) undeclared₂
      (index + 1)) fun ids e₃ steps₃ others => ?_
    exact preparing_pure (.cons ((steps₂.grows.trans steps₃.grows).introduces done.introduced) others)

theorem preparing_builtins {outputs : List BuiltinOutput}
    (rooted : ∀ o ∈ outputs, d.Rooted o.place)
    (undeclared : e.Undeclared (outputs.map BuiltinOutput.place)) :
    Preparing d (outputs.map BuiltinOutput.place) e (outputs.mapM (builtinDecl d)) Introduced := by
  induction outputs generalizing e with
  | nil => exact preparing_pure (by simp [Introduced])
  | cons o rest ih =>
    have first : Preparing d [o.place] e (builtinDecl d o) fun id e' => e'.Introduces id := by
      refine Preparing.last (preparing_variableDecl (rooted o (by simp)) undeclared.first)
        fun id e₁ _ done => ?_
      refine Preparing.annotated rfl (fun _ member => ?_) fun e₂ steps₂ _ =>
        preparing_pure (steps₂.grows.introduces done.introduced)
      rw [List.mem_singleton.mp member]
      exact .inl done.introduced
    rw [List.mapM_cons]
    show Preparing d ([o.place] ++ rest.map BuiltinOutput.place) e _ _
    refine Preparing.andThen first fun id e₁ _ reached₁ introduced => ?_
    refine Preparing.last (ih (fun q member => rooted q (by simp [member]))
      (undeclared.rest reached₁)) fun ids e₂ steps₂ others => ?_
    exact preparing_pure (.cons (steps₂.grows.introduces introduced) others)

theorem preparing_bindingDecl (marked : List (Id × Decoration)) {b : Binding}
    (rooted : d.Rooted b.place) (member : b ∈ d.bindings) (fresh : b.place ∉ e.reached) :
    Preparing d [b.place] e (bindingDecl d marked b) fun _ _ => True := by
  refine Preparing.last (preparing_variableDecl rooted fresh) fun id e₁ steps₁ done => ?_
  have target : ∀ {e' : Emission} (decoration : Decoration), Prepares d e₁ e' →
      ∀ other ∈ (Instruction.decorate id decoration).refers, e'.Targets other := by
    intro e' decoration steps other member
    rw [List.mem_singleton.mp member]
    exact .inl (steps.grows.introduces done.introduced)
  refine Preparing.annotated rfl (target _ .refl) fun e₂ steps₂ _ => ?_
  refine Preparing.annotated rfl (target _ steps₂) fun e₃ steps₃ _ => ?_
  cases blockDecoration? b.kind with
  | none => exact preparing_pure trivial
  | some decoration =>
    have known : e₃.Listed → d.Whole → ∃ struct, e₃.IsType b.ty struct := by
      intro listed whole
      obtain ⟨data, type, found, typed⟩ := done.typed
      have typed := (steps₂.grows.trans steps₃.grows).types _ _ typed
      obtain ⟨form, forms, _⟩ := listed.types _ _ typed
      rw [← whole.bindings b member data found]
      rw [PlaceData.ty] at forms
      cases forms with
      | pointer pointee => exact ⟨_, pointee⟩
    unfold declaredType
    unfold Preparing
    dsimp only
    rw [outcome_bind, outcome_bind, outcome_get]
    cases typed : e₃.types.id? b.ty with
    | none =>
      refine ⟨trivial, fun listed => Draft.allows_broken trivial fun whole => ?_⟩
      obtain ⟨struct, known⟩ := known listed whole
      rw [Emission.IsType, typed] at known
      contradiction
    | some struct =>
      have last : ∀ (marks : List (Id × Decoration)) (e' : Emission), Prepares d e₃ e' →
          Preparing d [] e' (do layout b.ty; return marks) fun _ _ => True := by
        intro marks e' steps
        refine Preparing.last (Annotates.preparing (annotates_layout b.ty e') fun listed =>
          ⟨listed, ?_⟩) fun _ _ _ _ => preparing_pure trivial
        exact List.forall_mem_singleton.mpr ⟨struct, steps.grows.types _ _ typed⟩
      rw [outcome_pure]
      split
      · refine Preparing.annotated rfl (fun _ member => ?_) fun e₄ steps₄ _ => last _ e₄ steps₄
        rw [List.mem_singleton.mp member]
        exact .inr ⟨b.ty, typed⟩
      · exact last _ e₃ .refl

theorem preparing_bindings {bindings : List Binding}
    (rooted : ∀ b ∈ bindings, d.Rooted b.place) (members : ∀ b ∈ bindings, b ∈ d.bindings)
    (undeclared : e.Undeclared (bindings.map Binding.place)) (marked : List (Id × Decoration)) :
    Preparing d (bindings.map Binding.place) e (bindings.foldlM (bindingDecl d) marked)
      fun _ _ => True := by
  induction bindings generalizing marked e with
  | nil => exact preparing_pure trivial
  | cons b rest ih =>
    rw [List.foldlM_cons]
    show Preparing d ([b.place] ++ rest.map Binding.place) e _ _
    refine Preparing.andThen (preparing_bindingDecl marked (rooted b (by simp))
      (members b (by simp)) undeclared.first) fun marked e₁ _ reached₁ _ => ?_
    exact ih (fun c member => rooted c (by simp [member]))
      (fun c member => members c (by simp [member])) (undeclared.rest reached₁) marked

theorem preparing_locals (rooted : ∀ p ∈ places, d.Rooted p) (undeclared : e.Undeclared places) :
    Preparing d places e (places.forM fun p => do let _ ← variableDecl d p) fun _ _ => True := by
  induction places generalizing e with
  | nil => exact preparing_pure trivial
  | cons p rest ih =>
    rw [List.forM_eq_forM, List.forM_cons, ← List.forM_eq_forM]
    have first : Preparing d [p] e (do let _ ← variableDecl d p) fun _ _ => True :=
      Preparing.last (preparing_variableDecl (rooted p (by simp)) undeclared.first)
        fun _ _ _ _ => preparing_pure trivial
    show Preparing d ([p] ++ rest) e _ _
    exact Preparing.andThen first fun _ e₁ _ reached₁ _ =>
      ih (fun q member => rooted q (by simp [member])) (undeclared.rest reached₁)

theorem preparing_allVariables (sound : d.Sound strict)
    (undeclared : e.Undeclared d.variableList) :
    Preparing d d.variableList e (allVariables d) Introduced := by
  have lists := sound.lists
  have inputsRooted : ∀ p ∈ d.inputs.toList.map Input.place, d.Rooted p := by
    intro p member
    obtain ⟨i, listed, rfl⟩ := List.mem_map.mp member
    obtain ⟨slot, found⟩ := List.mem_iff_getElem?.mp listed
    exact (lists.inputs slot i (by simpa using found)).place
  have outputsRooted : ∀ p ∈ d.outputs.toList.map Output.place, d.Rooted p := by
    intro p member
    obtain ⟨o, listed, rfl⟩ := List.mem_map.mp member
    exact (lists.outputs o (Array.mem_toList_iff.mp listed)).1
  have associated : d.variableList = d.inputs.toList.map Input.place ++
      (d.outputs.toList.map Output.place ++ (d.builtins.toList.map BuiltinOutput.place ++
        (d.bindings.toList.map Binding.place ++ d.locals.toList))) := by
    simp only [Draft.variableList, List.append_assoc]
  rw [associated] at undeclared ⊢
  refine Preparing.andThen (preparing_located inputsRooted undeclared.left 0)
    fun inputs e₁ steps₁ reached₁ introduced₁ => ?_
  have undeclared₁ := undeclared.right reached₁
  refine Preparing.andThen (preparing_located outputsRooted undeclared₁.left 0)
    fun outputs e₂ steps₂ reached₂ introduced₂ => ?_
  have undeclared₂ := undeclared₁.right reached₂
  refine Preparing.andThen (preparing_builtins (fun o member =>
    (lists.builtins o (Array.mem_toList_iff.mp member)).1) undeclared₂.left)
    fun builtins e₃ steps₃ reached₃ introduced₃ => ?_
  have undeclared₃ := undeclared₂.right reached₃
  refine Preparing.andThen (preparing_bindings (fun b member =>
    lists.bindings b (Array.mem_toList_iff.mp member))
    (fun b member => Array.mem_toList_iff.mp member) undeclared₃.left [])
    fun _ e₄ steps₄ reached₄ _ => ?_
  have undeclared₄ := undeclared₃.right reached₄
  refine Preparing.last (preparing_locals (fun p member =>
    lists.locals p (Array.mem_toList_iff.mp member)) undeclared₄)
    fun _ e₅ steps₅ _ => preparing_pure ?_
  have late := steps₄.grows.trans steps₅.grows
  intro id member
  rcases List.mem_append.mp member with first | last
  · rcases List.mem_append.mp first with first | second
    · exact ((steps₂.grows.trans steps₃.grows).trans late).introduces (introduced₁ id first)
    · exact (steps₃.grows.trans late).introduces (introduced₂ id second)
  · exact late.introduces (introduced₃ id last)

theorem outcome_entry :
    Outcome entry (.start d) (fun ids e => Enters d ids e) fun f _ => d.Allows f := by
  unfold entry
  rw [outcome_bind]
  refine Outcome.mono (quietly_type (d := d) .void (.start d)) ?_ fun _ _ failed => ?_
  · rintro void e₀ ⟨steps, ⟨known, _⟩⟩
    refine outcome_freshId (outcome_freshId (outcome_freshId (outcome_freshId ?_)))
    exact ⟨e₀, steps, known, rfl, rfl, rfl, rfl, rfl⟩
  · exact absurd failed.2.2 (by decide)

/-- Before the function body is begun, all variables are declared. -/
theorem outcome_root {data : PlaceData} (sound : d.Sound strict)
    (found : d.places.find? p = some data) (root : data.origin = .root) (enough : d.nextId ≤ levels)
    (roots : ∀ p ∈ d.variableList, p ∈ e.reached) :
    Outcome ((demand d levels).place p) e
      (fun id e' => id = data.id ∧ e' = e ∧ p ∈ e.reached) fun f _ => d.Allows f := by
  have below := (sound.places p data found).id
  cases levels with
  | zero => exact absurd below (Nat.not_lt.mpr (Nat.le_trans enough (Nat.zero_le _)))
  | succ levels =>
    obtain ⟨root', links, flat, path⟩ := sound.flatten_path found
    obtain ⟨rfl, rfl⟩ := (Places.Path.root found root).unique path
    show Outcome (place d (demand d levels) _) e _ _
    refine outcome_known (Places.get_eq_ok.mpr found) ?_
    rw [outcome_bind, outcome_get]
    split
    · exact ⟨rfl, rfl, ‹_›⟩
    · rename_i missing
      refine outcome_known flat (Draft.allows_broken trivial fun whole => ?_)
      exact missing (roots _ (whole.roots _ ⟨data, found, root⟩))

/-- The value of an input slot, when it is asked for the first time. -/
theorem outcome_input (sound : d.Sound strict) {slot : Nat} (listed : d.inputs[slot]? = some i)
    (free : e.results.find? i.value.slot = none) (enough : d.nextId ≤ levels)
    (roots : ∀ p ∈ d.variableList, p ∈ e.reached) :
    Outcome ((demand d (levels + 1)).value i.value) e (fun _ e' => Loads d i e e')
      fun f _ => d.Allows f := by
  have input := sound.lists.inputs slot i listed
  obtain ⟨data, place, root⟩ := input.place
  show Outcome (value d (demand d levels) i.value) e _ _
  refine outcome_check (modest_node d.graph i.value) (fun whole => ?_) fun n typed => ?_
  · obtain ⟨n, found⟩ := Option.isSome_iff_exists.mp (whole.inputs i (Array.mem_of_getElem? listed))
    exact ⟨n, Graph.node_eq_ok.mpr found⟩
  have found := Graph.node_eq_ok.mp typed
  rw [outcome_bind, outcome_get, free]
  dsimp only
  unfold nodeValue
  rw [input.kind n found]
  dsimp only
  unfold inputValue
  rw [listed]
  dsimp only
  rw [outcome_bind, outcome_bind]
  refine (outcome_root sound place root enough roots).imp ?_
  rintro source _ ⟨rfl, rfl, reached⟩
  rw [outcome_bind]
  refine Outcome.mono (quietly_type (d := d) n.ty _) ?_ fun _ _ failed =>
    Draft.allows_undeclarable failed.2.1 failed.2.2 fun whole => whole.values _ n found
  rintro type e₁ ⟨steps, ⟨known, _⟩⟩
  have still := steps.still
  exact ⟨n, data, type, e₁, found, place, steps, still.reached ▸ reached, known,
    still.results ▸ free, rfl⟩

/-- What is known while the inputs are loaded: the values that are held are the inputs so far. -/
structure Opening (d : Draft) (done : List Input) (e : Emission) : Prop where
  written : e.written = []
  roots : ∀ p ∈ d.variableList, p ∈ e.reached
  phases : e.selectionPhases = [] ∧ e.loopPhases = []
  live : ∀ i ∈ done, (d.graph.find? i.value).isSome
  loaded : ∀ i ∈ done, (e.results.find? i.value.slot).isSome
  only : ∀ slot id, e.results.find? slot = some id → ∃ i ∈ done, i.value.slot = slot

theorem Opening.load (opening : Opening d done e) (loads : Loads d i e e') :
    Opening d (done ++ [i]) e' := by
  have grows := loads.grows
  obtain ⟨n, data, type, e₁, found, place, steps, reached, known, free, rfl⟩ := loads
  have still := steps.still
  refine ⟨still.written.trans opening.written,
    fun p member => grows.reached p (opening.roots p member),
    ⟨still.selectionPhases.trans opening.phases.1, still.loopPhases.trans opening.phases.2⟩,
    fun j member => ?_, fun j member => ?_, fun slot id held => ?_⟩
  · rcases List.mem_append.mp member with before | last
    · exact opening.live j before
    · rw [List.mem_singleton.mp last, found]
      rfl
  · rcases List.mem_append.mp member with before | last
    · exact grows.result (opening.loaded j before)
    · rw [List.mem_singleton.mp last, Assoc.find?_insert_self]
      rfl
  · rw [Assoc.find?_insert] at held
    split at held
    · exact ⟨i, by simp, ‹_›⟩
    · rw [still.results] at held
      obtain ⟨j, member, same⟩ := opening.only slot id held
      exact ⟨j, by simp [member], same⟩

theorem outcome_inputs (sound : d.Sound strict) (enough : d.nextId ≤ levels) {rest : List Input}
    (split : d.inputs.toList = done ++ rest) (opening : Opening d done e) :
    Outcome (rest.forM fun input => do let _ ← (demand d (levels + 1)).value input.value) e
      (fun _ e' => Chain (Loads d) rest e e' ∧ Opening d (done ++ rest) e')
      fun f _ => d.Allows f := by
  induction rest generalizing done e with
  | nil => exact ⟨.nil e, by rw [List.append_nil]; exact opening⟩
  | cons i rest ih =>
    have listed : d.inputs[done.length]? = some i := by
      rw [← Array.getElem?_toList, split]
      simp
    have input := sound.lists.inputs _ i listed
    rw [List.forM_eq_forM, List.forM_cons, ← List.forM_eq_forM, outcome_bind, outcome_bind]
    cases found : d.graph.find? i.value with
    | none =>
      have stale : Outcome ((demand d (levels + 1)).value i.value) e (fun _ _ => False)
          fun f _ => d.Allows f := by
        refine outcome_check (modest_node d.graph i.value) (fun whole => ?_) fun n typed => ?_
        · have live := whole.inputs i (Array.mem_of_getElem? listed)
          rw [Draft.Live, found] at live
          contradiction
        · rw [Graph.node_eq_ok.mp typed] at found
          contradiction
      exact stale.imp fun _ _ => False.elim
    | some n =>
      -- An earlier input in the same slot would be the same input.
      have free : e.results.find? i.value.slot = none := by
        rw [Option.eq_none_iff_forall_ne_some]
        intro id held
        obtain ⟨j, member, same⟩ := opening.only _ id held
        obtain ⟨n', found'⟩ := Option.isSome_iff_exists.mp (opening.live j member)
        obtain ⟨index, bound, rfl⟩ := List.mem_iff_getElem.mp member
        have listed' : d.inputs[index]? = some done[index] := by
          rw [← Array.getElem?_toList, split, List.getElem?_append_left bound,
            List.getElem?_eq_getElem bound]
        have kind' := (sound.lists.inputs index _ listed').kind n' found'
        obtain ⟨_, rfl⟩ := Graph.handle_unique found found' same.symm
        rw [input.kind n found, NodeKind.input.injEq] at kind'
        omega
      refine (outcome_input sound listed free enough opening.roots).imp fun _ e₁ loads => ?_
      refine (ih (by rw [split, List.append_assoc]; rfl) (opening.load loads)).imp ?_
      rintro _ e₂ ⟨chain, last⟩
      refine ⟨.cons loads chain, ?_⟩
      rwa [List.append_assoc] at last

/-- Once all inputs are loaded, the first event can be written. -/
theorem Opening.ready (sound : d.Sound strict) (opening : Opening d d.inputs.toList e) :
    e.Ready d 0 where
  written j before := absurd before (Nat.not_lt_zero j)
  loads _ _ j _ _ before := absurd before (Nat.not_lt_zero j)
  pending h n j found isLoad _ := by
    rw [Option.eq_none_iff_forall_ne_some]
    intro id held
    obtain ⟨i, member, same⟩ := opening.only _ id held
    obtain ⟨n', found'⟩ := Option.isSome_iff_exists.mp (opening.live i member)
    obtain ⟨_, rfl⟩ := Graph.handle_unique found found' same.symm
    obtain ⟨slot, listed⟩ := List.mem_iff_getElem?.mp member
    have kind := (sound.lists.inputs slot i (by simpa using listed)).kind n found'
    rw [isLoad] at kind
    contradiction
  inputs h n slot found isInput := by
    obtain ⟨i, listed, rfl⟩ := (sound.nodes h n found).input slot isInput
    exact opening.loaded i (Array.mem_toList_iff.mpr (Array.mem_of_getElem? listed))
  roots := opening.roots

theorem Opening.paced (opening : Opening d done e) : e.Paced d 0 := by
  intro scope
  cases scope with
  | selection s =>
    rw [Emission.phase, opening.phases.1]
    rfl
  | loop l =>
    rw [Emission.phase, opening.phases.2]
    rfl

theorem Stored.ready {e : Emission} (stored : Stored strict d k p h e e') (ready : e.Ready d k) :
    e'.Ready d k := by
  obtain ⟨n, data, x, e₁, _, _, steps, _, _, rfl⟩ := stored
  exact { steps.ready ready with }

theorem Replays.written {e : Emission} (replays : Replays strict d k e e') :
    e'.written = k :: e.written := by
  have kept : ∀ {e₁}, Asks strict d k d.nextId (e.mark k) e₁ → e₁.written = k :: e.written := by
    intro e₁ steps
    induction steps with
    | refl => rfl
    | tail _ step ih =>
      cases step with
      | quiet step => exact step.still.written.trans ih
      | literal | compute | chain => exact ih
  cases replays with
  | released => rfl
  | load _ _ _ steps | boundary _ steps => exact (kept steps :)
  | store _ stored =>
    obtain ⟨n, data, x, e₁, _, _, steps, _, _, rfl⟩ := stored
    exact (kept steps :)

theorem finalStores_written (sound : d.Sound strict) :
    ∀ s ∈ finalStores d, d.Rooted s.1 ∧ d.Written strict s.2 ∧ (d.Whole → d.Live s.2) := by
  intro s member
  rcases List.mem_append.mp member with member | member
  · obtain ⟨o, listed, rfl⟩ := List.mem_map.mp member
    have listed := Array.mem_toList_iff.mp listed
    have output := sound.lists.outputs o listed
    exact ⟨output.1, output.2, fun whole => whole.outputs o listed⟩
  · obtain ⟨o, listed, rfl⟩ := List.mem_map.mp member
    have listed := Array.mem_toList_iff.mp listed
    have output := sound.lists.builtins o listed
    exact ⟨output.1, output.2, fun whole => whole.builtins o listed⟩

theorem outcome_functionBody (sound : d.Sound strict) (opening : Opening d [] e) :
    Outcome (functionBody d) e
      (fun _ e' => ∃ loaded replayed, Chain (Loads d) d.inputs.toList e loaded ∧
        Chain (fun k e e' => e.Ready d k ∧ Replays strict d k e e') (List.range d.trace.size)
          loaded replayed ∧
        Chain (fun s e e' => e.Ready d d.trace.size ∧ Stored strict d d.trace.size s.1 s.2 e e')
          (finalStores d) replayed e' ∧
        e'.Ready d d.trace.size)
      fun f _ => d.Allows f := by
  have enough : d.nextId ≤ 3 * d.nextId := Nat.le_mul_of_pos_left _ (by decide)
  unfold functionBody
  dsimp only
  rw [outcome_bind]
  refine (outcome_inputs sound enough (by simp) opening).imp ?_
  rintro _ loaded ⟨inputs, opened⟩
  have ready := opened.ready sound
  rw [outcome_bind]
  -- Before each event, exactly the events recorded before it are written.
  have events : Outcome ((List.range d.trace.size).forM (demand d d.levels).event) loaded
      (fun _ e' => Chain (fun k e e' => e.Ready d k ∧ Replays strict d k e e')
          (List.range d.trace.size) loaded e' ∧
        e'.Ready d d.trace.size ∧ e'.Paced d d.trace.size ∧ ∀ j ∈ e'.written, j < d.trace.size)
      fun f _ => d.Allows f := by
    refine Outcome.chain_range (I := fun k (e : Emission) =>
      e.Ready d k ∧ e.Paced d k ∧ ∀ j ∈ e.written, j < k)
      (fun k within e turn => ?_) ⟨ready, opened.paced, by simp [opened.written]⟩
    obtain ⟨ready, paced, before⟩ := turn
    have serves := serves_demand sound (Nat.le_of_lt within) (3 * d.nextId)
    refine (outcome_turn sound serves enough ready within paced).imp fun _ e' done => ?_
    rcases done with already | replays
    · exact absurd (before k already) (Nat.lt_irrefl k)
    · refine ⟨⟨ready, replays⟩, replays.ready sound ready, replays.paced paced, fun j member => ?_⟩
      rw [Replays.written replays] at member
      rcases List.mem_cons.mp member with rfl | member
      · exact Nat.lt_succ_self j
      · exact Nat.lt_succ_of_lt (before j member)
  refine events.imp ?_
  rintro _ replayed ⟨replays, ends, _⟩
  have serves := serves_demand sound (Nat.le_refl _) d.levels
  have enough' : d.nextId ≤ d.levels := Nat.le_trans enough (Nat.le_succ _)
  refine (Outcome.chain (I := fun e : Emission => e.Ready d d.trace.size)
    (R := fun s e e' => e.Ready d d.trace.size ∧ Stored strict d d.trace.size s.1 s.2 e e')
    (fun s member e ready => ?_) ends).imp ?_
  · obtain ⟨⟨data, found, root⟩, value, live⟩ := finalStores_written sound s member
    refine (outcome_storeEvent sound serves enough' ready found (.inl root) live
      fun n live => ?_).imp fun _ e' stored => ⟨⟨ready, stored⟩, Stored.ready stored ready⟩
    refine ⟨value.ready n live, .inr (value.held n live), fun required => ?_⟩
    exact (value.outermost n live required).imp_right fun rest => rest.imp_right .inl
  · rintro _ e' ⟨stores, last⟩
    exact ⟨loaded, replayed, inputs, replays, stores, last⟩

/-- A compilation is refused at once if a block is open, and only then for that. -/
def Refuses (d : Draft) (f : Fault) : Prop :=
  d.scopes ≠ [] ∧ f = .controlFlow .openAtCompile ∨ d.scopes = [] ∧ d.Allows f

theorem outcome_everything (sound : d.Sound strict) (distinct : d.variableList.Nodup) :
    Outcome (everything d) (.start d)
      (fun put e => ∃ stages, Compiled strict d put.1 put.2 e stages)
      fun f _ => f.Plain ∧ ((start d).Listed → Refuses d f) := by
  unfold everything
  dsimp only
  split
  · rename_i opened
    exact ⟨trivial, fun _ => .inl ⟨by simpa using opened, rfl⟩⟩
  · rename_i closed
    have scopes : d.scopes = [] := by simpa using closed
    have allowed : ∀ f (_ : Emission), d.Allows f →
        f.Plain ∧ ((start d).Listed → Refuses d f) :=
      fun _ _ allows => ⟨allows.1, fun _ => .inr ⟨scopes, allows⟩⟩
    rw [outcome_bind]
    refine outcome_entry.mono (fun ids e₁ enters => ?_) allowed
    have undeclared : e₁.Undeclared d.variableList := by
      rw [Undeclared, enters.still.reached]
      simpa [start] using distinct
    rw [outcome_bind]
    refine Outcome.mono (preparing_allVariables sound undeclared) ?_
      fun _ _ failed => failed.imp_right fun allows listed =>
        .inr ⟨scopes, allows (enters.listed listed)⟩
    rintro interface e₂ ⟨steps, reached, introduced⟩
    have unbegun := enters.still.toUnbegun.trans steps.unbegun
    have opening : Opening d [] e₂ := by
      refine ⟨unbegun.written, fun p member => ?_, ⟨unbegun.selectionPhases, unbegun.loopPhases⟩,
        by simp, by simp, fun slot id held => ?_⟩
      · rw [reached]
        exact List.mem_append_left _ (List.mem_reverse.mpr member)
      · rw [unbegun.results] at held
        simp [start] at held
    rw [outcome_bind]
    refine (outcome_functionBody sound opening).mono ?_ allowed
    rintro _ e ⟨loaded, replayed, inputs, events, stores, ends⟩
    exact ⟨⟨e₂, loaded, replayed⟩, scopes, ⟨e₁, enters, steps⟩, introduced, inputs, events, stores,
      ends⟩

end Emit

namespace Draft

variable (sound : d.Sound strict) (distinct : d.variableList.Nodup)

include sound distinct

theorem assemble_compiled {m : ShaderModule} (run : d.assemble = .ok m e) :
    ∃ ids interface stages, Compiled strict d ids interface e stages ∧
      m.instructions = e.instructions d ids interface ∧ m.bound = e.nextId := by
  obtain ⟨ids, interface, whole, put, bound, _⟩ := assemble_eq_ok run
  obtain ⟨stages, compiled⟩ := (Emit.outcome_everything sound distinct).ok whole
  exact ⟨ids, interface, stages, compiled, put, bound⟩

/-- What an assembly is refused for. It is known if the tables are right at the start. -/
theorem assemble_refuses {fault : Fault} (run : d.assemble = .error fault e) :
    fault.Plain ∧ ((Emission.start d).Listed → Emit.Refuses d fault) := by
  have parts := Emit.outcome_everything sound distinct
  unfold assemble at run
  cases whole : (Emit.everything d).run (.start d) with
  | error fault' e' =>
    rw [whole] at run
    obtain ⟨rfl, rfl⟩ := EStateM.Result.error.inj run
    exact parts.error whole
  | ok pair e' =>
    rw [whole] at run
    contradiction

end Draft

end ShaderIR
