import ShaderIR.Proofs.Balance
import ShaderIR.Proofs.Coherent
import ShaderIR.Proofs.Owners

/-! What callers and drafts hold. A draft holds a reference on every value that its locations, events,
blocks and outputs need, and a caller holds those it has taken and not dropped. A caller that drops
only references it holds, or nodes that nobody refers to, leaves the draft whole. -/
namespace ShaderIR

variable {h value : Handle} {d d' : Draft} {kept owed : List Handle} {c : Call}
  {settings : Settings} {slots : List Ty} {program : List Call}

def Call.owing (d : Draft) (owed : List Handle) : Call → List Handle
  | .retain value => if ((Call.retain value).answer d).toBool then value :: owed else owed
  | .release value => owed.erase value
  | _ => owed

/-- A reference is dropped only if the caller holds one, or if there is none on the node. -/
def Call.Entitled (d : Draft) (owed : List Handle) : Call → Prop
  | .release value => ∀ n ∈ d.graph.find? value, n.refs = 0 ∨ value ∈ owed
  | _ => True

namespace Draft

/-- A program drops only references that the caller holds at that point, or nodes without any. -/
def Thrifty (d : Draft) (owed : List Handle) : List Call → Prop
  | [] => True
  | c :: rest => c.Entitled d owed ∧ (c.leaves d).Thrifty (c.owing d owed) rest

/-- All references are accounted for: some are owed to the caller, and the draft keeps what it
needs. -/
structure Accounts (d : Draft) (owed kept : List Handle) : Prop where
  balanced : d.graph.Balanced (owed ++ kept)
  indices : ∀ p data parent value, d.places.find? p = some data →
    data.origin = .chain parent (.index value) → value ∈ kept
  stores : ∀ event p h, d.trace.action? event = some (.store p h) → h ∈ kept
  conditions : ∀ (index : Nat) s, d.selections[index]? = some s → s.condition ∈ kept
  bounds : ∀ (index : Nat) l, d.loops[index]? = some l → ∀ h ∈ [l.first, l.last, l.step], h ∈ kept
  inputs : ∀ i ∈ d.inputs, i.value ∈ kept
  outputs : ∀ o ∈ d.outputs, o.value ∈ kept
  builtins : ∀ o ∈ d.builtins, o.value ∈ kept

section Parts

variable (accounts : d.Accounts owed kept)

include accounts

theorem Accounts.live (member : h ∈ kept) : d.Live h :=
  accounts.balanced.live h (List.mem_append_right _ member)

theorem Accounts.withNode {operands : List Handle} (live : ∀ o ∈ operands, d.Live o)
    (ty : Ty) (kind : NodeKind) : (d.withNode ty kind operands).Accounts owed kept :=
  { accounts with balanced := accounts.balanced.added live }

theorem Accounts.withLeaf (ty : Ty) (kind : NodeKind) :
    (d.withNode ty kind []).Accounts owed kept :=
  accounts.withNode (by simp) ty kind

theorem Accounts.withRef (live : d.Live value) :
    (d.withRef value).Accounts owed (value :: kept) where
  balanced := (accounts.balanced.addRef live).perm List.perm_middle.symm
  indices p data parent v found origin :=
    List.mem_cons_of_mem _ (accounts.indices p data parent v found origin)
  stores event p h recorded := List.mem_cons_of_mem _ (accounts.stores event p h recorded)
  conditions index s found := List.mem_cons_of_mem _ (accounts.conditions index s found)
  bounds index l found h member := List.mem_cons_of_mem _ (accounts.bounds index l found h member)
  inputs i member := List.mem_cons_of_mem _ (accounts.inputs i member)
  outputs o member := List.mem_cons_of_mem _ (accounts.outputs o member)
  builtins o member := List.mem_cons_of_mem _ (accounts.builtins o member)

theorem Accounts.retain (live : d.Live value) : (d.withRef value).Accounts (value :: owed) kept :=
  { accounts with balanced := accounts.balanced.addRef live }

theorem Accounts.withPlace (data : PlaceData)
    (new : ∀ parent value, data.origin = .chain parent (.index value) → value ∈ kept) :
    (d.withPlace data).Accounts owed kept :=
  { accounts with
    indices := fun p data' parent value found origin => by
      rw [Draft.withPlace, Places.find?_push] at found
      split at found
      · obtain rfl := Option.some.inj found
        exact new parent value origin
      · exact accounts.indices p data' parent value found origin }

theorem Accounts.withVariable (storage : Storage) (pointee : Ty) (writable : Bool) :
    (d.withVariable storage pointee writable).Accounts owed kept :=
  accounts.withPlace _ fun _ _ origin => by simp [variableData] at origin

theorem Accounts.withLocal (ty : Ty) : (d.withLocal ty).Accounts owed kept :=
  { accounts.withVariable .function ty true with }

theorem Accounts.withSampleLevel : d.withSampleLevel.Accounts owed kept := { accounts with }

theorem Accounts.withEvent {t : Trace} {action : Action} (grows : Trace.Grows d.trace t action)
    (new : ∀ p h, action = .store p h → h ∈ kept) : { d with trace := t }.Accounts owed kept :=
  { accounts with
    stores := fun event p h recorded => by
      rw [grows.action?] at recorded
      split at recorded
      · exact new p h (Option.some.inj recorded)
      · exact accounts.stores event p h recorded }

theorem Accounts.withBoundary (b : Boundary) :
    { d with trace := d.trace.pushBoundary b }.Accounts owed kept :=
  accounts.withEvent (Trace.grows_pushBoundary b) (by simp)

theorem Accounts.withAccess (p : Place) :
    { d with places := d.places.markAccessed p }.Accounts owed kept :=
  { accounts with
    indices := fun q data parent value found origin => by
      rw [Places.find?_markAccessed] at found
      obtain ⟨old, before, rfl⟩ := Option.map_eq_some_iff.mp found
      exact accounts.indices q old parent value before origin }

theorem Accounts.withLoad (p : Place) (ty : Ty) :
    (d.withLoad p ty).Accounts owed kept := by
  have node := accounts.withLeaf ty (.load d.trace.size)
  have event := node.withEvent (Trace.grows_pushLoad p d.graph.nextHandle) (by simp)
  exact { event.withAccess p with }

theorem Accounts.withStore (live : d.Live value) (p : Place) :
    (d.withStore p value).Accounts owed (value :: kept) := by
  have event := (accounts.withRef live).withEvent (Trace.grows_pushStore p value) (by simp)
  exact { event.withAccess p with }

theorem Accounts.withInput (ty : Ty) :
    (d.withInput ty).Accounts owed (d.graph.nextHandle :: kept) := by
  have node := (accounts.withVariable .input ty false).withLeaf ty (.input d.inputs.size)
  have held := node.withRef 
    (nextHandle_live (d := d.withVariable .input ty false) accounts.balanced.valid)
  refine { held with inputs := fun i member => ?_ }
  rcases Array.mem_push.mp member with before | rfl
  · exact held.inputs i before
  · exact List.mem_cons_self

theorem Accounts.withOutput (live : d.Live value) (ty : Ty) :
    (d.withOutput value ty).Accounts owed (value :: kept) := by
  have held := (accounts.withRef live).withVariable .output ty true
  refine { held with outputs := fun o member => ?_ }
  rcases Array.mem_push.mp member with before | rfl
  · exact held.outputs o before
  · exact List.mem_cons_self

theorem Accounts.withBuiltin (live : d.Live value) (b : Builtin) (ty : Ty) :
    (d.withBuiltin b value ty).Accounts owed (value :: kept) := by
  have held := (accounts.withRef live).withVariable .output ty true
  refine { held with builtins := fun o member => ?_ }
  rcases Array.mem_push.mp member with before | rfl
  · exact held.builtins o before
  · exact List.mem_cons_self

theorem Accounts.openSelection {condition : Handle} (member : condition ∈ kept) :
    (d.openSelection condition).Accounts owed kept := by
  have event := accounts.withBoundary (.ifBegin d.selections.size)
  refine { event with conditions := fun index s found => ?_ }
  rcases pushed_or found with before | ⟨_, rfl⟩
  · exact accounts.conditions index s before
  · exact member

theorem Accounts.switchSelection {index : Nat} {s : Selection}
    (stored : d.selections[index]? = some s) :
    (d.switchSelection index s).Accounts owed kept := by
  have event := accounts.withBoundary (.ifElse index)
  refine { event with conditions := fun k x found => ?_ }
  simp only [Draft.switchSelection, Array.getElem?_setIfInBounds] at found
  split at found
  · split at found
    · obtain rfl := Option.some.inj found
      exact accounts.conditions index s stored
    · contradiction
  · exact accounts.conditions k x found

theorem Accounts.openLoop {first last increment : Handle} (counter : Place)
    (members : ∀ h ∈ [first, last, increment], h ∈ kept) :
    (d.openLoop first last increment counter).Accounts owed kept := by
  have event := accounts.withBoundary (.loopBegin d.loops.size)
  refine { event with bounds := fun index l found => ?_ }
  rcases pushed_or found with before | ⟨_, rfl⟩
  · exact accounts.bounds index l before
  · exact members

theorem Accounts.closeBlock (outer : List Scope) (b : Boundary) :
    (d.closeBlock outer b).Accounts owed kept :=
  { accounts.withBoundary b with }

theorem Accounts.withJump (b : Id → Boundary) : (d.withJump b).Accounts owed kept :=
  { accounts.withBoundary (b d.nextId) with }

theorem Accounts.withLoop (low high : Int32) :
    ∃ kept, (d.withLoop low high).Accounts owed kept := by
  have known := literally_bounds accounts.balanced.valid low high
  have nodes := ((accounts.withLeaf .sint (.constant (.int low))).withLeaf .sint
    (.constant (.int high))).withLeaf .sint (.constant (.int 1))
  have first := nodes.withRef (known d.graph.nextHandle (by simp)).live
  have second := first.withRef ((known _ (List.mem_cons_of_mem _ List.mem_cons_self)).withRef _).live
  have third := second.withRef
    (((known _ (List.mem_cons_of_mem _ (List.mem_cons_of_mem _ List.mem_cons_self))).withRef _).withRef
      _).live
  refine ⟨_, (third.withLocal .sint).openLoop _ fun h member => ?_⟩
  simp only [List.mem_cons, List.not_mem_nil, or_false] at member ⊢
  tauto

theorem Accounts.release (entitled : (Call.release value).Entitled d owed) :
    ((Call.release value).leaves d).Accounts (owed.erase value) kept := by
  have released : ∀ g, d.graph.release value = .ok () g →
      (Call.release value).leaves d = { d with graph := g } := by
    intro g run
    simp only [Call.leaves, Call.run, Draft.release, run, Functor.map, EStateM.map]
  cases found : d.graph.find? value with
  | none =>
    have refused : (Call.release value).leaves d = d := by
      simp only [Call.leaves, Call.run, Draft.release, Graph.release, Graph.releaseAll, found,
        Functor.map, EStateM.map]
    have unowed : value ∉ owed := by
      intro member
      have live := accounts.balanced.live value (List.mem_append_left _ member)
      rw [found] at live
      contradiction
    rw [refused, List.erase_of_not_mem unowed]
    exact accounts
  | some n =>
    by_cases member : value ∈ owed
    · have held : d.graph.Balanced (value :: (owed.erase value ++ kept)) :=
        accounts.balanced.perm ((List.perm_cons_erase member).append_right kept)
      obtain ⟨g, run, balanced⟩ := held.release
      rw [released g run]
      exact { accounts with balanced }
    · have none : n.refs = 0 := (entitled n found).resolve_right member
      obtain ⟨g, run, balanced⟩ := accounts.balanced.release_unreferenced found none
      rw [released g run, List.erase_of_not_mem member]
      exact { accounts with balanced }

end Parts

theorem live_of {n : Node} (found : d.graph.find? h = some n) : d.Live h := by
  rw [Live, found]
  rfl

end Draft

open Draft in
theorem Bound.accounts {set binding : Word} {kind : BindingKind} {ty : Ty} {p : Place}
    (bound : Bound d set binding kind ty p d') (accounts : d.Accounts owed kept) :
    d'.Accounts owed kept := by
  cases bound with
  | again => exact accounts
  | new => exact { accounts.withVariable _ ty (kind == .storage) with }

open Draft in
theorem Effect.accounts {reply : Reply} (effect : Effect d c reply d')
    (accepted : c.answer d = .ok reply) (accounts : d.Accounts owed kept) :
    ∃ kept', d'.Accounts (c.owing d owed) kept' := by
  cases effect with
  | addInput ty => exact ⟨_, accounts.withInput ty⟩
  | input | pointee | typeOf => exact ⟨kept, accounts⟩
  | constant literal => exact ⟨kept, accounts.withLeaf _ _⟩
  | binary _ left right | extract left right =>
    exact ⟨kept, accounts.withNode (by simp [live_of left, live_of right]) _ _⟩
  | @sample a b _ _ _ source index =>
    have live : ∀ o ∈ [a, b], d.Live o := by simp [live_of source, live_of index]
    exact ⟨kept, accounts.withSampleLevel.withNode live _ _⟩
  | negate found => exact ⟨kept, accounts.withNode (by simp [live_of found]) _ _⟩
  | select condition accept reject =>
    exact ⟨kept, accounts.withNode
      (by simp [live_of condition, live_of accept, live_of reject]) _ _⟩
  | construct _ _ typed =>
    refine ⟨kept, accounts.withNode (fun o member => ?_) _ _⟩
    obtain ⟨v, found, _⟩ := typed o member
    exact live_of found
  | uniform bound | storage bound => exact ⟨kept, Bound.accounts bound accounts⟩
  | texture bound => exact ⟨kept, (Bound.accounts bound accounts).withLoad _ _⟩
  | localVariable ty => exact ⟨kept, accounts.withLocal ty⟩
  | member => exact ⟨kept, accounts.withPlace _ fun _ _ origin => by simp [chainData] at origin⟩
  | index _ value =>
    refine ⟨_, (accounts.withRef (live_of value)).withPlace _ ?_⟩
    rintro _ _ ⟨⟩
    exact List.mem_cons_self
  | load => exact ⟨kept, accounts.withLoad _ _⟩
  | store _ _ value => exact ⟨_, accounts.withStore (live_of value) _⟩
  | beginIf found => exact ⟨_, (accounts.withRef (live_of found)).openSelection List.mem_cons_self⟩
  | beginElse _ stored => exact ⟨kept, accounts.switchSelection stored⟩
  | endIf | endFor => exact ⟨kept, accounts.closeBlock _ _⟩
  | @beginFor _ _ low high =>
    obtain ⟨kept', opened⟩ := accounts.withLoop low high
    exact ⟨kept', opened.withLoad _ _⟩
  | breakLoop | continueLoop => exact ⟨kept, accounts.withJump _⟩
  | output found => exact ⟨_, accounts.withOutput (live_of found) _⟩
  | builtin _ _ found => exact ⟨_, accounts.withBuiltin (live_of found) _ _⟩
  | retain found =>
    refine ⟨kept, ?_⟩
    rw [Call.owing, accepted]
    exact accounts.retain (live_of found)

namespace Draft

theorem owing_refused (builds : c.builds = true) {fault : Fault}
    (refused : c.answer d = .error fault) : c.owing d owed = owed := by
  cases c with
  | retain value =>
    rw [Call.owing, refused]
    rfl
  | release => contradiction
  | _ => rfl

theorem Accounts.leaves (accounts : d.Accounts owed kept) (building : c.restarts = false)
    (entitled : c.Entitled d owed) :
    ∃ kept', (c.leaves d).Accounts (c.owing d owed) kept' := by
  rcases Call.building_cases accounts.balanced.valid building with
    ⟨reply, accepted, effect⟩ | ⟨⟨fault, refused⟩, builds, same⟩ | ⟨value, _, rfl, _⟩
  · exact Effect.accounts effect accepted accounts
  · rw [same, owing_refused builds refused]
    exact ⟨kept, accounts⟩
  · exact ⟨kept, accounts.release entitled⟩

theorem accounts_new (settings : Settings) : (new settings).Accounts [] [] where
  balanced := Graph.balanced_empty 0
  indices p data parent value found := by simp [new, Places.find?] at found
  stores event p h recorded := by simp [new, Trace.action?] at recorded
  conditions index s found := by simp [new] at found
  bounds index l found := by simp [new] at found
  inputs i member := by simp [new] at member
  outputs o member := by simp [new] at member
  builtins o member := by simp [new] at member

theorem Accounts.withSlots (accounts : d.Accounts owed kept) (types : List Ty) :
    ∃ kept', (d.withSlots types).Accounts owed kept' := by
  induction types generalizing d kept with
  | nil => exact ⟨kept, accounts⟩
  | cons ty rest ih => exact ih (accounts.withInput ty)

theorem Accounts.after {calls : List Call} (accounts : d.Accounts owed kept)
    (building : ∀ c ∈ calls, c.restarts = false) (thrifty : d.Thrifty owed calls) :
    ∃ owed' kept', (d.after calls).Accounts owed' kept' := by
  induction calls generalizing d owed kept with
  | nil => exact ⟨owed, kept, accounts⟩
  | cons c rest ih =>
    obtain ⟨first, others⟩ := List.forall_mem_cons.mp building
    obtain ⟨kept', after⟩ := accounts.leaves first thrifty.1
    exact ih after others thrifty.2

/-- A draft that keeps what it needs is whole. -/
theorem Accounts.whole (accounts : d.Accounts owed kept) (coherent : d.Coherent)
    (enlisted : d.Enlisted) (orderly : d.Orderly) : d.Whole := by
  have operands : ∀ h n, d.graph.find? h = some n → ∀ o ∈ n.operands, d.Live o :=
    fun h n found o member => accounts.balanced.operands o (Graph.mem_operandList found member)
  refine ⟨operands, fun h n found computed => ?_,
    fun p data parent value found origin => accounts.live
      (accounts.indices p data parent value found origin),
    fun event p h recorded => accounts.live (accounts.stores event p h recorded),
    fun index s found => accounts.live (accounts.conditions index s found),
    fun index l found h member => accounts.live (accounts.bounds index l found h member),
    fun i member => accounts.live (accounts.inputs i member),
    fun o member => accounts.live (accounts.outputs o member),
    fun o member => accounts.live (accounts.builtins o member),
    enlisted.complete, enlisted.bindings, orderly.paced⟩
  obtain ⟨shapes, each, fits⟩ := coherent.nodes h n found computed
  refine ⟨shapes, ?_, fits⟩
  have alive := operands h n found
  clear fits
  generalize n.operands = values at each alive
  induction each with
  | nil => exact .nil
  | @cons o shape _ _ had _ ih =>
    obtain ⟨v, known⟩ := Option.isSome_iff_exists.mp (alive o List.mem_cons_self)
    exact .cons ⟨v, known, had.2 v known⟩ (ih fun k member => alive k (List.mem_cons_of_mem o member))

theorem coherent_after (building : ∀ c ∈ program, c.restarts = false) :
    (((new settings).withSlots slots).after program).Coherent :=
  ((steps_withSlots _ slots).coherent (sound_new False settings)
    (coherent_cleared (new settings) {})).after
    (proper_begun False settings slots).sound building

/-- A program that drops only references it holds leaves a whole draft. -/
theorem whole_after (building : ∀ c ∈ program, c.restarts = false)
    (thrifty : ((new settings).withSlots slots).Thrifty [] program) :
    (((new settings).withSlots slots).after program).Whole := by
  have begun := proper_begun False settings slots
  have proper := begun.after building
  obtain ⟨kept, opened⟩ := (accounts_new settings).withSlots slots
  obtain ⟨owed, kept', accounts⟩ := opened.after building thrifty
  exact accounts.whole (coherent_after building) proper.enlisted proper.orderly

end Draft

end ShaderIR
