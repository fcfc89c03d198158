import ShaderIR.Proofs.Constants
import ShaderIR.Proofs.Telling
import ShaderIR.Proofs.Writable

/-! From a location to its variable. Walking from a location to the variable that it is a part of
gives the links between them. The variable decides the storage class of the location and whether it
can be written, and the links lead from its type to the type of the location. A module names a part
of a variable by a chain that starts at the variable and has an index for each link, so the variable
that a store goes to can be read from the module, and is one that can be written. -/
namespace ShaderIR

variable {p root : Place} {links : List Link} {base data : PlaceData} {id target type value : Id}
  {d : Draft} {e : Emission} {indices : List Id}

def Link.followAll (ty : Ty) (links : List Link) : Except Fault Ty := links.foldlM Link.follow ty

/-- The walk to the variable of a location ends after as many steps as there are links, however many
more it is allowed. -/
theorem Places.Path.walk {ps : Places} (path : ps.Path p root links) {steps : Nat}
    (enough : links.length < steps) (after : List Link) :
    ps.walk steps p after = .ok (root, links ++ after) := by
  induction path generalizing steps after with
  | root found origin =>
    obtain ⟨steps, rfl⟩ := Nat.exists_eq_succ_of_ne_zero (Nat.ne_of_gt enough)
    rw [Places.walk, Places.get_eq_ok.mpr found]
    simp only [Bind.bind, Except.bind, origin]
    rfl
  | chain found origin _ ih =>
    obtain ⟨steps, rfl⟩ := Nat.exists_eq_succ_of_ne_zero (Nat.ne_of_gt (Nat.zero_lt_of_lt enough))
    rw [Places.walk, Places.get_eq_ok.mpr found]
    simp only [Bind.bind, Except.bind, origin]
    rw [List.length_append, List.length_singleton] at enough
    rw [ih (Nat.lt_of_succ_lt_succ enough), List.append_assoc]
    rfl

namespace Draft

variable {d : Draft}

/-- What a location has from its variable: its type by the links, its storage class, and whether it
can be written. -/
theorem Lasting.inherits (lasting : d.Lasting) (path : d.places.Path p root links)
    (found : d.places.find? p = some data) (rootFound : d.places.find? root = some base) :
    Link.followAll base.pointee links = .ok data.pointee ∧ data.storage = base.storage ∧
      data.writable = base.writable ∧ data.depth = 1 + links.length := by
  induction path generalizing data with
  | root found' origin =>
    obtain rfl := Option.mem_unique found rootFound
    obtain rfl := Option.mem_unique found found'
    exact ⟨rfl, rfl, rfl, (lasting.sound.places _ _ found).root origin⟩
  | @chain p parent root data' link links found' origin path ih =>
    obtain rfl := Option.mem_unique found found'
    obtain ⟨above, aboveFound, storage, selects⟩ :=
      lasting.coherent.places p data found parent link origin
    obtain ⟨above', aboveFound', writable⟩ :=
      lasting.guarded.chains p data found parent link origin
    obtain rfl := Option.mem_unique aboveFound aboveFound'
    obtain ⟨_, aboveFound', _, deeper, _⟩ :=
      (lasting.sound.places p data found).chain parent link origin
    obtain rfl := Option.mem_unique aboveFound aboveFound'
    obtain ⟨followed, storage', writable', depth⟩ := ih aboveFound rootFound
    have last : link.follow above.pointee = .ok data.pointee := by
      cases link with
      | member => exact selects
      | index => exact selects.1
    refine ⟨?_, storage.trans storage', writable.trans writable', ?_⟩
    · rw [Link.followAll, List.foldlM_append, ← Link.followAll, followed]
      show (link.follow above.pointee >>= pure) = _
      rw [last]
      rfl
    · rw [deeper, depth, List.length_append, List.length_singleton, Nat.add_assoc]

end Draft

/-! In a module. -/

def Instruction.baseOf? (id : Id) : Instruction → Option Id
  | .accessChain _ result base _ => if result = id then some base else none
  | _ => none

theorem Instruction.baseOf?_eq_some {base : Id} {i : Instruction} :
    i.baseOf? id = some base ↔ ∃ type indices, i = .accessChain type id base indices := by
  cases i with
  | accessChain type result base' indices =>
    simp only [baseOf?]
    split <;> simp_all
  | _ => simp [baseOf?]

/-- The variable that the location with an id is a part of: the base of its chain, or itself. -/
def ShaderModule.rootOf (m : ShaderModule) (id : Id) : Id :=
  (m.instructions.findSome? (Instruction.baseOf? id)).getD id

theorem Emission.Statement.of_chain {result : Id}
    (statement : e.Statement d (.accessChain type result id indices)) :
    ∃ p root data base links, d.places.find? p = some data ∧ data.id = result ∧
      d.places.Path p root links ∧ d.places.find? root = some base ∧ base.id = id ∧
      List.Forall₂ (e.Indexes d) links indices := by
  generalize shape : Instruction.accessChain type result id indices = i at statement
  cases statement with
  | chain found path _ base _ walked =>
    obtain ⟨_, rfl, rfl, rfl⟩ := Instruction.accessChain.inj shape
    exact ⟨_, _, _, _, _, found, rfl, path, base, rfl, walked⟩
  | value _ _ computes =>
    subst shape
    cases computes
  | boundary _ wrote member =>
    obtain ⟨e₁, fresh, group, _⟩ := wrote
    subst shape
    cases group <;>
      simp [Selection.beginGroup, Selection.elseGroup, Selection.endGroup, CountedLoop.beginGroup,
        CountedLoop.endGroup, CountedLoop.leaveGroup, CountedLoop.nextGroup] at member
  | load | store => contradiction

theorem Trace.mem_actions_of_action? {t : Trace} {k : Nat} {a : Action}
    (recorded : t.action? k = some a) : a ∈ t.actions :=
  List.mem_of_getElem? (i := k) (by simpa [actions, action?] using recorded)

/-- Whatever is stored to, by an event or at the end, can be written. -/
theorem Draft.Lasting.stored (lasting : d.Lasting) {h : Handle} (stores : d.Stores p h) :
    d.Grants p true := by
  rcases stores with ⟨k, recorded⟩ | final
  · exact lasting.stores p h (Trace.mem_actions_of_action? recorded)
  · rcases List.mem_append.mp final with output | builtin
    · obtain ⟨o, listed, same⟩ := List.mem_map.mp output
      obtain ⟨rfl, rfl⟩ := Prod.mk.inj same
      exact lasting.guarded.outputs o (Array.mem_toList_iff.mp listed)
    · obtain ⟨o, listed, same⟩ := List.mem_map.mp builtin
      obtain ⟨rfl, rfl⟩ := Prod.mk.inj same
      exact lasting.guarded.builtins o (Array.mem_toList_iff.mp listed)

namespace Emission

def Admits (d : Draft) (e : Emission) (target : Id) : Prop :=
  ∃ p data, d.places.find? p = some data ∧ data.id = target ∧ data.writable = true ∧ p ∈ e.reached

variable {d : Draft} {e e₁ : Emission}

/-- A boundary stores to the counter of its loop only. -/
theorem Group.admits (lasting : d.Lasting) {b : Boundary} {fresh : Nat} {group : List Instruction}
    (written : e₁.Group d b fresh group) (grows : e₁.Grows e) (member : .store target value ∈ group)
    : e.Admits d target := by
  have counter : ∀ {index : Nat} {l : CountedLoop} {data : PlaceData}, d.loops[index]? = some l →
      d.places.find? l.counter = some data → l.counter ∈ e₁.reached → e.Admits d data.id := by
    intro index l data listed found reached
    obtain ⟨data', found', writable⟩ := lasting.counters l (Array.mem_of_getElem? listed)
    obtain rfl := Option.mem_unique found found'
    exact ⟨l.counter, data, found, rfl, writable, grows.reached _ reached⟩
  cases written with
  | ifBegin | ifElse | ifEnd | leave | next =>
    simp [Selection.beginGroup, Selection.elseGroup, Selection.endGroup, CountedLoop.leaveGroup,
      CountedLoop.nextGroup] at member
  | loopBegin listed found reached | loopEnd listed found reached =>
    obtain ⟨rfl, _⟩ : target = _ ∧ _ := by
      simpa [CountedLoop.beginGroup, CountedLoop.endGroup] using member
    exact counter listed found reached

theorem Statement.admits (lasting : d.Lasting) (statement : e.Statement d (.store target value)) :
    e.Admits d target := by
  generalize store : Instruction.store target value = i at statement
  cases statement with
  | store stores known reached =>
    obtain ⟨rfl, _⟩ := Instruction.store.inj store
    obtain ⟨data, known', writable⟩ := lasting.stored stores
    obtain rfl := Option.mem_unique known known'
    exact ⟨_, _, known, rfl, writable, reached⟩
  | value _ _ computes =>
    subst store
    cases computes
  | boundary _ wrote member =>
    obtain ⟨e₁, fresh, written, _, grows, _⟩ := wrote
    exact written.admits lasting grows (store ▸ member)
  | load | chain => contradiction

end Emission

namespace Draft

variable {d : Draft} (lasting : d.Lasting) {m : ShaderModule} (compiled : d.compilation.result = .ok m)
  {p root : Place} {data base : PlaceData} {links : List Link}

include lasting compiled

/-- The chain of a location starts at its variable and has one index for each link. -/
theorem Lasting.chain (found : d.places.find? p = some data) (path : d.places.Path p root links)
    (rootFound : d.places.find? root = some base)
    (member : .accessChain type data.id id indices ∈ m.instructions) :
    id = base.id ∧ List.Forall₂ (m.Indexes d) links indices := by
  obtain ⟨e, _, ids, interface, _, parts, put, _⟩ := lasting.toSteady.assemble_ok compiled
  have purposeful := parts.purposeful lasting.sound
  have written : .accessChain type data.id id indices ∈ e.body := by
    rw [put] at member
    have stands := ((parts.sections lasting.sound).locate member).2.2 rfl
    simpa using stands
  obtain ⟨p', root', data', base', links', found', same, path', rootFound', rfl, walked⟩ :=
    (purposeful.body _ written).of_chain
  obtain rfl := Owner.place.inj
    (lasting.owned.unique data.id _ _ ⟨data', found', same⟩ ⟨data, found, rfl⟩)
  obtain ⟨rfl, rfl⟩ := path.unique path'
  obtain rfl := Option.mem_unique rootFound rootFound'
  have defines := parts.keeps (P := fun _ e => e.Defines) (fun move => move.defines) lasting.sound
    fun _ enters => enters.defines lasting.owned.defines
  exact ⟨rfl, walked.imp fun _ _ link => link.passed purposeful defines put⟩

theorem Lasting.declared (found : d.places.find? root = some base) (origin : base.origin = .root) :
    ∃ type, .variableDecl type base.id base.storage ∈ m.instructions := by
  obtain ⟨e, _, ids, interface, _, parts, put, _⟩ := lasting.toSteady.assemble_ok compiled
  have reached := parts.ends.roots root (lasting.enlisted.complete root ⟨base, found, origin⟩)
  cases (parts.purposeful lasting.sound).places root base found reached with
  | root _ _ declared =>
    exact ⟨_, put ▸ Emission.contains_instructions interface (or_assoc.mp (.inl declared))⟩
  | chain path several => exact absurd (path.unique (.root found origin)).2.symm several

theorem Lasting.rootOf {ids : EntryIds} {interface : List Id} (purposeful : e.Purposeful d ids)
    (put : m.instructions = e.instructions d ids interface) (found : d.places.find? p = some data)
    (path : d.places.Path p root links) (rootFound : d.places.find? root = some base)
    (reached : p ∈ e.reached) : m.rootOf data.id = base.id := by
  cases first : m.instructions.findSome? (Instruction.baseOf? data.id) with
  | some id =>
    obtain ⟨i, member, isChain⟩ := List.exists_of_findSome?_eq_some first
    obtain ⟨type, indices, rfl⟩ := Instruction.baseOf?_eq_some.mp isChain
    rw [ShaderModule.rootOf, first]
    exact (lasting.chain compiled found path rootFound member).1
  | none =>
    cases purposeful.places p data found reached with
    | root origin =>
      obtain ⟨rfl, _⟩ := path.unique (.root found origin)
      obtain rfl := Option.mem_unique found rootFound
      rw [ShaderModule.rootOf, first]
      rfl
    | chain _ _ _ _ _ _ written =>
      have absent := List.findSome?_eq_none_iff.mp first _
        (put ▸ Emission.contains_instructions interface (.inr (.inr written)))
      rw [Instruction.baseOf?_eq_some.mpr ⟨_, _, rfl⟩] at absent
      contradiction

end Draft

namespace Draft

structure Flattens (d : Draft) (p : Place) (data : PlaceData) (root : Place) (base : PlaceData)
    (links : List Link) : Prop where
  flatten : d.places.flatten p = .ok (root, links)
  walk : ∀ steps, links.length < steps → d.places.walk steps p [] = .ok (root, links)
  found : d.places.find? root = some base
  origin : base.origin = .root
  pointee : Link.followAll base.pointee links = .ok data.pointee
  storage : data.storage = base.storage
  writable : data.writable = base.writable
  depth : data.depth = 1 + links.length

def IsTarget (d : Draft) (root : Place) : Prop :=
  (∃ o ∈ d.outputs, o.place = root) ∨ (∃ o ∈ d.builtins, o.place = root) ∨
    (∃ b ∈ d.bindings, b.kind = .storage ∧ b.place = root) ∨ root ∈ d.locals

variable {d : Draft}

theorem Lasting.flattens (lasting : d.Lasting) (found : d.places.find? p = some data)
    (flatten : d.places.flatten p = .ok (root, links)) (path : d.places.Path p root links)
    (rootFound : d.places.find? root = some base) : d.Flattens p data root base links := by
  obtain ⟨_, rootFound', origin⟩ := path.ends
  obtain rfl := Option.mem_unique rootFound rootFound'
  obtain ⟨pointee, storage, writable, depth⟩ := lasting.inherits path found rootFound
  refine ⟨flatten, fun steps enough => ?_, rootFound, origin, pointee, storage, writable, depth⟩
  rw [path.walk enough, List.append_nil]

/-- A variable that can be written is neither an input nor a resource that is only read. -/
theorem Lasting.isTarget (lasting : d.Lasting) (found : d.places.find? root = some base)
    (origin : base.origin = .root) (writable : base.writable = true) :
    d.IsTarget root ∧ base.id ∉ d.inputIds ∧
      ∀ b ∈ d.bindings, b.kind ≠ .storage → (d.shown b.place).1 ≠ base.id := by
  have closed : ∀ p, d.Grants p false → (d.shown p).1 ≠ base.id := by
    rintro p ⟨data, found', closed⟩ same
    simp only [shown, found'] at same
    obtain rfl := Owner.place.inj
      (lasting.owned.unique base.id _ _ ⟨data, found', same⟩ ⟨base, found, rfl⟩)
    obtain rfl := Option.mem_unique found found'
    rw [writable] at closed
    contradiction
  have inputs : ∀ i ∈ d.inputs, (d.shown i.place).1 ≠ base.id := fun i member =>
    closed i.place (lasting.guarded.inputs i member)
  have bindings : ∀ b ∈ d.bindings, b.kind ≠ .storage → (d.shown b.place).1 ≠ base.id := by
    intro b member other
    refine closed b.place ?_
    rw [← beq_eq_false_iff_ne.mpr other]
    exact lasting.guarded.bindings b member
  have own : (d.shown root).1 = base.id := by simp only [shown, found]
  refine ⟨?_, fun listed => ?_, bindings⟩
  · have listed := lasting.enlisted.complete root ⟨base, found, origin⟩
    simp only [variableList, List.mem_append, List.mem_map, Array.mem_toList_iff, or_assoc] at listed
    rcases listed with ⟨i, member, rfl⟩ | output | builtin | ⟨b, member, rfl⟩ | inFunction
    · exact absurd own (inputs i member)
    · exact .inl output
    · exact .inr (.inl builtin)
    · by_cases kind : b.kind = .storage
      · exact .inr (.inr (.inl ⟨b, member, kind, rfl⟩))
      · exact absurd own (bindings b member kind)
    · exact .inr (.inr (.inr inFunction))
  · obtain ⟨i, member, same⟩ := List.mem_map.mp listed
    exact inputs i (Array.mem_toList_iff.mp member) same

/-- After any history, also of compilations, a known location flattens to a variable and the links
from it. The variable has its storage class and can be written if the location can, and the links
lead to its type. In a module, the chain of the location starts at the variable and has an index for
each link, in order. Hence the variable of every store is an output, a storage block or a variable
of the function; it is no input, no uniform block and no texture. -/
theorem locations_flatten_to_variables (settings : Settings) (slots : List Ty) {first : Draft}
    (begun : withInputs settings slots = .ok () first) (history : List Call) {d : Draft}
    (reached : first.after history = d) :
    (∀ p data, d.places.find? p = some data → ∃ root base links,
      d.Flattens p data root base links ∧
        ∀ m, d.compilation.result = .ok m → ∀ type id indices,
          .accessChain type data.id id indices ∈ m.instructions →
            id = base.id ∧ List.Forall₂ (m.Indexes d) links indices) ∧
      ∀ m, d.compilation.result = .ok m → ∀ target value,
        .store target value ∈ m.instructions → ∃ root base,
          d.places.find? root = some base ∧ m.rootOf target = base.id ∧
            (∃ type, .variableDecl type base.id base.storage ∈ m.instructions) ∧
            d.IsTarget root ∧ m.rootOf target ∉ d.inputIds ∧
            ∀ b ∈ d.bindings, b.kind ≠ .storage → (d.shown b.place).1 ≠ m.rootOf target := by
  obtain rfl := eq_of_withInputs begun
  have lasting : d.Lasting := reached ▸ lasting_after settings slots history
  constructor
  · intro p data found
    obtain ⟨root, links, flatten, path⟩ := lasting.sound.flatten_path found
    obtain ⟨base, rootFound, _⟩ := path.ends
    refine ⟨root, base, links, lasting.flattens found flatten path rootFound, ?_⟩
    exact fun m compiled type id indices => lasting.chain compiled found path rootFound
  · intro m compiled target value member
    obtain ⟨e, _, ids, interface, _, parts, put, _⟩ := lasting.toSteady.assemble_ok compiled
    have purposeful := parts.purposeful lasting.sound
    have written : .store target value ∈ e.body := by
      rw [put] at member
      have stands := ((parts.sections lasting.sound).locate member).2.2 rfl
      simpa using stands
    obtain ⟨p, data, found, rfl, writable, reached⟩ := (purposeful.body _ written).admits lasting
    obtain ⟨root, links, _, path⟩ := lasting.sound.flatten_path found
    obtain ⟨base, rootFound, origin⟩ := path.ends
    have same := lasting.rootOf compiled purposeful put found path rootFound reached
    obtain ⟨_, _, inherited, _⟩ := lasting.inherits path found rootFound
    refine ⟨root, base, rootFound, same, lasting.declared compiled rootFound origin, ?_⟩
    rw [same]
    exact lasting.isTarget rootFound origin (inherited.symm.trans writable)

/-- A second program on a draft that was compiled before: it stores its input to a part of a storage
block, and a store to the input is refused. -/
def storesPart : List Call :=
  [.uniform 0 0 (.struct [.single]), .compile,
    .storage 0 0 (.struct [.vec 4, .array (.struct [.single, .single]) 3]), .constant (.int 2),
    .member ⟨3⟩ 1, .index ⟨4⟩ ⟨1, 2⟩, .member ⟨5⟩ 0, .store ⟨6⟩ ⟨0, 1⟩, .store ⟨2⟩ ⟨0, 1⟩]

theorem storesPart_flattens :
    withInputs { stage := .vertex } [.single] = .ok () (vertex [.single]) ∧
      ∃ d, (vertex [.single]).after storesPart = d ∧
        ∃ data base, d.places.find? ⟨6⟩ = some data ∧
          d.Flattens ⟨6⟩ data ⟨3⟩ base [.member 1, .index ⟨1, 2⟩, .member 0] ∧
          ∃ m : ShaderModule, d.compilation.result = .ok m ∧
            (∃ type indices, .accessChain type data.id base.id indices ∈ m.instructions ∧
              List.Forall₂ (m.Indexes d) [.member 1, .index ⟨1, 2⟩, .member 0] indices) ∧
            (∃ value, .store data.id value ∈ m.instructions) ∧
            ∃ root base', d.places.find? root = some base' ∧ m.rootOf data.id = base'.id ∧
              m.rootOf data.id ∉ d.inputIds := by
  obtain ⟨locations, stores⟩ := locations_flatten_to_variables { stage := .vertex } [.single]
    (withInputs_eq _ _) storesPart rfl
  refine ⟨withInputs_eq _ _, _, rfl, ?_⟩
  have known : (((vertex [.single]).after storesPart).places.find?
      ⟨6⟩).map PlaceData.id = some 7 := by decide +kernel
  obtain ⟨data, found, same⟩ := Option.map_eq_some_iff.mp known
  obtain ⟨root, base, links, flattens, chains⟩ := locations ⟨6⟩ data found
  have flatten : (((vertex [.single]).after storesPart).places.flatten ⟨6⟩).toOption =
      some (⟨3⟩, [.member 1, .index ⟨1, 2⟩, .member 0]) := by decide +kernel
  rw [flattens.flatten] at flatten
  obtain ⟨rfl, rfl⟩ := Prod.mk.inj (Option.some.inj flatten)
  obtain ⟨m, compiled, chain, store⟩ : ∃ m, ((vertex [.single]).after
      storesPart).compilation.result = .ok m ∧
        .accessChain 22 7 3 [23, 4, 25] ∈ m.instructions ∧ .store 7 2 ∈ m.instructions :=
    exists_of_any (by decide +kernel)
  rw [← same] at chain store
  obtain ⟨base', indexes⟩ := chains m compiled _ _ _ chain
  obtain ⟨root, base'', rootFound, rootId, _, _, other, _⟩ := stores m compiled _ _ store
  exact ⟨data, base, found, flattens, m, compiled, ⟨_, _, base' ▸ chain, indexes⟩, ⟨_, store⟩,
    root, base'', rootFound, rootId, other⟩

end Draft

end ShaderIR
