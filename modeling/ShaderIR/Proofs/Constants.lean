import ShaderIR.Proofs.Catalogue
import ShaderIR.Proofs.Labels
import ShaderIR.Proofs.Ranges
import ShaderIR.Proofs.Sequence

/-! Constants are declared once. Whatever a literal is needed for, a constant of the program, a
member of a struct, the length of an array, the bounds of a loop or the level of detail of a sample,
it is passed by the id of the one constant that holds it. -/
namespace ShaderIR

variable {i : Instruction} {literal : Literal} {id type : Id} {ranges : List (Int32 × Int32)}
  {index : Nat}

def Instruction.literal? : Instruction → Option Literal
  | .constant _ _ literal => some literal
  | _ => none

theorem Instruction.literal?_eq_some :
    i.literal? = some literal ↔ ∃ type id, i = .constant type id literal := by
  cases i <;> simp [Instruction.literal?]

def Instruction.takesValues : Instruction → Bool
  | .store _ _ | .accessChain _ _ _ _ | .compute _ _ _ _ | .select _ _ _ _ _ | .construct _ _ _
  | .extract _ _ _ _ | .extractDynamic _ _ _ _ | .sample _ _ _ _ _ | .branchConditional _ _ _ => true
  | _ => false

namespace Literal

def form : Literal → TypeForm
  | .int _ => .int 32 true
  | .uint _ => .int 32 false
  | .float _ => .float 32

/-- A literal is told by its kind and its bits. -/
theorem eq_of_word {a b : Literal} (kind : a.ty = b.ty) (bits : a.word = b.word) : a = b := by
  cases a <;> cases b <;> first
    | (simp [Literal.ty, Ty.sint, Ty.uint, Ty.single] at kind; done)
    | skip
  case int.int a b =>
    cases a
    cases b
    exact congrArg (fun word => Literal.int ⟨word⟩) bits
  case uint.uint => exact congrArg Literal.uint bits
  case float.float => exact congrArg Literal.float bits

end Literal

namespace ShaderModule

variable (m : ShaderModule) (d : Draft)

def IsConstant (literal : Literal) (id : Id) : Prop :=
  ∃ type, .constant type id literal ∈ m.instructions

def Indexes : Link → Id → Prop
  | .member index, id => m.IsConstant (.int index.toInt32) id
  | .index value, id => m.Holds d value id

def Computes (n : Node) (i : Instruction) : Prop :=
  ∃ type, d.Computes (m.Holds d) m.IsConstant n type i

/-- What an instruction that takes values is there for, with the ids that are passed to it. The
loops of the draft count through the given ranges, with ids of their own for the counter. -/
inductive Renders (ranges : List (Int32 × Int32)) : Instruction → Prop where
  | store {p : Place} {h : Handle} {data : PlaceData} {x : Id} : d.Stores p h →
      d.places.find? p = some data → m.Holds d h x → Renders ranges (.store data.id x)
  | value {h : Handle} {n : Node} {i : Instruction} : d.graph.find? h = some n →
      m.Computes d n i → Renders ranges i
  | chain {p root : Place} {data base : PlaceData} {links : List Link} {indices : List Id}
      (type : Id) : d.places.find? p = some data → d.places.Path p root links →
      d.places.find? root = some base → List.Forall₂ (m.Indexes d) links indices →
      Renders ranges (.accessChain type data.id base.id indices)
  | condition {index : Nat} {s : Selection} {x : Id} : d.selections[index]? = some s →
      m.Holds d s.condition x → Renders ranges (.branchConditional x s.thenLabel s.falseLabel)
  | loopStart {index : Nat} {l : CountedLoop} {low high : Int32} {counter : PlaceData} {x : Id} :
      d.loops[index]? = some l → ranges[index]? = some (low, high) →
      d.places.find? l.counter = some counter → m.IsConstant (.int low) x →
      Renders ranges (.store counter.id x)
  | loopTest {index : Nat} {low high : Int32} {type current computed x : Id} :
      ranges[index]? = some (low, high) → d.nextId ≤ current → d.nextId ≤ computed →
      m.IsConstant (.int high) x →
      Renders ranges (.compute .sLessThan type computed [current, x])
  | loopBranch {index : Nat} {l : CountedLoop} {computed : Id} : d.loops[index]? = some l →
      d.nextId ≤ computed → Renders ranges (.branchConditional computed l.body l.post)
  | loopAdvance {type current computed x : Id} : d.nextId ≤ current → d.nextId ≤ computed →
      m.IsConstant (.int 1) x → Renders ranges (.compute .iAdd type computed [current, x])
  | loopCount {index : Nat} {l : CountedLoop} {counter : PlaceData} {computed : Id} :
      d.loops[index]? = some l → d.places.find? l.counter = some counter → d.nextId ≤ computed →
      Renders ranges (.store counter.id computed)

variable {m d} in
/-- A value that stands for a literal is passed by the id of its constant. -/
theorem Holds.isConstant {h : Handle} {literal : Literal} {id : Id} (holds : m.Holds d h id)
    (means : d.graph.Means h literal) : m.IsConstant literal id := by
  obtain ⟨n, found, ⟨literal', type, kind, member⟩ | ⟨other, _⟩⟩ := holds
  · obtain rfl := NodeKind.constant.inj (kind.symm.trans (means.kind n found))
    exact ⟨type, member⟩
  · exact absurd (means.kind n found) (other literal)

structure Counts (l : CountedLoop) (range : Int32 × Int32) : Prop where
  begins : ∃ ids bool first last, m.IsConstant (.int range.1) first ∧
    m.IsConstant (.int range.2) last ∧ ∀ i ∈ l.beginGroup ids bool first last, i ∈ m.function
  ends : ∃ ids step, m.IsConstant (.int 1) step ∧ ∀ i ∈ l.endGroup ids step, i ∈ m.function

end ShaderModule

namespace Emission

section Passed

variable {d : Draft} {ids : EntryIds} {interface : List Id} {m : ShaderModule} {e e₁ : Emission}
  (purposeful : e.Purposeful d ids) (defines : e.Defines)
  (put : m.instructions = e.instructions d ids interface)

include defines put in
theorem IsLiteral.isConstant (known : e.IsLiteral literal id) : m.IsConstant literal id := by
  obtain ⟨type, _, member⟩ := defines literal id known
  exact ⟨type, put ▸ contains_instructions interface (.inl member)⟩

include purposeful defines put

theorem Computes.passed {n : Node} (computes : e.Computes d n type i) : m.Computes d n i := by
  -- The arguments of a node are its operands that are there.
  have holds : ∀ {a : Handle} {x : Id}, a ∈ d.graph.arguments n → e.Holds a x → m.Holds d a x :=
    fun member held => Held.holds purposeful defines put ⟨held, (List.mem_filter.mp member).2⟩
  exact ⟨type, computes.imp holds (IsLiteral.isConstant defines put)⟩

theorem Indexes.passed {link : Link} (indexes : e.Indexes d link id) : m.Indexes d link id := by
  cases link with
  | member index => exact IsLiteral.isConstant defines put indexes
  | index value => exact Held.holds purposeful defines put indexes

variable (ranged : d.Ranged ranges)

include ranged

theorem Group.passed {b : Boundary} {fresh : Nat} {group : List Instruction}
    (written : e₁.Group d b fresh group) (later : d.nextId ≤ e₁.nextId) (grows : e₁.Grows e)
    (member : i ∈ group) (takes : i.takesValues = true) : m.Renders d ranges i := by
  have holds : ∀ {h : Handle} {x : Id}, e₁.Held d h x → m.Holds d h x :=
    fun held => Held.holds purposeful defines put (grows.held held)
  cases written with
  | ifElse | ifEnd | leave | next =>
    simp only [Selection.elseGroup, Selection.endGroup, CountedLoop.leaveGroup,
      CountedLoop.nextGroup, List.mem_cons, List.not_mem_nil, or_false] at member
    rcases member with rfl | rfl <;> contradiction
  | ifBegin found held =>
    simp only [Selection.beginGroup, List.mem_cons, List.not_mem_nil, or_false] at member
    rcases member with rfl | rfl | rfl <;> first | contradiction | skip
    exact .condition found (holds held)
  | loopBegin found known _ _ _ first last =>
    obtain ⟨range, stored, counts⟩ := ranged.range found
    simp only [CountedLoop.beginGroup, List.mem_cons, List.not_mem_nil, or_false] at member
    rcases member with rfl | rfl | rfl | rfl | rfl | rfl | rfl | rfl | rfl | rfl <;>
      first | contradiction | skip
    · exact .loopStart found stored known ((holds first).isConstant counts.first)
    · exact .loopTest stored later (Nat.le_succ_of_le later) ((holds last).isConstant counts.last)
    · exact .loopBranch found (Nat.le_succ_of_le later)
  | loopEnd found known _ _ step =>
    obtain ⟨range, stored, counts⟩ := ranged.range found
    simp only [CountedLoop.endGroup, List.mem_cons, List.not_mem_nil, or_false] at member
    rcases member with rfl | rfl | rfl | rfl | rfl | rfl | rfl <;> first | contradiction | skip
    · exact .loopAdvance later (Nat.le_succ_of_le later) ((holds step).isConstant counts.step)
    · exact .loopCount found known (Nat.le_succ_of_le later)

/-- The instructions that take values are passed the ids of what they are there for. -/
theorem Statement.passed (statement : e.Statement d i) (takes : i.takesValues = true) :
    m.Renders d ranges i := by
  cases statement with
  | load => contradiction
  | store stores found _ held => exact .store stores found (Held.holds purposeful defines put held)
  | value found _ computes => exact .value found (computes.passed purposeful defines put)
  | chain found path _ base _ indices =>
    exact .chain _ found path base (indices.imp fun _ _ link => link.passed purposeful defines put)
  | boundary _ wrote member =>
    obtain ⟨e₁, fresh, written, later, grows, _⟩ := wrote
    exact written.passed purposeful defines put ranged later grows member takes

end Passed

section Module

variable {strict : Prop} {d : Draft} {ids : EntryIds} {interface : List Id} {m : ShaderModule}
  {e : Emission} {stages : Stages} (proper : d.Proper strict)
  (compiled : Compiled strict d ids interface e stages)
  (put : m.instructions = e.instructions d ids interface)

theorem Listed.literal_form (listed : e.Listed) (typed : e.IsType literal.ty type) :
    .typeDecl type literal.form ∈ e.declarations := by
  obtain ⟨form, forms, member⟩ := listed.types _ type typed
  cases literal <;> cases forms <;> exact member

include compiled put

theorem Compiled.of_constant (sound : d.Sound strict)
    (member : .constant type id literal ∈ m.instructions) :
    e.IsType literal.ty type ∧ e.IsLiteral literal id := by
  have declared := ((compiled.sections sound).locate (put ▸ member)).1 rfl
  cases (compiled.purposeful sound).declarations _ declared with
  | constant typed known => exact ⟨typed, known⟩

include proper

theorem Compiled.mem_function (member : i ∈ e.body) : i ∈ m.function := by
  rw [(compiled.sections proper.sound).function put]
  simp [member]

/-- A constant and its literal determine each other. -/
theorem Compiled.constant_iff {literal' : Literal} {id' : Id} (constant : m.IsConstant literal id)
    (constant' : m.IsConstant literal' id') : id = id' ↔ literal = literal' := by
  obtain ⟨type, member⟩ := constant
  obtain ⟨type', member'⟩ := constant'
  have known := (compiled.of_constant put proper.sound member).2
  have known' := (compiled.of_constant put proper.sound member').2
  constructor
  · exact (compiled.tidy proper.toSteady).distinct _ _ _ _ known known'
  · rintro rfl
    exact congrArg ConstantEntry.id (Option.mem_unique known known')

theorem Compiled.renders (ranged : d.Ranged ranges) (member : i ∈ m.function)
    (takes : i.takesValues = true) : m.Renders d ranges i := by
  rw [(compiled.sections proper.sound).function put] at member
  simp only [List.mem_cons, List.mem_append, List.not_mem_nil, or_false,
    Array.mem_toList_iff] at member
  rcases member with rfl | (own | body) | rfl
  · contradiction
  · obtain ⟨_, _, rfl⟩ := (compiled.sections proper.sound).locals i own
    contradiction
  · have purposeful := compiled.purposeful proper.sound
    exact (purposeful.body i body).passed purposeful (compiled.listed proper).constants put ranged
      takes
  · contradiction

theorem Compiled.held_constant {e₁ : Emission} {h : Handle} {x : Id} (grows : e₁.Grows e)
    (held : e₁.Held d h x) (means : d.graph.Means h literal) : m.IsConstant literal x :=
  (Held.holds (compiled.purposeful proper.sound) (compiled.listed proper).constants put
    (grows.held held)).isConstant means

omit put in
theorem Compiled.loop_recorded {l : CountedLoop} (stored : d.loops[index]? = some l) :
    (∃ k, d.trace.action? k = some (.boundary (.loopBegin index))) ∧
      ∃ k, d.trace.action? k = some (.boundary (.loopEnd index)) := by
  have opened : d.Opened (.loop index) := (Array.getElem?_eq_some_iff.mp stored).1
  have closed := proper.orderly.closed (.loop index) opened (by simp [compiled.scopes])
  have begun : d.trace.phaseAt (.loop index) d.trace.size ≠ .built := by simp [closed]
  obtain ⟨j, _, begins⟩ := proper.orderly.opener begun
  obtain ⟨k, _, ends⟩ := Draft.closer_recorded closed
  exact ⟨⟨j, begins⟩, k, ends⟩

/-- Every loop that was opened is written with the constants of its range. -/
theorem Compiled.counts (ranged : d.Ranged ranges) {range : Int32 × Int32}
    (found : ranges[index]? = some range) : ∃ l, d.loops[index]? = some l ∧ m.Counts l range := by
  obtain ⟨l, stored, counts⟩ := ranged.loop found
  obtain ⟨⟨_, begins⟩, _, ends⟩ := compiled.loop_recorded proper stored
  refine ⟨l, stored, ?_, ?_⟩
  · obtain ⟨group, e₁, _, written, _, grows, inside⟩ := compiled.wrote proper.sound begins
    cases written with
    | loopBegin stored' _ _ _ _ first last =>
      obtain rfl := Option.mem_unique stored stored'
      exact ⟨_, _, _, _, compiled.held_constant proper put grows first counts.first,
        compiled.held_constant proper put grows last counts.last,
        fun i member => compiled.mem_function proper put (inside i member)⟩
  · obtain ⟨group, e₁, _, written, _, grows, inside⟩ := compiled.wrote proper.sound ends
    cases written with
    | loopEnd stored' _ _ _ step =>
      obtain rfl := Option.mem_unique stored stored'
      exact ⟨_, _, compiled.held_constant proper put grows step counts.step,
        fun i member => compiled.mem_function proper put (inside i member)⟩

end Module

end Emission

/-- A module has one constant for each literal that it needs, told by kind and bits, with the type
of the literal. The instructions of its function are passed the ids of constants wherever the
program, a member of a struct, the range of a loop or a sample asks for a literal; so are arrays for
their lengths, and every loop that the program opened is written with the constants of its range. -/
theorem Draft.constants_declared_once (settings : Settings) (slots : List Ty) {first : Draft}
    (begun : withInputs settings slots = .ok () first) {program : List Call}
    (building : ∀ c ∈ program, c.restarts = false) {m : ShaderModule}
    (compiled : (first.after program).compilation.result = .ok m) :
    ((m.instructions.filterMap Instruction.literal?).map
        fun literal => (literal.ty, literal.word)).Nodup ∧
      (∀ literal literal' id id', m.IsConstant literal id → m.IsConstant literal' id' →
        (id = id' ↔ literal = literal')) ∧
      (∀ type id literal, .constant type id literal ∈ m.instructions →
        .typeDecl type literal.form ∈ m.instructions) ∧
      (∀ i ∈ m.function, i.takesValues = true →
        m.Renders (first.after program) (first.ranges program) i) ∧
      (∀ (index : Nat) range, (first.ranges program)[index]? = some range →
        ∃ l, (first.after program).loops[index]? = some l ∧ m.Counts l range) ∧
      ∃ e, (first.after program).assemble = .ok m e ∧
        ∀ id element count, .typeDecl id (.array element count) ∈ m.instructions →
          ∃ ty length, e.IsType (.array ty length) id ∧ e.IsType ty element ∧
            m.IsConstant (.uint length) count := by
  obtain rfl := eq_of_withInputs begun
  have proper := (proper_begun False settings slots).after building
  have ranged := (ranged_begun settings slots).after building (issuing_begun settings slots)
  obtain ⟨e, run, ids, interface, _, parts, put, _⟩ := proper.assemble_ok compiled
  refine ⟨?_, fun _ _ _ _ => parts.constant_iff proper put, fun type id literal member => ?_,
    fun i member takes => parts.renders proper put ranged member takes,
    fun index range found => parts.counts proper put ranged found, e, run,
    fun id element count member => ?_⟩
  · have once : (m.instructions.filterMap Instruction.literal?).Nodup := by
      refine nodup_filterMap_of_results (put ▸ parts.distinct proper) ?_ ?_
      · intro i _ literal known
        obtain ⟨type, id, rfl⟩ := Instruction.literal?_eq_some.mp known
        exact ⟨id, rfl⟩
      · intro i member j member' literal known known'
        obtain ⟨type, id, rfl⟩ := Instruction.literal?_eq_some.mp known
        obtain ⟨type', id', rfl⟩ := Instruction.literal?_eq_some.mp known'
        exact congrArg some
          ((parts.constant_iff proper put ⟨type, member⟩ ⟨type', member'⟩).mpr rfl)
    refine once.map_on fun literal _ literal' _ same => ?_
    obtain ⟨kind, bits⟩ := Prod.mk.inj same
    exact Literal.eq_of_word kind bits
  · have typed := (parts.of_constant put proper.sound member).1
    exact put ▸ Emission.contains_instructions interface
      (.inl ((parts.listed proper).literal_form typed))
  · rw [put] at member
    rcases parts.of_typeDecl proper.sound member with ⟨ty, known, forms⟩ | ⟨_, other⟩
    · cases forms with
      | array typed length =>
        exact ⟨_, _, known, typed, Emission.IsLiteral.isConstant
          (parts.listed proper).constants put length⟩
    · contradiction

/-- A program that needs zero in several ways: as the start of a loop whose bounds are exchanged, as
a member of a struct, as the level of detail of a sample and as floats of both signs. It needs seven
as the end of the loop and as the length of an array. -/
def Draft.needsLiterals : List Call :=
  [.uniform 0 0 (.struct [.array .single 7, .single]), .member ⟨1⟩ 0, .beginFor 7 0,
    .index ⟨2⟩ ⟨4, 4⟩, .load ⟨4⟩, .endFor, .texture 0 1 .plane, .binary .lookup ⟨6, 6⟩ ⟨0, 0⟩,
    .constant (.float 0), .constant (.float 0x80000000), .binary .add ⟨8, 8⟩ ⟨9, 9⟩,
    .output ⟨10, 10⟩, .output ⟨7, 7⟩]

theorem Draft.needsLiterals_declared_once :
    withInputs { stage := .vertex } [.vec 2] = .ok () (vertex [.vec 2]) ∧
      (∀ c ∈ needsLiterals, c.restarts = false) ∧
      ∃ m : ShaderModule,
        ((vertex [.vec 2]).after needsLiterals).compilation.result = .ok m ∧
          (∀ literal literal' id id', m.IsConstant literal id → m.IsConstant literal' id' →
            (id = id' ↔ literal = literal')) ∧
          ∃ l, ((vertex [.vec 2]).after needsLiterals).loops[0]? = some l ∧ m.Counts l (0, 7) := by
  have building : ∀ c ∈ needsLiterals, c.restarts = false := by decide
  have ranges : (vertex [.vec 2]).ranges needsLiterals = [(0, 7)] := by
    decide +kernel
  refine ⟨withInputs_eq _ _, building, exists_and_of_toBool (by decide +kernel) fun m compiled => ?_⟩
  obtain ⟨_, unique, _, _, loops, _⟩ :=
    constants_declared_once { stage := .vertex } [.vec 2] (withInputs_eq _ _) building compiled
  exact ⟨unique, loops 0 (0, 7) (by rw [ranges]; rfl)⟩

end ShaderIR
