import ShaderIR.Proofs.Structured

/-! What code may use. A value or an access chain is written where it is first needed, unless a block
is opened before: then all that could be needed inside and after the block is written first. So what
is held when a block is switched or closed, and is in scope then, was held when the block was
opened. -/
namespace ShaderIR

variable {h : Handle} {n : Node} {id : Id} {p : Place} {data : PlaceData} {i j : Nat} {b : Boundary}

namespace Emission

/-- A value that is held is a declared constant, or it could be written before an event. -/
def SettledValue (k : Nat) (e : Emission) (n : Node) (id : Id) : Prop :=
  (∃ literal, n.kind = .constant literal) ∧ e.Introduces id ∨
    (∀ literal, n.kind ≠ .constant literal) ∧ n.ready ≤ k ∧ (n.kind.isComputed = true → 0 < n.refs)

/-- A location that is reached is a declared variable, or it could be written before an event. -/
def SettledPlace (k : Nat) (e : Emission) (data : PlaceData) : Prop :=
  data.origin = .root ∧ e.Introduces data.id ∨
    data.isChain = true ∧ data.position.event ≤ k ∧ data.accessed = true

/-- What is held and what is reached could be written before an event. Constants and variables are
declared. -/
structure Settled (d : Draft) (k : Nat) (e : Emission) : Prop where
  listed : e.Listed
  values : ∀ h n id, d.graph.find? h = some n → e.Holds h id → e.SettledValue k n id
  places : ∀ p data, d.places.find? p = some data → p ∈ e.reached → e.SettledPlace k data

/-- An id that may be used at an event: it is declared, or it is that of a value that is held or of a
location that is reached, and that is in scope. -/
def Visible (final : Emission) (d : Draft) (k : Nat) (e : Emission) (id : Id) : Prop :=
  final.Introduces id ∨
    (∃ h n, d.graph.find? h = some n ∧ e.Holds h id ∧ n.Available d.trace k) ∨
    ∃ p data, d.places.find? p = some data ∧ p ∈ e.reached ∧ data.id = id ∧
      data.Available d.trace k

section Settled

variable {d : Draft} {k k' : Nat} {e e' : Emission}

theorem Settled.grow (settled : e.Settled d k) (grows : e.Grows e') (listed : e'.Listed)
    (later : k ≤ k')
    (values : ∀ h n id, d.graph.find? h = some n → e'.Holds h id →
      e.Holds h id ∨ e'.SettledValue k' n id)
    (places : ∀ p data, d.places.find? p = some data → p ∈ e'.reached →
      p ∈ e.reached ∨ e'.SettledPlace k' data) : e'.Settled d k' where
  listed := listed
  values h n id found held := by
    rcases values h n id found held with before | now
    · rcases settled.values h n id found before with ⟨literal, known⟩ | ⟨other, ready, used⟩
      · exact .inl ⟨literal, grows.introduces known⟩
      · exact .inr ⟨other, Nat.le_trans ready later, used⟩
    · exact now
  places p data found reached := by
    rcases places p data found reached with before | now
    · rcases settled.places p data found before with ⟨root, known⟩ | ⟨chain, ready, used⟩
      · exact .inl ⟨root, grows.introduces known⟩
      · exact .inr ⟨chain, Nat.le_trans ready later, used⟩
    · exact now

theorem Settled.same (settled : e.Settled d k) (grows : e.Grows e') (listed : e'.Listed)
    (later : k ≤ k') (results : e'.results = e.results) (reached : e'.reached = e.reached) :
    e'.Settled d k' :=
  settled.grow grows listed later (fun _ _ _ _ held => .inl (by rwa [Holds, results] at held))
    fun _ _ _ member => .inl (reached ▸ member)

theorem Settled.hold (settled : e.Settled d k) (grows : e.Grows e') (listed : e'.Listed)
    (later : k ≤ k') (found : d.graph.find? h = some n)
    (results : e'.results = e.results.insert h.slot id) (reached : e'.reached = e.reached)
    (now : e'.SettledValue k' n id) : e'.Settled d k' := by
  refine settled.grow grows listed later (fun h' n' id' found' held => ?_) fun _ _ _ member =>
    .inl (reached ▸ member)
  rcases holds_insert found found' results held with before | ⟨rfl, rfl⟩
  · exact .inl before
  · exact .inr now

theorem Settled.reach (settled : e.Settled d k) (grows : e.Grows e') (listed : e'.Listed)
    (found : d.places.find? p = some data) (results : e'.results = e.results)
    (reached : e'.reached = p :: e.reached) (now : e'.SettledPlace k data) : e'.Settled d k := by
  refine settled.grow grows listed (Nat.le_refl k)
    (fun _ _ _ _ held => .inl (by rwa [Holds, results] at held)) fun p' data' found' member => ?_
  rw [reached] at member
  rcases List.mem_cons.mp member with rfl | before
  · obtain rfl := Option.mem_unique found found'
    exact .inr now
  · exact .inl before

end Settled

section Ask

variable {d : Draft} {k : Nat} {bound : Id} {e e' final : Emission}

/-- The arguments of a computation can be written where the computation can be. -/
theorem Computes.argument_due {strict : Prop} (sound : d.Sound strict) (within : k ≤ d.trace.size)
    {o : Handle} {v : Node} {type : Id} {i : Instruction} (computes : e.Computes d n type i)
    (found : d.graph.find? h = some n) (due : n.Due strict d.trace k)
    (argument : o ∈ d.graph.arguments n) (known : d.graph.find? o = some v) :
    v.Due strict d.trace k := by
  have built : n.ready = n.position.event ∧ ∀ slot, n.kind ≠ .input slot := by
    cases computes with
    | unary kind | binary kind | sample kind | column kind | component kind | select kind
    | construct kind => simp [Node.ready, kind]
  exact (sound.operand_due within found due built.1 built.2 computes.not_constant
    (List.mem_filter.mp argument).1 known).1

theorem Ask.settled (step : Ask True d k bound e e') (settled : e.Settled d k) : e'.Settled d k := by
  have grows := step.grows
  have listed := (Move.ask step).listed settled.listed
  have now := Nat.le_refl k
  cases step with
  | quiet step => exact settled.same grows listed now step.still.results step.still.reached
  | literal found kind _ _ known =>
    refine settled.hold grows listed now found rfl rfl (.inl ⟨⟨_, kind⟩, ?_⟩)
    exact grows.introduces (settled.listed.announces_literal known).introduces
  | compute found due _ _ _ computes =>
    have other := computes.not_constant
    refine settled.hold grows listed now found rfl rfl (.inr ⟨other, due.ready, fun _ => ?_⟩)
    exact due.held.resolve_left fun ⟨l, kind⟩ => other l kind
  | @chain p root data base links indices type found due _ _ path links =>
    exact settled.reach grows listed found rfl rfl
      (.inr ⟨path.isChain found links, due.ready, due.accessed⟩)

theorem Asks.settled (steps : Asks True d k bound e e') (settled : e.Settled d k) : e'.Settled d k :=
  keeps_along (fun step => step.settled) steps settled

section Visible

variable (late : e.Grows final) (listed : e.Listed)

include late listed

theorem visible_type {ty : Ty} (known : e.IsType ty id) : final.Visible d k e id :=
  .inl (late.introduces (listed.introduces known))

theorem visible_literal {literal : Literal} (known : e.IsLiteral literal id) :
    final.Visible d k e id :=
  .inl (late.introduces (listed.announces_literal known).introduces)

omit late listed in
/-- When a value is held from now on, its id is all that comes into sight. -/
theorem visible_hold {id' : Id} (visible : final.Visible d k e' id')
    (found : d.graph.find? h = some n) (results : e'.results = e.results.insert h.slot id)
    (reached : e'.reached = e.reached) : final.Visible d k e id' ∨ id' = id := by
  rcases visible with known | ⟨h', n', found', held, available⟩ | place
  · exact .inl (.inl known)
  · rcases holds_insert found found' results held with before | ⟨_, rfl⟩
    · exact .inl (.inr (.inl ⟨h', n', found', before, available⟩))
    · exact .inr rfl
  · rw [reached] at place
    exact .inl (.inr (.inr place))

omit listed in
theorem visible_root (settled : e.Settled d k) (found : d.places.find? p = some data)
    (root : data.origin = .root) (reached : p ∈ e.reached) : final.Visible d k e data.id := by
  rcases settled.places p data found reached with ⟨_, known⟩ | ⟨chain, _⟩
  · exact .inl (late.introduces known)
  · simp [PlaceData.isChain, root] at chain

end Visible

variable (sound : d.Sound True) (within : k ≤ d.trace.size)

include sound within

theorem Ask.proceeds (step : Ask True d k bound e e') (settled : e.Settled d k)
    (late : e'.Grows final) :
    Proceeds (final.Visible d k e) (final.Visible d k e') e e' := by
  have listed := settled.listed
  have soon := step.grows.trans late
  cases step with
  | quiet step =>
    refine proceeds_same step.still.body fun id visible => ?_
    simp only [Visible, Holds, step.still.results, step.still.reached] at visible
    exact visible
  | @literal h n literal id found kind _ _ known =>
    refine proceeds_same rfl fun id' visible => ?_
    rcases visible_hold (e := e) visible found rfl rfl with before | rfl
    · exact before
    · exact visible_literal soon listed known
  | @compute h n type i found due _ _ typed computes =>
    refine proceeds_push rfl computes.plain (fun id used => ?_) ?_
    · rcases computes.sources id used with rfl | ⟨o, argument, held⟩ | ⟨literal, known⟩
      · exact visible_type soon listed typed
      · obtain ⟨v, known⟩ := Option.isSome_iff_exists.mp (Draft.live_argument argument)
        have due' := computes.argument_due sound within found due argument known
        exact .inr (.inl ⟨o, v, known, held, due'.available trivial⟩)
      · exact visible_literal soon listed known
    · intro id visible
      rcases visible_hold (e := e) visible found rfl rfl with before | rfl
      · exact .inl before
      · exact .inr computes.result
  | @chain p root data base links indices type found due _ _ path _ rootReached rootFound typed walks =>
    refine proceeds_push rfl rfl (fun id used => ?_) ?_
    · rcases List.mem_cons.mp used with rfl | rest
      · exact visible_type soon listed typed
      · rcases List.mem_cons.mp rest with rfl | index
        · obtain ⟨base', rootFound', isRoot⟩ := path.ends
          obtain rfl := Option.mem_unique rootFound rootFound'
          exact visible_root soon settled rootFound isRoot rootReached
        · obtain ⟨link, member, indexes⟩ := related_left walks.flip index
          cases link with
          | member => exact visible_literal soon listed indexes
          | index value =>
            obtain ⟨v, known⟩ := Option.isSome_iff_exists.mp indexes.2
            have due' := (sound.index_due within path found due.ready due.available member known).1
            exact .inr (.inl ⟨value, v, known, indexes.1, due'.available trivial⟩)
    · rintro id (known | value | ⟨p', data', found', member, rfl, available⟩)
      · exact .inl (.inl known)
      · exact .inl (.inr (.inl value))
      · rcases List.mem_cons.mp member with rfl | before
        · obtain rfl := Option.mem_unique found found'
          exact .inr rfl
        · exact .inl (.inr (.inr ⟨p', data', found', before, rfl, available⟩))

theorem Asks.proceeds (steps : Asks True d k bound e e')
    (settled : e.Settled d k) (late : e'.Grows final) :
    Proceeds (final.Visible d k e) (final.Visible d k e') e e' := by
  induction steps with
  | refl => exact proceeds_same rfl fun _ => id
  | tail steps step ih =>
    exact (ih (step.grows.trans late)).trans (step.proceeds sound within
      (Asks.settled steps settled) late)

end Ask

/-- The states of a compilation before each event, from the first to the last. -/
structure Run (d : Draft) (final : Emission) (states : Nat → Emission) : Prop where
  turns : ∀ k < d.trace.size, (states k).Ready d k ∧ Replays True d k (states k) (states (k + 1))
  begins : (states 0).Settled d 0
  ends : (states d.trace.size).Grows final

section Run

variable {d : Draft} {k : Nat} {e e' final : Emission} {states : Nat → Emission}

theorem Stored.settled (stored : Stored True d k p h e e') (settled : e.Settled d k) :
    e'.Settled d k := by
  obtain ⟨n, data, x, e₁, _, _, steps, _, _, rfl⟩ := stored
  have settled₁ := steps.settled settled
  have grows := grows_push e₁ (.store data.id x)
  exact settled₁.same grows (settled₁.listed.same grows rfl rfl) (Nat.le_refl k) rfl rfl

theorem Settled.mark (settled : e.Settled d k) : (e.mark k).Settled d k :=
  settled.same (grows_mark e k) (settled.listed.same (grows_mark e k) rfl rfl) (Nat.le_refl k) rfl rfl

theorem Settled.boundary (settled : e.Settled d k) (b : Boundary) (fresh : Nat)
    (group : List Instruction) :
    Settled d k
      { e.advance b with nextId := e.nextId + fresh, body := e.body ++ group.toArray } :=
  have grows := grows_boundary e b fresh group
  settled.same grows (settled.listed.same grows rfl rfl) (Nat.le_refl k) rfl rfl

theorem Settled.next (settled : e.Settled d k) : e.Settled d (k + 1) :=
  settled.same (.refl e) settled.listed (Nat.le_succ k) rfl rfl

theorem Replays.settled (sound : d.Sound True) (replays : Replays True d k e e')
    (ready : e.Ready d k) (settled : e.Settled d k) : e'.Settled d (k + 1) := by
  have marked := settled.mark
  cases replays with
  | released => exact marked.next
  | @load p h lastStore n data type e₁ recorded found known steps reached typed =>
    obtain ⟨kind, free⟩ := (steps.ready ready.mark).unloaded sound recorded found
    have settled₁ := steps.settled marked
    refine settled₁.hold (grows_hold free _) ?_ (Nat.le_succ k) found rfl rfl
      (.inr ⟨by simp [kind], by simp [Node.ready, kind], by simp [kind, NodeKind.isComputed]⟩)
    exact settled₁.listed.same (grows_hold free _) rfl rfl
  | store recorded stored => exact (stored.settled marked).next
  | @boundary b fresh group e₁ recorded steps =>
    exact ((steps.settled marked).boundary b fresh group).next

variable (sound : d.Sound True) (run : Run d final states)

include sound run

theorem Run.grows (before : i ≤ j) (within : j ≤ d.trace.size) : (states i).Grows (states j) := by
  induction before with
  | refl => exact .refl _
  | @step j _ ih =>
    obtain ⟨ready, replays⟩ := run.turns j within
    exact (ih (Nat.le_of_succ_le within)).trans (replays.grows sound ready)

theorem Run.late (within : i ≤ d.trace.size) : (states i).Grows final :=
  (run.grows sound within (Nat.le_refl _)).trans run.ends

theorem Run.settled (within : i ≤ d.trace.size) : (states i).Settled d i := by
  induction i with
  | zero => exact run.begins
  | succ i ih =>
    obtain ⟨ready, replays⟩ := run.turns i within
    exact replays.settled sound ready (ih (Nat.le_of_succ_le within))

omit sound in
/-- After a block was opened, all that could be needed is written. -/
theorem Run.hoisted {scope : Scope}
    (recorded : d.trace.action? k = some (.boundary (Trace.opener scope))) :
    (states (k + 1)).Hoisted d k := by
  have opens : (Trace.opener scope).opens = true := by cases scope <;> rfl
  have replays := (run.turns k (Trace.action?_lt recorded)).2
  generalize states (k + 1) = after at replays
  cases replays with
  | released recorded' | load recorded' | store recorded' => simp [recorded] at recorded'
  | @boundary b fresh group e₁ recorded' _ hoisted =>
    obtain rfl := Action.boundary.inj (Option.mem_unique recorded recorded')
    have hoisted := hoisted opens
    exact ⟨hoisted.values, hoisted.chains⟩

/-- What is in scope after a boundary was in scope when the blocks that are then open went on, and it
was held then. -/
theorem Run.back (resumes : d.trace.Resumes j k) (within : k < d.trace.size)
    (settled : (states (k + 1)).Settled d k) (visible : final.Visible d (k + 1) (states (k + 1)) id)
    : final.Visible d j (states (j + 1)) id := by
  obtain ⟨scope, recorded⟩ := resumes.opener
  have bound := Trace.action?_lt recorded
  have hoisted := run.hoisted recorded
  have grows := run.grows sound (Nat.succ_le_succ resumes.before) within
  have soon := run.grows sound (Nat.le_succ j) bound
  have ready := (run.turns j bound).1
  -- A point that is passed before, and whose region is open after the boundary.
  have back : ∀ {position : Position}, d.Passed position → position.event ≤ k →
      d.trace.OpenAt position.region (k + 1) →
      position.event ≤ j ∧ d.trace.OpenAt position.region j ∧
        d.trace.dominates position j = true := by
    intro position passed before opened
    rw [passed.2] at opened
    obtain ⟨earlier, opened⟩ := resumes.back position.event before opened
    rw [← passed.2] at opened
    exact ⟨earlier, opened, (sound.flow.trace.dominates_iff bound).mpr ⟨earlier, opened⟩⟩
  rcases visible with known | ⟨h, n, found, held, available⟩ |
    ⟨p, data, found, reached, rfl, available⟩
  · exact .inl known
  · rcases settled.values h n id found held with ⟨_, known⟩ | ⟨other, passed, used⟩
    · exact .inl ((run.late sound within).introduces known)
    have same : ((states (j + 1)).results.find? h.slot).isSome → (states (j + 1)).Holds h id := by
      intro known
      obtain ⟨id', known⟩ := Option.isSome_iff_exists.mp known
      rw [Holds, grows.results _ _ known, Option.some.injEq] at held
      rwa [Holds, ← held]
    have input : ∀ slot, n.kind = .input slot → final.Visible d j (states (j + 1)) id := by
      intro slot kind
      have known := soon.result (ready.inputs h n slot found kind)
      exact .inr (.inl ⟨h, n, found, same known, .inr (.inl ⟨slot, kind⟩)⟩)
    rcases available with ⟨literal, kind⟩ | ⟨slot, kind⟩ | opened
    · exact absurd kind (other literal)
    · exact input slot kind
    have node := sound.nodes h n found
    have computed : n.ready = n.position.event → n.kind.isLoad = false → 0 < n.refs →
        final.Visible d j (states (j + 1)) id := by
      intro atonce notLoad held'
      obtain ⟨_, opened, dominates⟩ := back node.passed (atonce ▸ passed) opened
      have known := hoisted.values h n found held' notLoad dominates
      exact .inr (.inl ⟨h, n, found, same known, .inr (.inr opened)⟩)
    cases kind : n.kind with
    | constant literal => exact absurd kind (other literal)
    | input slot => exact input slot kind
    | load event =>
      obtain ⟨position, p, lastStore, loaded⟩ := node.load event kind
      have before : n.position.event ≤ k := by
        simp only [Node.ready, kind] at passed
        omega
      obtain ⟨earlier, opened, _⟩ := back node.passed before opened
      -- The event that opened the block is no load.
      have apart : event ≠ j := by
        rintro rfl
        simp [recorded] at loaded
      have known := soon.result (ready.loads h n event found kind (by omega))
      exact .inr (.inl ⟨h, n, found, same known, .inr (.inr opened)⟩)
    | _ =>
      apply computed
      · simp [Node.ready, kind]
      · simp [kind, NodeKind.isLoad]
      · exact used (by simp [kind, NodeKind.isComputed])
  · rcases settled.places p data found reached with ⟨_, known⟩ | ⟨chain, passed, accessed⟩
    · exact .inl ((run.late sound within).introduces known)
    rcases available with root | opened
    · simp [PlaceData.isChain, root] at chain
    obtain ⟨_, opened, dominates⟩ := back (sound.places p data found).passed passed opened
    have known := hoisted.chains p data found chain accessed dominates
    exact .inr (.inr ⟨p, data, found, known, rfl, .inr opened⟩)

omit sound run in
theorem visible_same {k' : Nat} (same : d.trace.framesAt k' = d.trace.framesAt k)
    (visible : final.Visible d k' e id) : final.Visible d k e id := by
  simpa only [Visible, Node.Available, PlaceData.Available, Trace.OpenAt, same] using visible

omit run in
/-- A value that is in scope is stored at a location that is in scope. -/
theorem Stored.proceeds (stored : Stored True d k p h e e') (within : k ≤ d.trace.size)
    (settled : e.Settled d k) (late : e'.Grows final)
    (place : ∀ data, d.places.find? p = some data → data.Available d.trace k)
    (value : ∀ n, d.graph.find? h = some n → n.Available d.trace k) :
    Proceeds (final.Visible d k e) (final.Visible d k e') e e' := by
  obtain ⟨n, data, x, e₁, live, found, steps, held, reached, rfl⟩ := stored
  have late₁ := (grows_push e₁ _).trans late
  refine (steps.proceeds sound within settled late₁).trans
    (proceeds_push rfl rfl (fun id used => ?_) fun id visible => .inl visible)
  simp only [Instruction.uses, List.mem_cons, List.not_mem_nil, or_false] at used
  rcases used with rfl | rfl
  · exact .inr (.inr ⟨p, data, found, reached, rfl, place data found⟩)
  · exact .inr (.inl ⟨h, n, live, held, value n live⟩)

omit run in
/-- The group of a boundary uses what is declared, and the condition of the selection that it opens. -/
theorem Group.resolved {fresh : Nat} {group : List Instruction} (written : e.Group d b fresh group)
    (settled : e.Settled d k) {known : Id → Prop} (declared : ∀ id, e.Introduces id → known id)
    (chosen : ∀ index s id, b = .ifBegin index → d.selections[index]? = some s →
      e.Held d s.condition id → known id) : Ordered known (group.filter fun i => !i.isLabel) := by
  have type : ∀ {ty id}, e.IsType ty id → known id := fun known =>
    declared _ (settled.listed.introduces known)
  have literal : ∀ {index : Nat} {l : CountedLoop}, d.loops[index]? = some l →
      ∀ h ∈ [l.first, l.last, l.step], ∀ {id}, e.Held d h id → known id := by
    rintro index l found h member id ⟨held, live⟩
    obtain ⟨n, live⟩ := Option.isSome_iff_exists.mp live
    obtain ⟨literal, kind⟩ := ((sound.lists.loops index l found).bounds h member).2 n live
    rcases settled.values h n id live held with ⟨_, introduced⟩ | ⟨other, _⟩
    · exact declared id introduced
    · exact absurd kind (other literal)
  have counter : ∀ {index : Nat} {l : CountedLoop} {data : PlaceData}, d.loops[index]? = some l →
      d.places.find? l.counter = some data → l.counter ∈ e.reached → known data.id := by
    intro index l data found place reached
    obtain ⟨data', place', root⟩ := (sound.lists.loops index l found).counter
    obtain rfl := Option.mem_unique place place'
    rcases settled.places _ data place reached with ⟨_, introduced⟩ | ⟨chain, _⟩
    · exact declared _ introduced
    · simp [PlaceData.isChain, root] at chain
  cases written with
  | ifBegin found held =>
    have condition := chosen _ _ _ rfl found held
    simp [Selection.beginGroup, Instruction.isLabel, Ordered, Instruction.uses, condition]
  | ifElse | ifEnd | leave | next =>
    simp [Selection.elseGroup, Selection.endGroup, CountedLoop.leaveGroup, CountedLoop.nextGroup,
      Instruction.isLabel, Ordered, Instruction.uses]
  | @loopBegin index l data int bool first last found place reached isInt isBool first' last' =>
    simp [CountedLoop.beginGroup, Instruction.isLabel, Ordered, Instruction.uses,
      Instruction.result?, type isInt, type isBool, counter found place reached,
      literal found l.first (by simp) first', literal found l.last (by simp) last']
  | @loopEnd index l data int step found place reached isInt held =>
    simp [CountedLoop.endGroup, Instruction.isLabel, Ordered, Instruction.uses,
      Instruction.result?, type isInt, counter found place reached,
      literal found l.step (by simp) held]

omit sound run in
theorem proceeds_mark : Proceeds (final.Visible d k e) (final.Visible d k (e.mark k)) e (e.mark k) :=
  proceeds_same rfl fun _ => id

omit run in
theorem Replays.proceeds (replays : Replays True d k e e') (ready : e.Ready d k)
    (settled : e.Settled d k) (late : e'.Grows final) (within : k ≤ d.trace.size) {action : Action}
    (recorded : d.trace.action? k = some action) (quiet : ∀ b, action ≠ .boundary b) :
    Proceeds (final.Visible d k e) (final.Visible d k e') e e' := by
  have marked := settled.mark
  cases replays with
  | released => exact proceeds_mark
  | @load p h lastStore n data type e₁ loaded found known steps reached typed =>
    obtain ⟨kind, free⟩ := (steps.ready ready.mark).unloaded sound loaded found
    have late₁ := (grows_hold free _).trans late
    obtain ⟨⟨data', touches⟩, _⟩ := sound.actions k _ loaded
    obtain rfl := Option.mem_unique known touches.known
    refine (proceeds_mark.trans (steps.proceeds sound within marked late₁)).trans
      (proceeds_push rfl rfl (fun id used => ?_) fun id visible =>
        (visible_hold (e := e₁) visible found rfl rfl).imp_right fun same => congrArg some same.symm)
    simp only [Instruction.uses, List.mem_cons, List.not_mem_nil, or_false] at used
    rcases used with rfl | rfl
    · exact visible_type late₁ (steps.settled marked).listed typed
    · exact .inr (.inr ⟨p, data, known, reached, rfl, touches.available trivial⟩)
  | @store p h _ stores stored =>
    obtain ⟨⟨data', touches⟩, uses⟩ := sound.actions k _ stores
    refine proceeds_mark.trans (stored.proceeds sound within marked late (fun data found => ?_)
      fun n live => uses.available n live trivial)
    obtain rfl := Option.mem_unique found touches.known
    exact touches.available trivial
  | @boundary b _ _ _ recorded' =>
    exact absurd (Option.mem_unique recorded recorded') (quiet b)

omit run in
/-- A boundary writes straight code and its group. The group uses what is declared and, if it opens a
block, what is held then. -/
theorem Replays.bounds (replays : Replays True d k e e') (settled : e.Settled d k)
    (late : e'.Grows final) (within : k ≤ d.trace.size)
    (recorded : d.trace.action? k = some (.boundary b)) :
    ∃ asked group fresh e₁, e'.body.toList = e.body.toList ++ (asked ++ group) ∧
      (∀ i ∈ asked, i.isPlain = true) ∧ Ordered (final.Visible d k e) asked ∧
      (∀ id, final.Visible d k e' id → Gained (final.Visible d k e) asked id) ∧
      Group e₁ d b fresh group ∧ e'.Settled d k ∧
      ∀ known : Id → Prop, (∀ id, final.Introduces id → known id) →
        (b.opens = true → ∀ id, final.Visible d k e' id → known id) →
        Ordered known (group.filter fun i => !i.isLabel) := by
  have marked := settled.mark
  cases replays with
  | released recorded' | load recorded' | store recorded' => simp [recorded] at recorded'
  | @boundary b' fresh group e₁ recorded' steps _ written =>
    obtain rfl := Action.boundary.inj (Option.mem_unique recorded recorded')
    have grows := grows_boundary e₁ b fresh group
    have late₁ := grows.trans late
    have settled₁ := steps.settled marked
    obtain ⟨asked, before, plain, ordered, gained⟩ :=
      proceeds_mark.trans (steps.proceeds sound within marked late₁)
    refine ⟨asked, group, fresh, e₁, ?_, plain, ordered, gained, written,
      settled₁.boundary b fresh group, fun known declared opened => ?_⟩
    · rw [Array.toList_append, before, List.append_assoc]
    · refine written.resolved sound settled₁
        (fun id introduced => declared id (late₁.introduces introduced)) ?_
      rintro index s id rfl found ⟨held, live⟩
      obtain ⟨n, live⟩ := Option.isSome_iff_exists.mp live
      obtain ⟨s', found', uses⟩ := sound.actions k _ recorded
      obtain rfl := Option.mem_unique found found'
      exact opened rfl id (.inr (.inl ⟨s.condition, n, live, held, uses.available n live trivial⟩))

/-- What is in scope after a boundary was in scope, and held, when its block was opened. -/
theorem Run.kept (recorded : d.trace.action? k = some (.boundary b))
    (settled : (states (k + 1)).Settled d k) (visible : final.Visible d (k + 1) (states (k + 1)) id)
    : final.Visible d (d.trace.origin k b) (states (d.trace.origin k b + 1)) id := by
  have within := Trace.action?_lt recorded
  have opened : ∀ scope, b = Trace.opener scope → final.Visible d k (states (k + 1)) id := by
    rintro scope rfl
    exact run.back sound (Trace.resumes_opened recorded) within settled visible
  have closed : b.opens = false → b.isJump = false → (∀ f ∈ Trace.nextFrames (d.trace.framesAt k) k
      (.boundary b), f.region = k ∨ f ∈ (d.trace.framesAt k).tail) →
      final.Visible d (d.trace.origin k b) (states (d.trace.origin k b + 1)) id := by
    intro inside lasting next
    obtain ⟨f, rest, stacked, _⟩ := sound.innermost recorded inside lasting
    have start : d.trace.origin k b = f.start := by simp [Trace.origin, stacked, inside, lasting]
    rw [start]
    refine run.back sound (Trace.resumes_closed stacked ?_) within settled visible
    rw [Trace.framesAt_succ recorded]
    rw [stacked, List.tail_cons] at next
    rwa [stacked]
  have jumped : b.isJump = true → d.trace.framesAt (k + 1) = d.trace.framesAt k →
      final.Visible d (d.trace.origin k b) (states (d.trace.origin k b + 1)) id := by
    intro jumps same
    have here : d.trace.origin k b = k := by simp [Trace.origin, jumps]
    rw [here]
    exact visible_same same visible
  cases b with
  | ifBegin s => exact opened (.selection s) rfl
  | loopBegin l => exact opened (.loop l) rfl
  | ifElse s =>
    refine closed rfl rfl fun f member => ?_
    cases stacked : d.trace.framesAt k with
    | nil => simp [Trace.nextFrames, stacked] at member
    | cons g rest =>
      rw [stacked] at member
      rcases List.mem_cons.mp member with rfl | inside
      · exact .inl rfl
      · exact .inr inside
  | ifEnd s | loopEnd l => exact closed rfl rfl fun f member => .inr member
  | leave | next => exact jumped rfl (Trace.framesAt_succ recorded)

theorem Run.piece (within : k < d.trace.size) :
    ∃ action chunk, d.trace.action? k = some action ∧
      d.Piece (fun k => final.Visible d k (states k)) (fun k => final.Visible d k (states (k + 1)))
        k action chunk ∧
      (states (k + 1)).body.toList = (states k).body.toList ++ chunk := by
  obtain ⟨action, recorded⟩ := Trace.action?_isSome within
  obtain ⟨ready, replays⟩ := run.turns k within
  have late := run.late sound within
  have bound := Nat.le_of_lt within
  have settled := run.settled sound bound
  cases action with
  | load | store =>
    obtain ⟨code, written, plain, ordered, gained⟩ :=
      replays.proceeds sound ready settled late bound recorded (by simp)
    refine ⟨_, code, recorded, .plain (by simp) plain ordered fun id visible => ?_, written⟩
    exact gained id (visible_same (Trace.framesAt_succ recorded) visible)
  | boundary b =>
    obtain ⟨asked, group, fresh, e₁, written, plain, ordered, gained, isGroup, settled', uses⟩ :=
      replays.bounds sound settled late bound recorded
    refine ⟨.boundary b, asked ++ group, recorded, .boundary plain ordered gained isGroup
      (uses _ (fun id introduced => .inl introduced) fun opens id visible => ?_)
      (fun id visible => run.kept sound recorded settled' visible), written⟩
    have here : d.trace.origin k b = k := by simp [Trace.origin, opens]
    rwa [here]

end Run

section Whole

variable {d : Draft} {k : Nat} {e e' final : Emission}

theorem Prepare.settled (step : Prepare d e e') (settled : e.Settled d k) : e'.Settled d k := by
  have grows := step.grows
  have listed := step.listed settled.listed
  have now := Nat.le_refl k
  cases step with
  | quiet step => exact settled.same grows listed now step.still.results step.still.reached
  | shared found root =>
    exact settled.reach grows listed found rfl rfl
      (.inl ⟨root, _, .inl Array.mem_push_self, rfl⟩)
  | own found root =>
    exact settled.reach grows listed found rfl rfl
      (.inl ⟨root, _, .inr Array.mem_push_self, rfl⟩)

section Inputs

variable {i : Input} (sound : d.Sound True) (loads : Loads d i e e') (member : i ∈ d.inputs.toList)

include sound loads member

theorem Loads.settled (settled : e.Settled d 0) : e'.Settled d 0 := by
  have grows := loads.grows
  have listed := Loads.keeps (P := fun _ e => e.Listed) (k := 0) (fun move => move.listed) sound member
    loads settled.listed
  obtain ⟨n, data, type, e₁, found, _, steps, _, _, _, rfl⟩ := loads
  obtain ⟨slot, stored⟩ := List.mem_iff_getElem?.mp member
  have kind := (sound.lists.inputs slot i (by simpa using stored)).kind n found
  exact settled.hold grows listed (Nat.le_refl 0) found
    (by rw [steps.still.results]) steps.still.reached
    (.inr ⟨by simp [kind], by simp [Node.ready, kind], by simp [kind, NodeKind.isComputed]⟩)

theorem Loads.proceeds (settled : e.Settled d 0) (late : e'.Grows final) :
    Proceeds (final.Visible d 0 e) (final.Visible d 0 e') e e' := by
  have soon := loads.grows.trans late
  obtain ⟨n, data, type, e₁, found, known, steps, reached, typed, free, rfl⟩ := loads
  obtain ⟨slot, stored⟩ := List.mem_iff_getElem?.mp member
  obtain ⟨data', known', root⟩ := (sound.lists.inputs slot i (by simpa using stored)).place
  obtain rfl := Option.mem_unique known known'
  have late₁ := (grows_hold free _).trans late
  refine proceeds_push (i := .load type n.id data.id) (by rw [steps.still.body]) rfl
    (fun id used => ?_) fun id visible => (visible_hold visible found
      (by rw [steps.still.results]) steps.still.reached).imp_right fun same => congrArg some same.symm
  simp only [Instruction.uses, List.mem_cons, List.not_mem_nil, or_false] at used
  rcases used with rfl | rfl
  · exact .inl (late₁.introduces ((steps.listed settled.listed).introduces typed))
  · rw [steps.still.reached] at reached
    exact visible_root soon settled known root reached

end Inputs

/-- Straight code that is written step by step, where every state leads on to the last one. -/
theorem proceeds_chain {α : Type} {R : α → Emission → Emission → Prop} {I : Emission → Prop}
    {items : List α} (chain : Chain R items e e')
    (grows : ∀ a ∈ items, ∀ e e', R a e e' → e.Grows e')
    (keeps : ∀ a ∈ items, ∀ e e', R a e e' → I e → I e')
    (step : ∀ a ∈ items, ∀ e e', R a e e' → I e → e'.Grows final →
      Proceeds (final.Visible d k e) (final.Visible d k e') e e')
    (start : I e) (late : e'.Grows final) :
    e.Grows final ∧ Proceeds (final.Visible d k e) (final.Visible d k e') e e' := by
  induction chain with
  | nil => exact ⟨late, proceeds_same rfl fun _ => id⟩
  | @cons a rest e e₁ e' first _ ih =>
    have here := List.mem_cons_self (a := a) (l := rest)
    have later : ∀ {b}, b ∈ rest → b ∈ a :: rest := List.mem_cons_of_mem a
    obtain ⟨soon, proceeds⟩ := ih (fun b member => grows b (later member))
      (fun b member => keeps b (later member)) (fun b member => step b (later member))
      (keeps a here e e₁ first start) late
    exact ⟨(grows a here e e₁ first).trans soon, (step a here e e₁ first start soon).trans proceeds⟩

/-- The values that are stored at the end are in scope there. -/
theorem available_finally (sound : d.Sound True) {store : Place × Handle}
    (member : store ∈ Emit.finalStores d) :
    (∀ data, d.places.find? store.1 = some data → data.Available d.trace d.trace.size) ∧
      ∀ n, d.graph.find? store.2 = some n → n.Available d.trace d.trace.size := by
  obtain ⟨⟨data, known, root⟩, written⟩ : d.Rooted store.1 ∧ d.Written True store.2 := by
    simp only [Emit.finalStores, List.mem_append, List.mem_map, Array.mem_toList_iff] at member
    rcases member with ⟨o, member, rfl⟩ | ⟨o, member, rfl⟩
    · exact sound.lists.outputs o member
    · exact sound.lists.builtins o member
  constructor
  · intro data' found
    obtain rfl := Option.mem_unique known found
    exact .inl root
  · intro n found
    exact (written.outermost n found trivial).imp_right fun other => other.imp_right .inl

/-- The body of a function is that of an outline in which all that is used is known. -/
theorem Compiled.resolved (proper : d.Proper True) {ids : EntryIds} {interface : List Id}
    {stages : Stages} (compiled : Compiled True d ids interface e stages) :
    ∃ o : Outline, e.body.toList = o.code ∧ o.Plain ∧ o.Jumps none ∧ o.Resolves e.Introduces := by
  obtain ⟨prepared, loaded, replayed⟩ := stages
  have sound := proper.sound
  have unbegun := compiled.unbegun
  have unheld : ∀ {h id}, ¬prepared.Holds h id := by
    intro h id held
    rw [Holds, unbegun.results] at held
    simp [start] at held
  have opening : prepared.Settled d 0 := by
    obtain ⟨begun, enters, steps⟩ := compiled.prepare
    refine keeps_along (fun step => step.settled) steps
      ⟨enters.listed proper.listed, fun _ _ _ _ held => ?_, fun p _ _ member => ?_⟩
    · rw [Holds, enters.still.results] at held
      simp [start] at held
    · rw [enters.still.reached] at member
      simp [start] at member
  have settled := compiled.inputs.keeps
    (fun _ member _ _ loads => loads.settled sound member) opening
  obtain ⟨states, rfl, rfl, turns⟩ := compiled.events.states
  have ends : (states d.trace.size).Grows e :=
    compiled.stores.keeps (fun _ _ _ _ stored before => before.trans stored.2.grows) (.refl _)
  have run : Run d e states := ⟨turns, settled, ends⟩
  obtain ⟨soon, loads, first, plain, ordered, gained⟩ := proceeds_chain compiled.inputs
    (I := fun e => e.Settled d 0) (fun _ _ _ _ loads => loads.grows)
    (fun _ member _ _ loads => loads.settled sound member)
    (fun _ member _ _ loads => loads.proceeds sound member) opening
    (run.late sound (Nat.zero_le _))
  have within := Nat.le_refl d.trace.size
  obtain ⟨_, stores, last, plain', ordered', _⟩ := proceeds_chain compiled.stores
    (I := fun e => e.Settled d d.trace.size) (fun _ _ _ _ stored => stored.2.grows)
    (fun _ _ _ _ stored => stored.2.settled)
    (fun _ member _ _ stored kept late => stored.2.proceeds sound within kept late
      (available_finally sound member).1 (available_finally sound member).2)
    (run.settled sound within) (.refl e)
  let body : Nat → List Instruction := fun k => (states k).body.toList
  have pieces : ∀ k < d.trace.size, ∃ action chunk, d.trace.action? k = some action ∧
      d.Piece (fun k => e.Visible d k (states k)) (fun k => e.Visible d k (states (k + 1))) k action
        chunk ∧ body (k + 1) = body k ++ chunk := fun k bound => run.piece sound bound
  obtain ⟨o, code, _, fits⟩ := Draft.exists_outline sound proper.orderly compiled.scopes pieces plain'
    ordered'
  have empty : prepared.body.toList = [] := by
    rw [unbegun.body]
    rfl
  -- Before the inputs are loaded, nothing is known but what is declared.
  have introduced : ∀ id, e.Visible d 0 prepared id → e.Introduces id := by
    rintro id (introduced | ⟨h, n, _, held, _⟩ | ⟨p, data, found, reached, rfl, _⟩)
    · exact introduced
    · exact absurd held unheld
    · obtain ⟨data', found', root⟩ := compiled.roots p reached
      obtain rfl := Option.mem_unique found found'
      rcases opening.places p data found reached with ⟨_, introduced⟩ | ⟨chain, _⟩
      · exact soon.introduces introduced
      · simp [PlaceData.isChain, root] at chain
  refine ⟨.straight loads o, ?_, ⟨plain, fits.plain⟩, fits.jumps, ?_⟩
  · have begins : body 0 = loads := by rw [← List.nil_append loads, ← empty, ← first]
    rw [last, code, begins]
    rfl
  · refine ⟨ordered.mono introduced, fits.resolves.mono fun id visible => ?_⟩
    exact (gained id visible).mono introduced

end Whole

end Emission

end ShaderIR
