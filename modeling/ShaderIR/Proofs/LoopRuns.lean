import ShaderIR.Proofs.Stepping

/-! Executing a loop. A loop stores its first value, and its header is entered from there and from
the increment. Every round tests the counter and goes through the body, which can be left at its end,
for the increment or for the code after the loop. So the rounds follow the counter, which is below
the end of the range whenever it is incremented. -/
namespace ShaderIR

variable {n : Int32} {visited : List (Configuration S)} {code : List Instruction}

/-- A machine that can count: integers have 32 bits, addition wraps around and the comparison is
signed, and a variable holds what was stored to it. -/
structure Semantics.Counts (S : Semantics) (truth : S.Value → Bool) : Prop where
  add : ∀ a b : Int32,
    S.compute .iAdd [S.literal (.int a), S.literal (.int b)] = S.literal (.int (a + b))
  less : ∀ a b : Int32,
    truth (S.compute .sLessThan [S.literal (.int a), S.literal (.int b)]) = decide (a < b)
  readBack : ∀ memory root v, S.read (S.write memory root [] v) root [] = v

/-- A number that is below another one can be incremented. -/
theorem toInt_add_one {high : Int32} (below : n < high) : (n + 1).toInt = n.toInt + 1 := by
  have bound := high.toInt_lt
  have least := n.le_toInt
  rw [Int32.lt_iff_toInt_lt] at below
  rw [Int32.toInt_add]
  exact Int.bmod_eq_of_le (by simp; omega) (by simp; omega)

def Configuration.cell {S : Semantics} (c : Configuration S) (id : Id) : S.Value :=
  S.read c.state.memory id []

namespace ShaderModule

variable {S : Semantics} (m : ShaderModule) (truth : S.Value → Bool) (l : CountedLoop)

def InBody (code : List Instruction) : Prop :=
  code <:+ m.after l.body ∧ .label l.increment :: m.after l.increment <:+ code ∧
    code ≠ .label l.increment :: m.after l.increment

/-- A pass through the body that comes to an end and leaves the counter as it was. -/
def Completes (counter : Id) (c : Configuration S) : Prop :=
  ∃ visited c', m.Run truth c visited c' ∧ (∀ v ∈ visited, m.InBody l v.code) ∧
    ¬ m.InBody l c'.code ∧ c'.cell counter = c.cell counter

def Breaks (c : Configuration S) : Prop :=
  ∃ visited c', m.Run truth c visited c' ∧ (∀ v ∈ visited, m.InBody l v.code) ∧
    c'.code = m.after l.post

def entries (visited : List (Configuration S)) : List (Configuration S) :=
  visited.filter fun v => decide (v.code = m.after l.body)

/-- An execution of a loop, from a point on, that has a number of rounds ahead. The body is gone
through for one value of the counter after the other, until all rounds are done or a pass leaves the
loop; it goes on after the loop. No increment overflows. -/
structure Rounds (counter : Id) (low : Int32) (total : Nat) (c : Configuration S)
    (visited : List (Configuration S)) (c' : Configuration S) : Prop where
  run : m.Run truth c visited c'
  post : c'.code = m.after l.post
  counters : ∀ (k : Nat) v, (m.entries l visited)[k]? = some v →
    ∃ n : Int32, n.toInt = low.toInt + k ∧ v.cell counter = S.literal (.int n)
  within : (m.entries l visited).length ≤ total
  stops : (m.entries l visited).length = total ∧ (∀ v ∈ m.entries l visited, ¬ m.Breaks truth l v) ∨
    ∃ before last, m.entries l visited = before ++ [last] ∧
      (∀ v ∈ before, ¬ m.Breaks truth l v) ∧ m.Breaks truth l last
  increments : ∀ v ∈ visited, v.code = m.after l.increment →
    ∃ n : Int32, v.cell counter = S.literal (.int n) ∧ (n + 1).toInt = n.toInt + 1

end ShaderModule

section Rounds

variable {S : Semantics} {m : ShaderModule} {truth : S.Value → Bool} {l : CountedLoop}

theorem ShaderModule.entries_append (visited more : List (Configuration S)) :
    m.entries l (visited ++ more) = m.entries l visited ++ m.entries l more :=
  List.filter_append ..

theorem ShaderModule.entries_nil (apart : ∀ v ∈ visited, v.code ≠ m.after l.body) :
    m.entries l visited = [] :=
  List.filter_eq_nil_iff.mpr fun v member => by simp [apart v member]

variable {counter : Id} {total : Nat} {c c₁ c₂ c₃ c' : Configuration S}
  {visited passed advanced more : List (Configuration S)}

theorem ShaderModule.Rounds.before (rounds : m.Rounds truth l counter n total c₁ more c')
    (run : m.Run truth c visited c₁)
    (apart : ∀ v ∈ visited, v.code ≠ m.after l.body ∧ v.code ≠ m.after l.increment) :
    m.Rounds truth l counter n total c (visited ++ more) c' := by
  have same : m.entries l (visited ++ more) = m.entries l more := by
    rw [entries_append, entries_nil fun v member => (apart v member).1, List.nil_append]
  refine ⟨run.append rounds.run, rounds.post, ?_, ?_, ?_, fun v member code => ?_⟩
  · rw [same]
    exact rounds.counters
  · rw [same]
    exact rounds.within
  · rw [same]
    exact rounds.stops
  · rcases List.mem_append.mp member with early | late
    · exact absurd code (apart v early).2
    · exact rounds.increments v late code

theorem ShaderModule.rounds_none (run : m.Run truth c visited c') (post : c'.code = m.after l.post)
    (apart : ∀ v ∈ visited, v.code ≠ m.after l.body ∧ v.code ≠ m.after l.increment) :
    m.Rounds truth l counter n 0 c visited c' := by
  have none : m.entries l visited = [] := entries_nil fun v member => (apart v member).1
  refine ⟨run, post, by simp [none], by simp [none], .inl (by simp [none]), ?_⟩
  exact fun v member code => absurd code (apart v member).2

section Pass

variable (pass : m.Run truth c₁ passed c₂) (once : m.entries l passed = [c₁])
  (inside : ∀ v ∈ passed, v.code ≠ m.after l.increment)
  (counter₁ : c₁.cell counter = S.literal (.int n))

include pass once inside counter₁

theorem ShaderModule.rounds_break (post : c₂.code = m.after l.post) (breaks : m.Breaks truth l c₁) :
    m.Rounds truth l counter n (total + 1) c₁ passed c₂ := by
  refine ⟨pass, post, fun k v found => ?_, by simp [once], .inr ⟨[], c₁, once, by simp, breaks⟩, ?_⟩
  · rw [once] at found
    cases k with
    | zero =>
      obtain rfl := Option.some.inj found
      exact ⟨n, by simp, counter₁⟩
    | succ => contradiction
  · exact fun v member same => absurd same (inside v member)

/-- A round that goes on with the increment, and those that follow it. -/
theorem ShaderModule.Rounds.next (rounds : m.Rounds truth l counter (n + 1) total c₃ more c')
    (goesOn : ¬ m.Breaks truth l c₁) (kept : c₂.cell counter = c₁.cell counter)
    (advance : m.Run truth c₂ (c₂ :: advanced) c₃)
    (apart : ∀ v ∈ c₂ :: advanced, v.code ≠ m.after l.body)
    (short : ∀ v ∈ advanced, v.code ≠ m.after l.increment) (sum : (n + 1).toInt = n.toInt + 1) :
    m.Rounds truth l counter n (total + 1) c₁ (passed ++ (c₂ :: advanced ++ more)) c' := by
  have first : m.entries l (passed ++ (c₂ :: advanced ++ more)) = c₁ :: m.entries l more := by
    rw [entries_append, once, entries_append, entries_nil apart]
    rfl
  refine ⟨pass.append (advance.append rounds.run), rounds.post, fun k v found => ?_, ?_, ?_, ?_⟩
  · rw [first] at found
    cases k with
    | zero =>
      obtain rfl := Option.some.inj found
      exact ⟨n, by simp, counter₁⟩
    | succ k =>
      obtain ⟨n', same, held⟩ := rounds.counters k v found
      exact ⟨n', by omega, held⟩
  · rw [first, List.length_cons]
    exact Nat.succ_le_succ rounds.within
  · rw [first]
    rcases rounds.stops with ⟨all, none⟩ | ⟨before, last, same, none, breaks⟩
    · exact .inl ⟨by rw [List.length_cons, all], List.forall_mem_cons.mpr ⟨goesOn, none⟩⟩
    · exact .inr ⟨c₁ :: before, last, by rw [same]; rfl, List.forall_mem_cons.mpr ⟨goesOn, none⟩,
        breaks⟩
  · intro v member code
    rcases List.mem_append.mp member with early | late
    · exact absurd code (inside v early)
    · rcases List.mem_append.mp late with increment | later
      · rcases List.mem_cons.mp increment with rfl | between
        · exact ⟨n, kept.trans counter₁, sum⟩
        · exact absurd code (short v between)
      · exact rounds.increments v later code

end Pass

end Rounds

/-- Where a loop stands in a module, and that it is written with the constants of a range. Its body
can be left for the increment and for the code after the loop only. -/
structure LoopSite (m : ShaderModule) (l : CountedLoop) (low high : Int32) where
  front : List Instruction
  opening : LoopIds
  bool : Id
  first : Id
  last : Id
  body : List Instruction
  closing : LoopIds
  step : Id
  back : List Instruction
  code : m.instructions = front ++ (l.beginGroup opening bool first last ++
    (body ++ (l.endGroup closing step ++ back)))
  sequenced : m.Sequenced
  closed : ∀ i ∈ body, ∀ target ∈ i.targets,
    .label target ∈ body ∨ target = l.increment ∨ target = l.post
  counter : closing.counter = opening.counter
  declared : ∃ type storage, .variableDecl type opening.counter storage ∈ m.instructions
  isFirst : m.IsConstant (.int low) first
  isLast : m.IsConstant (.int high) last
  isStep : m.IsConstant (.int 1) step

namespace LoopSite

variable {S : Semantics} {m : ShaderModule} {truth : S.Value → Bool} {l : CountedLoop}
  {low high : Int32} (site : LoopSite m l low high)

def tail : List Instruction := l.endGroup site.closing site.step ++ site.back

def advance : List Instruction :=
  .load site.closing.int site.closing.current site.closing.counter ::
    .compute .iAdd site.closing.int site.closing.computed [site.closing.current, site.step] ::
    .store site.closing.counter site.closing.computed :: .branch l.header :: .label l.post ::
    site.back

def test : List Instruction :=
  .load site.opening.int site.opening.current site.opening.counter ::
    .compute .sLessThan site.bool site.opening.computed [site.opening.current, site.last] ::
    .branchConditional site.opening.computed l.body l.post :: .label l.body ::
    (site.body ++ site.tail)

/-! Where the labels of the loop stand. -/

theorem after_body : m.after l.body = site.body ++ site.tail := by
  have code : m.instructions = (site.front ++ (l.beginGroup site.opening site.bool site.first
      site.last).dropLast) ++ .label l.body :: (site.body ++ site.tail) := by
    rw [site.code]
    simp [CountedLoop.beginGroup, tail]
  exact site.sequenced.after_eq code

theorem after_check : m.after l.check = site.test := by
  have code : m.instructions = (site.front ++ [.store site.opening.counter site.first,
      .branch l.header, .label l.header, .loopMerge l.post l.increment, .branch l.check]) ++
      .label l.check :: site.test := by
    rw [site.code]
    simp [CountedLoop.beginGroup, test, tail]
  exact site.sequenced.after_eq code

theorem after_header : m.after l.header =
    .loopMerge l.post l.increment :: .branch l.check :: .label l.check :: site.test := by
  have code : m.instructions = (site.front ++ [.store site.opening.counter site.first,
      .branch l.header]) ++ .label l.header ::
      (.loopMerge l.post l.increment :: .branch l.check :: .label l.check :: site.test) := by
    rw [site.code]
    simp [CountedLoop.beginGroup, test, tail]
  exact site.sequenced.after_eq code

theorem after_increment : m.after l.increment = site.advance := by
  have code : m.instructions = (site.front ++ (l.beginGroup site.opening site.bool site.first
      site.last ++ (site.body ++ [.branch l.increment]))) ++ .label l.increment :: site.advance := by
    rw [site.code]
    simp [CountedLoop.endGroup, advance]
  exact site.sequenced.after_eq code

theorem after_post : m.after l.post = site.back := by
  have code : m.instructions = (site.front ++ (l.beginGroup site.opening site.bool site.first
      site.last ++ (site.body ++ (l.endGroup site.closing site.step).dropLast))) ++
      .label l.post :: site.back := by
    rw [site.code]
    simp [CountedLoop.endGroup]
  exact site.sequenced.after_eq code

theorem tail_eq : site.tail = .branch l.increment :: .label l.increment :: site.advance := rfl

include site in
/-- The lengths tell the parts of a loop apart. -/
theorem lengths : (m.after l.increment).length < (m.after l.body).length ∧
    (m.after l.post).length < (m.after l.increment).length := by
  rw [site.after_body, site.after_increment, site.after_post, site.tail_eq, advance]
  simp only [List.length_append, List.length_cons]
  omega

include site in
theorem apart_of_length (long : ∀ v ∈ visited, (m.after l.body).length < v.code.length) :
    ∀ v ∈ visited, v.code ≠ m.after l.body ∧ v.code ≠ m.after l.increment := by
  intro v member
  have longer := long v member
  have lengths := site.lengths.1
  constructor
  · intro same
    rw [same] at longer
    omega
  · intro same
    rw [same] at longer
    omega

/-! The body. -/

theorem inBody_iff : m.InBody l code ↔ ∃ rest, rest <:+ site.body ∧ code = rest ++ site.tail := by
  rw [ShaderModule.InBody, site.after_body, site.after_increment]
  constructor
  · rintro ⟨within, before, differs⟩
    rcases suffix_append_cases within with inside | ⟨rest, _, suffix, same⟩
    · rw [tail_eq] at inside
      rcases List.suffix_cons_iff.mp inside with same | later
      · exact ⟨[], List.nil_suffix, same⟩
      · exact absurd (later.eq_of_length (Nat.le_antisymm later.length_le before.length_le)) differs
    · exact ⟨rest, suffix, same⟩
  · rintro ⟨rest, suffix, rfl⟩
    refine ⟨?_, ?_, fun same => ?_⟩
    · obtain ⟨front, whole⟩ := suffix
      exact ⟨front, by rw [← List.append_assoc, whole]⟩
    · exact ⟨rest ++ [.branch l.increment], by simp [tail_eq]⟩
    · have lengths := congrArg List.length same
      rw [tail_eq] at lengths
      simp only [List.length_append, List.length_cons] at lengths
      omega

include site in
/-- A step from the body stays in it and does not begin it again, or leaves it for the increment or
for the code after the loop. -/
theorem step_body {c c' : Configuration S} (inside : m.InBody l c.code)
    (stepped : m.step truth c = some c') :
    m.InBody l c'.code ∧ c'.code ≠ m.after l.body ∨ c'.code = m.after l.increment ∨
      c'.code = m.after l.post := by
  -- What follows an instruction of the body is in the body and shorter than it.
  have shorter : ∀ {i rest}, (i :: rest) <:+ site.body →
      m.InBody l (rest ++ site.tail) ∧ rest ++ site.tail ≠ m.after l.body := by
    intro i rest suffix
    refine ⟨site.inBody_iff.mpr ⟨rest, (List.suffix_cons i rest).trans suffix, rfl⟩, fun same => ?_⟩
    rw [site.after_body, List.append_cancel_right_eq] at same
    have bound := suffix.length_le
    rw [same, List.length_cons] at bound
    omega
  obtain ⟨rest, suffix, code⟩ := site.inBody_iff.mp inside
  obtain ⟨i, others, code', moves⟩ := ShaderModule.step_cases stepped
  cases rest with
  | nil =>
    rw [code, List.nil_append, tail_eq] at code'
    obtain ⟨rfl, rfl⟩ := List.cons.inj code'
    rcases moves with ⟨target, member, rfl⟩ | ⟨plain, _⟩
    · obtain rfl := List.mem_singleton.mp member
      exact .inr (.inl rfl)
    · contradiction
  | cons j rest =>
    rw [code, List.cons_append] at code'
    obtain ⟨rfl, rfl⟩ := List.cons.inj code'
    rcases moves with ⟨target, member, rfl⟩ | ⟨_, state, rfl, _⟩
    · rcases site.closed j (suffix.subset List.mem_cons_self) target member with own | rfl | rfl
      · obtain ⟨before, later, split⟩ := List.append_of_mem own
        have after : m.after target = later ++ site.tail := by
          have code : m.instructions = (site.front ++ (l.beginGroup site.opening site.bool site.first
              site.last ++ before)) ++ .label target :: (later ++ site.tail) := by
            rw [site.code, split]
            simp [tail]
          exact site.sequenced.after_eq code
        refine .inl ?_
        rw [after]
        exact shorter ⟨before, split.symm⟩
      · exact .inr (.inl rfl)
      · exact .inr (.inr rfl)
    · exact .inl (shorter suffix)

theorem length_inBody (inside : m.InBody l code) : (m.after l.increment).length < code.length := by
  have bound := inside.2.1.length_le
  rw [List.length_cons] at bound
  exact bound

include site in
/-- The code after the increment and the code after the loop are not in the body. -/
theorem not_inBody (left : code = m.after l.increment ∨ code = m.after l.post) :
    ¬ m.InBody l code := by
  intro inside
  have long := length_inBody inside
  have shorter := site.lengths.2
  rcases left with rfl | rfl <;> omega

include site in
/-- Where a pass through the body ends. -/
theorem leave_body {c c' : Configuration S} {visited : List (Configuration S)}
    (run : m.Run truth c visited c') (inside : m.InBody l c.code)
    (within : ∀ v ∈ visited, m.InBody l v.code) (left : ¬ m.InBody l c'.code) :
    ∃ more, visited = c :: more ∧ (∀ v ∈ more, v.code ≠ m.after l.body) ∧
      (c'.code = m.after l.increment ∨ c'.code = m.after l.post) := by
  induction run with
  | stay => exact absurd inside left
  | @step c c₁ c' visited first rest ih =>
    have within' : ∀ v ∈ visited, m.InBody l v.code :=
      fun v member => within v (List.mem_cons_of_mem c member)
    refine ⟨visited, rfl, ?_⟩
    rcases site.step_body inside first with ⟨inside', differs⟩ | leaves
    · obtain ⟨more, rfl, others, ends⟩ := ih inside' within' left
      exact ⟨List.forall_mem_cons.mpr ⟨differs, others⟩, ends⟩
    · cases rest with
      | stay => exact ⟨by simp, leaves⟩
      | step => exact absurd (within' c₁ List.mem_cons_self) (site.not_inBody leaves)

include site in
/-- A pass through the body begins it once and does not increment the counter. It breaks or goes on
with the increment, and not both. -/
theorem pass {counter : Id} {c : Configuration S} (code : c.code = m.after l.body)
    (completes : m.Completes truth l counter c) :
    ∃ visited c', m.Run truth c visited c' ∧ m.entries l visited = [c] ∧
      (∀ v ∈ visited, v.code ≠ m.after l.increment) ∧ c'.cell counter = c.cell counter ∧
      (c'.code = m.after l.increment ∧ ¬ m.Breaks truth l c ∨
        c'.code = m.after l.post ∧ m.Breaks truth l c) := by
  obtain ⟨visited, c', run, within, left, kept⟩ := completes
  have inside : m.InBody l c.code := by
    rw [code, site.after_body]
    exact site.inBody_iff.mpr ⟨_, List.suffix_refl _, rfl⟩
  obtain ⟨more, rfl, others, ends⟩ := site.leave_body run inside within left
  refine ⟨c :: more, c', run, ?_, fun v member same => ?_, kept, ?_⟩
  · rw [← ShaderModule.entries_nil others, ShaderModule.entries,
      List.filter_cons_of_pos (by simp [code])]
    rfl
  · have long := length_inBody (within v member)
    rw [same] at long
    omega
  · refine ends.imp (fun next => ⟨next, ?_⟩) fun leaves => ⟨leaves, _, c', run, within, leaves⟩
    rintro ⟨visited', c'', run', within', leaves⟩
    have same := run.unique run' within left within' (site.not_inBody (.inr leaves))
    have lengths := site.lengths.2
    rw [← leaves, ← same, next] at lengths
    omega

/-! The test and the increment. -/

def start : List Instruction :=
  l.beginGroup site.opening site.bool site.first site.last ++ (site.body ++ site.tail)

/-- No constant is declared in a loop or after it. -/
theorem constant_held {c : Configuration S} (steady : m.Steady c) (within : c.code <:+ site.start)
    {literal : Literal} {id : Id} (constant : m.IsConstant literal id) :
    c.state.values id = S.literal literal := by
  obtain ⟨type, member⟩ := constant
  refine (steady.constants type id literal member).resolve_left fun inside => ?_
  have branches : (.branch l.header :: site.start.drop 2) <:+ m.instructions :=
    ⟨site.front ++ [.store site.opening.counter site.first], by
      rw [site.code]
      simp [start, CountedLoop.beginGroup, tail]⟩
  have later := within.subset inside
  rw [show site.start = .store site.opening.counter site.first :: .branch l.header ::
    site.start.drop 2 from rfl] at later
  simp only [List.mem_cons, reduceCtorEq, false_or] at later
  exact site.sequenced.declared _ _ branches (by simp [Instruction.targets]) type id literal later

theorem pointer {c : Configuration S} (steady : m.Steady c) :
    c.state.pointers site.opening.counter = { root := site.opening.counter, indices := [] } := by
  obtain ⟨type, storage, member⟩ := site.declared
  exact steady.pointers type _ storage member

section Counting

variable {memory : S.Memory}

theorem combine_run {operation : Operation} {type type' current computed constant : Id}
    {rest : List Instruction} {state : Machine S} {literal : Literal}
    (reaches : m.Reaches truth memory ⟨.load type current site.opening.counter ::
      .compute operation type' computed [current, constant] :: rest, state⟩)
    (within : (.load type current site.opening.counter ::
      .compute operation type' computed [current, constant] :: rest) <:+ site.start)
    (isConstant : m.IsConstant literal constant) :
    ∃ loaded state', m.Run truth
        ⟨.load type current site.opening.counter ::
          .compute operation type' computed [current, constant] :: rest, state⟩
        [⟨.load type current site.opening.counter ::
            .compute operation type' computed [current, constant] :: rest, state⟩,
          ⟨.compute operation type' computed [current, constant] :: rest, loaded⟩]
        ⟨rest, state'⟩ ∧
      state'.memory = state.memory ∧ state'.pointers = state.pointers ∧
      state'.values computed = S.compute operation
        [S.read state.memory site.opening.counter [], S.literal literal] := by
  have pointer := site.pointer (reaches.steady site.sequenced)
  let loaded := state.hold current (S.readAt state.memory (state.pointers site.opening.counter))
  have load : m.Run truth ⟨.load type current site.opening.counter ::
      .compute operation type' computed [current, constant] :: rest, state⟩ _
      ⟨.compute operation type' computed [current, constant] :: rest, loaded⟩ := .single rfl
  have held : loaded.values constant = S.literal literal :=
    site.constant_held ((reaches.run load).steady site.sequenced)
      ((List.suffix_cons _ _).trans within) isConstant
  have own : loaded.values current = S.read state.memory site.opening.counter [] := by
    have value : loaded.values current =
        S.readAt state.memory (state.pointers site.opening.counter) := if_pos rfl
    rw [value, show state.pointers site.opening.counter = _ from pointer]
    rfl
  refine ⟨loaded, _, load.append (.single rfl), rfl, rfl, ?_⟩
  rw [← own, ← held]
  exact if_pos rfl

variable (counts : S.Counts truth) {c : Configuration S} (reaches : m.Reaches truth memory c)

include counts reaches

theorem start_run (code : c.code = site.start) :
    ∃ visited c', m.Run truth c visited c' ∧ c'.code = m.after l.header ∧
      c'.cell site.opening.counter = S.literal (.int low) ∧
      ∀ v ∈ visited, v.code ≠ m.after l.body ∧ v.code ≠ m.after l.increment := by
  have steady := reaches.steady site.sequenced
  have pointer := site.pointer steady
  have first := site.constant_held steady (code ▸ List.suffix_refl _) site.isFirst
  obtain ⟨_, state⟩ := c
  obtain rfl := code
  refine ⟨_, _, .step rfl (.step rfl (.stay _)), rfl, ?_, ?_⟩
  · simp only [Configuration.cell, Semantics.writeAt] at pointer first ⊢
    rw [pointer, first]
    exact counts.readBack _ _ _
  · refine site.apart_of_length ?_
    rw [site.after_body]
    simp [start, CountedLoop.beginGroup]
    omega

/-- The test goes on with the body if the counter is below the end of the range. -/
theorem test_run (code : c.code = m.after l.header)
    (counter : c.cell site.opening.counter = S.literal (.int n)) :
    ∃ visited c', m.Run truth c visited c' ∧
      c'.code = m.after (if n < high then l.body else l.post) ∧
      c'.cell site.opening.counter = S.literal (.int n) ∧
      ∀ v ∈ visited, v.code ≠ m.after l.body ∧ v.code ≠ m.after l.increment := by
  obtain ⟨_, state⟩ := c
  obtain rfl := code
  have merge : m.step truth ⟨m.after l.header, state⟩ =
      some ⟨.branch l.check :: .label l.check :: site.test, state⟩ := by
    rw [site.after_header]
    rfl
  have jump : m.step truth ⟨.branch l.check :: .label l.check :: site.test, state⟩ =
      some ⟨site.test, state⟩ := by
    rw [← site.after_check]
    rfl
  have enter := ShaderModule.Run.step merge (.single jump)
  obtain ⟨loaded, state', run, memory', _, value⟩ :=
    site.combine_run (reaches.run enter) ⟨site.start.take 6, rfl⟩ site.isLast
  have tested : truth (state'.values site.opening.computed) = decide (n < high) := by
    rw [value, show S.read state.memory site.opening.counter [] = _ from counter, counts.less]
  have branch : m.step truth ⟨.branchConditional site.opening.computed l.body l.post ::
      .label l.body :: (site.body ++ site.tail), state'⟩ =
      some ⟨m.after (if n < high then l.body else l.post), state'⟩ := by
    simp only [ShaderModule.step, tested, decide_eq_true_eq]
  refine ⟨_, _, (enter.append run).append (.single branch), rfl, ?_, ?_⟩
  · rw [Configuration.cell, memory']
    exact counter
  · refine site.apart_of_length ?_
    rw [site.after_header, site.after_body]
    simp [test]
    omega

/-- The increment adds one to the counter and goes on with the test. -/
theorem advance_run (code : c.code = m.after l.increment)
    (counter : c.cell site.opening.counter = S.literal (.int n)) :
    ∃ visited c', m.Run truth c (c :: visited) c' ∧ c'.code = m.after l.header ∧
      c'.cell site.opening.counter = S.literal (.int (n + 1)) ∧
      ∀ v ∈ visited, v.code.length < (m.after l.increment).length := by
  obtain ⟨_, state⟩ := c
  rw [site.after_increment, advance, site.counter] at code
  obtain rfl := code
  have within : site.advance <:+ site.start :=
    ⟨l.beginGroup site.opening site.bool site.first site.last ++
      (site.body ++ [.branch l.increment, .label l.increment]), by simp [start, tail_eq]⟩
  rw [advance, site.counter] at within
  obtain ⟨loaded, state', run, memory', pointers, value⟩ :=
    site.combine_run reaches within site.isStep
  have pointer := site.pointer (reaches.steady site.sequenced)
  have sum : state'.values site.closing.computed = S.literal (.int (n + 1)) := by
    rw [value, show S.read state.memory site.opening.counter [] = _ from counter, counts.add]
  refine ⟨_, _, run.append (.step rfl (.single rfl)), rfl, ?_, ?_⟩
  · rw [Configuration.cell, Semantics.writeAt, pointers,
      show state.pointers site.opening.counter = _ from pointer, sum]
    exact counts.readBack _ _ _
  · rw [site.after_increment, advance]
    simp

omit reaches in
/-- All rounds, from the test on. The number of rounds that are ahead goes down by one with every
increment. -/
theorem rounds (completes : ∀ c, m.Reaches truth memory c → c.code = m.after l.body →
      m.Completes truth l site.opening.counter c) {total : Nat} {c : Configuration S}
    (reaches : m.Reaches truth memory c) (code : c.code = m.after l.header)
    (counter : c.cell site.opening.counter = S.literal (.int n))
    (ahead : total = (high.toInt - n.toInt).toNat) :
    ∃ visited c', m.Rounds truth l site.opening.counter n total c visited c' := by
  induction total generalizing n c with
  | zero =>
    obtain ⟨visited, c', run, onwards, _, apart⟩ := site.test_run counts reaches code counter
    have above : ¬ n < high := by
      rw [Int32.lt_iff_toInt_lt]
      omega
    rw [if_neg above] at onwards
    exact ⟨visited, c', ShaderModule.rounds_none run onwards apart⟩
  | succ total ih =>
    obtain ⟨visited, c₁, run, onwards, counter₁, apart⟩ := site.test_run counts reaches code counter
    have below : n < high := by
      rw [Int32.lt_iff_toInt_lt]
      omega
    rw [if_pos below] at onwards
    have reaches₁ := reaches.run run
    obtain ⟨passed, c₂, pass, once, inside, kept, ends⟩ :=
      site.pass onwards (completes c₁ reaches₁ onwards)
    rcases ends with ⟨atIncrement, goesOn⟩ | ⟨atPost, breaks⟩
    · have reaches₂ := reaches₁.run pass
      obtain ⟨advanced, c₃, advance, atHeader, counter₃, short⟩ :=
        site.advance_run counts reaches₂ atIncrement (kept.trans counter₁)
      -- The counter is below the end of the range, so it does not overflow.
      have sum := toInt_add_one below
      obtain ⟨more, c', rest⟩ := ih (reaches₂.run advance) atHeader counter₃ (by omega)
      have lengths := site.lengths.1
      have next := rest.next pass once inside counter₁ goesOn kept advance ?_ ?_ sum
      · exact ⟨_, c', next.before run apart⟩
      · refine List.forall_mem_cons.mpr ⟨fun same => ?_, fun v member same => ?_⟩
        · rw [← same, atIncrement] at lengths
          omega
        · have shorter := short v member
          rw [same] at shorter
          omega
      · intro v member same
        have shorter := short v member
        rw [same] at shorter
        omega
    · exact ⟨visited ++ passed, c₂,
        (ShaderModule.rounds_break pass once inside counter₁ atPost breaks).before run apart⟩

theorem loop_run (completes : ∀ c, m.Reaches truth memory c → c.code = m.after l.body →
      m.Completes truth l site.opening.counter c) (code : c.code = site.start) :
    ∃ visited c', m.Rounds truth l site.opening.counter low (high.toInt - low.toInt).toNat c
      visited c' := by
  obtain ⟨visited, c₁, run, atHeader, counter, apart⟩ := site.start_run counts reaches code
  obtain ⟨more, c', rounds⟩ :=
    site.rounds counts completes (reaches.run run) atHeader counter rfl
  exact ⟨_, c', rounds.before run apart⟩

end Counting

end LoopSite

end ShaderIR
