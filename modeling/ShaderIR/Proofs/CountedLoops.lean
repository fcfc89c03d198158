import ShaderIR.Proofs.LoopRuns
import ShaderIR.Proofs.Pointers

/-! Loops of compiled modules. A loop that was opened is written around its body, which is nested code
that can be left for the increment and for the code after the loop only. It counts through the range
that its bounds stand for. -/
namespace ShaderIR

variable {target : Id} {m : ShaderModule} {l : CountedLoop} {d : Draft} {c : Call}

namespace Instruction

variable {i : Instruction}

theorem targets_of_isPlain (plain : i.isPlain = true) : i.targets = [] := by
  cases i <;> first | rfl | contradiction

theorem refers_of_targets (leads : target ∈ i.targets) : target ∈ i.refers := by
  cases i <;> first | exact leads | contradiction

end Instruction

/-- What an outline leads to is inside of it, or it is where the loop around it is left or goes on. -/
theorem Outline.targets_inside {o : Outline} {around : Option LoopLabels} (plain : o.Plain)
    (jumps : o.Jumps around) {i : Instruction} (member : i ∈ o.code) (leads : target ∈ i.targets) :
    .label target ∈ o.code ∨ around.map LoopLabels.post = some target ∨
      around.map LoopLabels.increment = some target := by
  -- The label before the outline is arbitrary, so it can be another one.
  have parts := o.instructions_layout (target + 1) [] none
  have listed : i ∈ (o.layout (target + 1) [] none).flatMap Block.instructions := by
    rw [parts]
    simp [member]
  obtain ⟨b, inLayout, inBlock⟩ := List.mem_flatMap.mp listed
  have ends : i ∈ b.exit.instructions := by
    rcases List.mem_cons.mp inBlock with rfl | inBlock
    · contradiction
    · refine (List.mem_append.mp inBlock).resolve_left fun inCode => ?_
      have straight := plain_layout (target + 1) [] none plain (by simp) b inLayout i inCode
      rw [Instruction.targets_of_isPlain straight] at leads
      contradiction
  have refers := b.exit.refers_instructions i ends target (Instruction.refers_of_targets leads)
  rcases closed_layout (target + 1) [] none jumps b inLayout target refers with
    ⟨b', inLayout', rfl, _⟩ | outside
  · have label : .label b'.label ∈ (o.layout (b'.label + 1) [] none).flatMap Block.instructions :=
      List.mem_flatMap.mpr ⟨b', inLayout', List.mem_cons_self⟩
    rw [parts] at label
    exact .inl (by simpa [Exit.onward, Exit.instructions] using label)
  · exact .inr (outside.resolve_left (by simp))

/-- A loop is closed at one place only. -/
theorem ShaderModule.Sequenced.endGroup_unique (sequenced : m.Sequenced) {ids ids' : LoopIds}
    {step step' : Id} {back back' : List Instruction}
    (suffix : l.endGroup ids step ++ back <:+ m.instructions)
    (suffix' : l.endGroup ids' step' ++ back' <:+ m.instructions) : ids = ids' ∧ step = step' := by
  have after : ∀ {ids step back}, l.endGroup ids step ++ back <:+ m.instructions →
      m.after l.increment = (l.endGroup ids step).drop 2 ++ back := by
    rintro ids step back ⟨front, code⟩
    have split : m.instructions = (front ++ [.branch l.increment]) ++ .label l.increment ::
        ((l.endGroup ids step).drop 2 ++ back) := by
      rw [← code]
      simp [CountedLoop.endGroup]
    exact sequenced.after_eq split
  have same := (after suffix).symm.trans (after suffix')
  obtain ⟨int, counter, current, computed⟩ := ids
  obtain ⟨int', counter', current', computed'⟩ := ids'
  simp [CountedLoop.endGroup] at same
  simp [same]

namespace Emission

section Site

variable {strict : Prop} {ids : EntryIds} {interface : List Id}
  {e : Emission} {stages : Stages} (proper : d.Proper strict)
  (parts : Compiled strict d ids interface e stages)
  (put : m.instructions = e.instructions d ids interface)

include put in
theorem instructions_split {before code after : List Instruction}
    (split : e.body.toList = before ++ (code ++ after)) :
    ∃ front, m.instructions = front ++ (code ++ (after ++ [.returnVoid, .functionEnd])) := by
  refine ⟨e.preamble d ids interface ++ (.functionBegin ids.void ids.function ids.signature ::
    .label ids.label :: (e.locals.toList ++ before)), ?_⟩
  rw [put, instructions_eq, split]
  simp

include proper parts put

variable {index : Nat} {range : Int32 × Int32} {counter : PlaceData}
  (stored : d.loops[index]? = some l) (counts : d.Counts l range)
  (place : d.places.find? l.counter = some counter)

include stored counts place

/-- A loop begins with the first value of its range and the test against the last one. Its body is
nested code, at whose end it is closed. -/
theorem Compiled.loop_begun : ∃ front opening bool first last, ∃ o : Outline, ∃ closing step back,
    m.instructions = front ++ (l.beginGroup opening bool first last ++
        (o.code ++ (l.endGroup closing step ++ back))) ∧
      opening.counter = counter.id ∧ m.IsConstant (.int range.1) first ∧
      m.IsConstant (.int range.2) last ∧ o.Plain ∧ o.Jumps (some l.loopLabels) := by
  obtain ⟨⟨k, recorded⟩, _⟩ := parts.loop_recorded proper stored
  obtain ⟨e₁, _, _, before, _, _, group, grows, split, remains⟩ :=
    parts.boundary_written proper recorded
  rw [Trace.framesAt_succ recorded] at remains
  cases group with
  | loopBegin stored' place' _ _ _ first last =>
    obtain rfl := Option.mem_unique stored stored'
    obtain rfl := Option.mem_unique place place'
    cases remains with
    | branch scope | branches scope => contradiction
    | body scope stored' fits =>
      obtain rfl := Scope.loop.inj scope
      obtain rfl := Option.mem_unique stored stored'
      rw [Draft.around_loop rfl stored] at fits
      obtain ⟨front, code⟩ := instructions_split put split
      rw [List.append_assoc, List.append_assoc] at code
      exact ⟨front, _, _, _, _, _, _, _, _, code, rfl,
        parts.held_constant proper put grows first counts.first,
        parts.held_constant proper put grows last counts.last, fits.plain, fits.jumps⟩

theorem Compiled.loop_closed : ∃ closing step back,
    l.endGroup closing step ++ back <:+ m.instructions ∧ closing.counter = counter.id ∧
      m.IsConstant (.int 1) step := by
  obtain ⟨_, _, recorded⟩ := parts.loop_recorded proper stored
  obtain ⟨e₁, _, _, before, _, _, group, grows, split, _⟩ := parts.boundary_written proper recorded
  cases group with
  | loopEnd stored' place' _ _ step =>
    obtain rfl := Option.mem_unique stored stored'
    obtain rfl := Option.mem_unique place place'
    obtain ⟨front, code⟩ := instructions_split put split
    exact ⟨_, _, _, ⟨front, code.symm⟩, rfl, parts.held_constant proper put grows step counts.step⟩

omit counts place in
/-- Every loop that was opened has its place in the module. -/
theorem Compiled.loopSite (lasting : d.Lasting) (compiled : d.compilation.result = .ok m)
    {low high : Int32} (counts : d.Counts l (low, high)) :
    ∃ counter, d.places.find? l.counter = some counter ∧
      ∃ site : LoopSite m l low high, site.opening.counter = counter.id := by
  obtain ⟨counter, place, origin⟩ := (proper.sound.lists.loops index l stored).counter
  have sequenced := parts.sequenced proper put
  obtain ⟨front, opening, bool, first, last, o, closing, step, back, code, same, isFirst, isLast,
    plain, jumps⟩ := parts.loop_begun proper put stored counts place
  obtain ⟨closing', step', back', suffix', same', isStep⟩ :=
    parts.loop_closed proper put stored counts place
  have suffix : l.endGroup closing step ++ back <:+ m.instructions :=
    ⟨front ++ (l.beginGroup opening bool first last ++ o.code), by rw [code]; simp⟩
  obtain ⟨rfl, rfl⟩ := sequenced.endGroup_unique suffix suffix'
  obtain ⟨type, declared⟩ := lasting.declared compiled place origin
  let site : LoopSite m l low high := {
    front, opening, bool, first, last, body := o.code, closing, step, back, code, sequenced
    closed := fun i member target leads => by
      rcases Outline.targets_inside plain jumps member leads with inside | outside | outside
      · exact .inl inside
      · exact .inr (.inr (Option.some.inj outside).symm)
      · exact .inr (.inl (Option.some.inj outside).symm)
    counter := same'.trans same.symm
    declared := ⟨type, counter.storage, same ▸ declared⟩
    isFirst, isLast, isStep }
  exact ⟨counter, place, site, same⟩

end Site

end Emission

def Call.bounds? : Call → Option (Int32 × Int32)
  | .beginFor start stop => some (start, stop)
  | _ => none

namespace Draft

/-- The range that bounds stand for. Bounds in order stay as they are. If they are not in order, an
end of zero is taken for the start; other bounds stay, with nothing between them. -/
def rangeOf (bounds : Int32 × Int32) : Int32 × Int32 :=
  if bounds.1 ≤ bounds.2 then bounds
  else if bounds.2 = 0 then (0, bounds.1)
  else bounds

theorem loopRange_eq {strict : Bool} {start stop : Int32} {range : Int32 × Int32}
    (accepted : loopRange strict start stop = .ok range) : range = rangeOf (start, stop) := by
  unfold rangeOf
  unfold loopRange at accepted
  by_cases inOrder : start ≤ stop
  · rw [if_pos inOrder] at accepted ⊢
    exact (Except.ok.inj accepted).symm
  · rw [if_neg inOrder] at accepted ⊢
    cases strict with
    | true => contradiction
    | false =>
      by_cases zero : stop = 0
      · rw [if_neg Bool.false_ne_true, if_pos zero] at accepted
        rw [if_pos zero]
        exact (Except.ok.inj accepted).symm
      · rw [if_neg Bool.false_ne_true, if_neg zero] at accepted
        rw [if_neg zero]
        exact (Except.ok.inj accepted).symm

theorem range?_of_effect {d' : Draft} {reply : Reply} (effect : Effect d c reply d') :
    c.range? d.settings.strictLoopBounds = c.bounds?.map rangeOf := by
  cases effect with
  | beginFor accepted =>
    rw [Call.range?, accepted, loopRange_eq accepted]
    rfl
  | _ => rfl

/-- Every loop that a program opens goes through the range that its bounds stand for. -/
theorem range?_of_accepted (issuing : d.Issuing) {calls : List Call}
    (building : ∀ c ∈ calls, c.restarts = false) (member : c ∈ d.accepted calls) :
    c.range? d.settings.strictLoopBounds = c.bounds?.map rangeOf := by
  induction calls generalizing d with
  | nil => contradiction
  | cons first rest ih =>
    obtain ⟨here, later⟩ := List.forall_mem_cons.mp building
    rcases List.mem_append.mp member with now | after
    · obtain ⟨answered, same⟩ := List.mem_ite_nil_right.mp now
      obtain rfl := List.mem_singleton.mp same
      rcases Call.building_cases issuing.valid here with
        ⟨_, _, effect⟩ | ⟨⟨_, refused⟩, _⟩ | ⟨_, _, rfl, _⟩
      · exact range?_of_effect effect
      · rw [refused] at answered
        contradiction
      · rfl
    · rw [← leaves_settings issuing.valid here]
      exact ih (issuing.leaves first).1 later after

theorem ranges_eq (issuing : d.Issuing) {program : List Call}
    (building : ∀ c ∈ program, c.restarts = false) :
    d.ranges program = ((d.accepted program).filterMap Call.bounds?).map rangeOf := by
  rw [ranges, List.map_filterMap]
  exact List.filterMap_congr fun c => range?_of_accepted issuing building

end Draft

def ShaderModule.Opens (m : ShaderModule) (l : CountedLoop) (counter : Id)
    (code : List Instruction) : Prop :=
  code <:+ m.instructions ∧ ∃ ids bool low high, ids.counter = counter ∧
    code = l.beginGroup ids bool low high ++ m.after l.body

namespace Draft

/-- A loop runs its body once for each value of its range, in order, until the body leaves it. Take
any machine that can count and any execution in which the passes through the body end and leave the
counter as it was. There is nowhere to go from the body but to the increment and to the code after
the loop. Whenever the execution comes to the loop, it goes through the body for one value of the
counter after the other, from the start of the range up to its end or to the first pass that leaves
the loop, and then it goes on after the loop. No increment overflows. -/
theorem loops_count_in_order (settings : Settings) (slots : List Ty) {first : Draft}
    (begun : withInputs settings slots = .ok () first) {program : List Call}
    (building : ∀ c ∈ program, c.restarts = false) {m : ShaderModule}
    (compiled : (first.after program).compilation.result = .ok m) {index : Nat}
    {bounds : Int32 × Int32}
    (opened : ((first.accepted program).filterMap Call.bounds?)[index]? = some bounds) :
    ∃ l counter code, (first.after program).loops[index]? = some l ∧
      (first.after program).places.find? l.counter = some counter ∧ m.Opens l counter.id code ∧
      ∀ (S : Semantics) (truth : S.Value → Bool), S.Counts truth → ∀ memory : S.Memory,
        (∀ c c', m.InBody l c.code → m.step truth c = some c' → m.InBody l c'.code ∨
          c'.code = m.after l.increment ∨ c'.code = m.after l.post) ∧
        ((∀ c, m.Reaches truth memory c → c.code = m.after l.body →
            m.Completes truth l counter.id c) →
          ∀ c, m.Reaches truth memory c → c.code = code → ∃ visited c',
            m.Rounds truth l counter.id (rangeOf bounds).1
              ((rangeOf bounds).2.toInt - (rangeOf bounds).1.toInt).toNat c visited c') := by
  obtain rfl := eq_of_withInputs begun
  have proper := (proper_begun False settings slots).after building
  have lasting := lasting_after settings slots program
  have issuing := issuing_begun settings slots
  have ranged := (ranged_begun settings slots).after building issuing
  obtain ⟨e, _, ids, interface, _, parts, put, _⟩ := proper.assemble_ok compiled
  have found : (((new settings).withSlots slots).ranges program)[index]? =
      some ((rangeOf bounds).1, (rangeOf bounds).2) := by
    rw [ranges_eq issuing building, List.getElem?_map, opened]
    rfl
  obtain ⟨l, stored, counts⟩ := ranged.loop found
  obtain ⟨counter, place, site, same⟩ :=
    parts.loopSite proper put stored lasting compiled counts
  have opens : m.Opens l counter.id site.start := by
    refine ⟨⟨site.front, site.code.symm⟩, site.opening, site.bool, site.first, site.last, same, ?_⟩
    rw [site.after_body]
    rfl
  refine ⟨l, counter, site.start, stored, place, opens, fun S truth able memory => ⟨?_, ?_⟩⟩
  · exact fun c c' inside stepped => (site.step_body inside stepped).imp_left And.left
  · intro completes c reaches code
    rw [← same] at completes ⊢
    exact site.loop_run able reaches completes code

/-- A loop with exchanged bounds, which is left when its counter is three. -/
def leavesAtThree : List Call :=
  [.beginFor 5 0, .constant (.int 3), .binary .equal ⟨3, 3⟩ ⟨4, 4⟩, .beginIf ⟨5, 5⟩, .breakLoop,
    .endIf, .endFor]

def leavesAtThreeCode : List Instruction :=
  [.capability .shader, .importSet 21 "GLSL.std.450", .memoryModel, .entryPoint .vertex 19 "main" [],
    .typeDecl 17 .void, .typeDecl 18 (.function 17), .typeDecl 22 (.int 32 true),
    .typeDecl 23 (.pointer .function 22), .constant 22 1 (.int 0), .constant 22 2 (.int 5),
    .constant 22 3 (.int 1), .typeDecl 24 .bool, .constant 22 11 (.int 3),
    .functionBegin 17 19 18, .label 20, .variableDecl 23 4 .function, .store 4 1, .branch 5,
    .label 5, .loopMerge 9 8, .branch 6, .label 6, .load 22 25 4,
    .compute .sLessThan 24 26 [25, 2], .branchConditional 26 7 9, .label 7, .load 22 10 4,
    .compute .iEqual 24 12 [10, 11], .selectionMerge 15, .branchConditional 12 13 15, .label 13,
    .branch 9, .label 16, .branch 15, .label 15, .branch 8, .label 8, .load 22 27 4,
    .compute .iAdd 22 28 [27, 3], .store 4 28, .branch 5, .label 9, .returnVoid, .functionEnd]

end Draft

def Semantics.integers : Semantics where
  Value := Int32
  Memory := Id → Int32
  unset := 0
  literal
    | .int n => n
    | _ => 0
  compute
    | .iAdd, [a, b] => a + b
    | .sLessThan, [a, b] => if a < b then 1 else 0
    | .iEqual, [a, b] => if a = b then 1 else 0
    | _, _ => 0
  select condition a b := if condition ≠ 0 then a else b
  construct _ := 0
  extract v _ := v
  extractDynamic v _ := v
  sample v _ _ := v
  read memory root _ := memory root
  write memory root _ v := fun id => if id = root then v else memory id

def Semantics.nonzero : Semantics.integers.Value → Bool := fun v : Int32 => decide (v ≠ 0)

theorem Semantics.integers_counts : Semantics.integers.Counts Semantics.nonzero where
  add _ _ := rfl
  less a b := by
    simp only [integers, nonzero]
    split <;> simp_all
  readBack _ _ _ := if_pos rfl

namespace Draft

theorem leavesAtThree_after (written : m.instructions = leavesAtThreeCode) :
    m.after 7 = leavesAtThreeCode.drop 26 ∧ m.after 8 = leavesAtThreeCode.drop 37 ∧
      m.after 9 = leavesAtThreeCode.drop 42 ∧ m.after 13 = leavesAtThreeCode.drop 31 ∧
      m.after 15 = leavesAtThreeCode.drop 35 := by
  simp only [ShaderModule.after, written]
  decide +kernel

/-- Every pass through the body ends, at three with the code after the loop. -/
theorem leavesAtThree_completes (written : m.instructions = leavesAtThreeCode)
    (labels : l.body = 7 ∧ l.increment = 8) (counter : Id) {c : Configuration .integers}
    (code : c.code = m.after l.body) : m.Completes Semantics.nonzero l counter c := by
  obtain ⟨body, increment, post, accept, merge⟩ := leavesAtThree_after written
  have inBody : ∀ code, m.InBody l code ↔ code <:+ leavesAtThreeCode.drop 26 ∧
      .label 8 :: leavesAtThreeCode.drop 37 <:+ code ∧
      code ≠ .label 8 :: leavesAtThreeCode.drop 37 := by
    intro code
    rw [ShaderModule.InBody, labels.1, labels.2, body, increment]
  obtain ⟨_, state⟩ := c
  rw [labels.1, body] at code
  obtain rfl := code
  obtain ⟨tested, visited, run, within, kept⟩ : ∃ tested visited,
      m.Run Semantics.nonzero ⟨leavesAtThreeCode.drop 26, state⟩ visited
        ⟨leavesAtThreeCode.drop 29, tested⟩ ∧
      (∀ v ∈ visited, m.InBody l v.code) ∧ tested.memory = state.memory := by
    refine ⟨_, _, .step rfl (.step rfl (.step rfl (.stay _))), ?_, rfl⟩
    simp only [List.forall_mem_cons, inBody]
    exact ⟨by decide, by decide, by decide, by simp⟩
  -- Both ways through the selection end with a jump out of the body.
  have ends : ∀ {next last},
      m.step Semantics.nonzero ⟨leavesAtThreeCode.drop 29, tested⟩ = some ⟨next, tested⟩ →
      m.step Semantics.nonzero ⟨next, tested⟩ = some ⟨last, tested⟩ → m.InBody l next →
      ¬ m.InBody l last →
      m.Completes Semantics.nonzero l counter ⟨leavesAtThreeCode.drop 26, state⟩ := by
    intro next last branch jump inside left
    refine ⟨_, _, run.append (.step branch (.single jump)), ?_, left, ?_⟩
    · simp only [List.forall_mem_append, List.forall_mem_cons]
      exact ⟨within, (inBody _).mpr (by decide), inside, by simp⟩
    · rw [Configuration.cell, kept]
      rfl
  have branch : m.step Semantics.nonzero ⟨leavesAtThreeCode.drop 29, tested⟩ =
      some ⟨m.after (if Semantics.nonzero (tested.values 12) then 13 else 15), tested⟩ := rfl
  by_cases three : Semantics.nonzero (tested.values 12) = true
  · rw [if_pos three, accept] at branch
    have leave : m.step Semantics.nonzero ⟨leavesAtThreeCode.drop 31, tested⟩ =
        some ⟨m.after 9, tested⟩ := rfl
    refine ends branch leave ((inBody _).mpr (by decide)) ?_
    rw [inBody, post]
    decide
  · rw [if_neg three, merge] at branch
    have goOn : m.step Semantics.nonzero ⟨leavesAtThreeCode.drop 35, tested⟩ =
        some ⟨m.after 8, tested⟩ := rfl
    refine ends branch goOn ((inBody _).mpr (by decide)) ?_
    rw [inBody, increment]
    decide

theorem leavesAtThree_counts_in_order :
    withInputs { stage := .vertex } [] = .ok () (vertex []) ∧
      (∀ c ∈ leavesAtThree, c.restarts = false) ∧
      ∃ m : ShaderModule, ((vertex []).after leavesAtThree).compilation.result = .ok m ∧
        (((vertex []).accepted leavesAtThree).filterMap Call.bounds?)[0]? = some (5, 0) ∧
        ∃ l counter code, ((vertex []).after
            leavesAtThree).loops[0]? = some l ∧ m.Opens l counter code ∧
          ∀ memory, (∃ c, m.Reaches Semantics.nonzero memory c ∧ c.code = code) ∧
            ∀ c, m.Reaches Semantics.nonzero memory c → c.code = code → ∃ visited c',
              m.Rounds Semantics.nonzero l counter 0 5 c visited c' := by
  have building : ∀ c ∈ leavesAtThree, c.restarts = false := by decide
  have opened : (((vertex []).accepted leavesAtThree).filterMap
      Call.bounds?)[0]? = some (5, 0) := by decide +kernel
  obtain ⟨m, compiled, written⟩ : ∃ m, ((vertex []).after
      leavesAtThree).compilation.result = .ok m ∧ m.instructions = leavesAtThreeCode :=
    exists_of_any (by decide +kernel)
  obtain ⟨l, counter, code, stored, _, opens, runs⟩ :=
    loops_count_in_order { stage := .vertex } [] (withInputs_eq _ _) building compiled opened
  have labels : l.body = 7 ∧ l.increment = 8 := by
    have known : ((vertex []).after leavesAtThree).loops[0]?.map
        (fun l => (l.body, l.increment)) = some (7, 8) := by decide +kernel
    rw [stored] at known
    exact Prod.mk.inj (Option.some.inj known)
  refine ⟨withInputs_eq _ _, building, m, compiled, opened, l, counter.id, code, stored, opens,
    fun memory => ⟨?_, ?_⟩⟩
  · obtain ⟨suffix, _, _, _, _, _, begins⟩ := opens
    have place : code = leavesAtThreeCode.drop 16 := by
      rw [labels.1, (leavesAtThree_after written).1] at begins
      rw [List.suffix_iff_eq_drop.mp suffix, written, begins]
      rfl
    have straight : ∀ i ∈ leavesAtThreeCode.take 16, i.isTerminator = false := by decide
    obtain ⟨visited, state, run⟩ := m.run_straight Semantics.nonzero straight code
      (.start memory)
    have whole : leavesAtThreeCode.take 16 ++ code = m.instructions := by
      rw [place, List.take_append_drop, written]
    rw [whole] at run
    exact ⟨_, ⟨visited, run⟩, rfl⟩
  · exact (runs Semantics.integers Semantics.nonzero Semantics.integers_counts memory).2
      fun c _ => leavesAtThree_completes written labels counter.id

end Draft

end ShaderIR
