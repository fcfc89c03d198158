import ShaderIR.Proofs.Writable

/-! Which events a position dominates. The record answers by walking outwards through the regions it
noted; here the answer is read from the boundaries alone, as the blocks that were open when the
position was taken and just before the event. A position may be taken before any event, also inside
of a call that records several. -/
namespace ShaderIR

namespace Trace

/-- Records one more event. -/
def record (t : Trace) : Action → Trace
  | .load place value _ => t.pushLoad place value
  | .store place value => t.pushStore place value
  | .boundary b => t.pushBoundary b

/-- The record that some events lead to, one after the other. -/
def ofActions (actions : List Action) : Trace := actions.foldl record {}

/-- The record as it was before the event of a given index. -/
def before (t : Trace) (n : Nat) : Trace := ofActions (t.actions.take n)

variable {t : Trace}

/-- The walk outwards from a region gets to the outside within a number of steps, and what it finds
on the way does not depend on how many more it could take. -/
structure WalksOut (t : Trace) (region : Option Nat) (bound : Nat) : Prop where
  outside : t.enclosesWithin none bound region = true
  settled : ∀ outer steps, bound ≤ steps →
    t.enclosesWithin outer steps region = t.encloses outer region

/-- There are no more blocks around an event than there are events before it. -/
theorem Valid.walksOut (valid : t.Valid) {k : Nat} {e : Event} (stored : t.events[k]? = some e) :
    t.WalksOut e.region k := by
  have inside : k < t.size := (Array.getElem?_eq_some_iff.mp stored).1
  have short := length_framesAt t k
  have found : ∀ {outer steps}, k ≤ steps → (t.enclosesWithin outer steps e.region = true ↔
      outer = none ∨ ∃ f ∈ t.framesAt k, outer = some f.region) := by
    intro outer steps enough
    rw [valid.region k e stored]
    exact enclosesWithin_iff (valid.parents k (by omega)) (by omega)
  refine ⟨(found (Nat.le_refl k)).mpr (.inl rfl), fun outer steps enough => ?_⟩
  rw [Bool.eq_iff_iff, encloses, found enough, found (by omega)]

theorem Valid.dominates_eq_true_iff (valid : t.Valid) {position : Position} {k : Nat} :
    t.dominates position k = true ↔ (∃ action, t.action? k = some action) ∧
      position.event ≤ k ∧ t.OpenAt position.region k := by
  by_cases inside : k < t.size
  · rw [valid.dominates_iff inside]
    exact (and_iff_right (action?_isSome inside)).symm
  · have missing : t.events[k]? = none := Array.getElem?_eq_none (Nat.le_of_not_lt inside)
    simp [dominates, action?, missing]

theorem grows_record (t : Trace) (action : Action) :
    ∃ recorded, t.Grows (t.record action) recorded := by
  cases action with
  | load place value _ => exact ⟨_, grows_pushLoad place value⟩
  | store place value => exact ⟨_, grows_pushStore place value⟩
  | boundary b => exact ⟨_, grows_pushBoundary b⟩

theorem foldl_record (t : Trace) (actions : List Action) :
    (actions.foldl record t).size = t.size + actions.length ∧
      ∀ k < t.size, (actions.foldl record t).action? k = t.action? k := by
  induction actions generalizing t with
  | nil => exact ⟨rfl, fun _ _ => rfl⟩
  | cons action rest ih =>
    obtain ⟨_, grows⟩ := t.grows_record action
    obtain ⟨size, kept⟩ := ih (t.record action)
    rw [grows.size] at size kept
    refine ⟨by rw [List.foldl_cons, size, List.length_cons]; omega, fun k inside => ?_⟩
    rw [List.foldl_cons, kept k (by omega), grows.action?, if_neg (by omega)]

theorem length_actions (t : Trace) : t.actions.length = t.size := by simp [actions, size]

theorem size_before {n : Nat} (reached : n ≤ t.size) : (t.before n).size = n := by
  have size := (foldl_record {} (t.actions.take n)).1
  rw [List.length_take_of_le (t.length_actions ▸ reached)] at size
  exact size.trans (Nat.zero_add n)

/-- A record that was made one event after the other, and was valid before each of them. -/
structure Made (t : Trace) : Prop where
  whole : ofActions t.actions = t
  valid : ∀ n, (t.before n).Valid

theorem made_empty : ({} : Trace).Made where
  whole := rfl
  valid n := by
    have none : ({} : Trace).actions.take n = [] := List.take_nil
    rw [before, none]
    exact valid_empty

namespace Made

theorem record (made : t.Made) {t' : Trace} {action : Action} (same : t.record action = t')
    (actions : t'.actions = t.actions ++ [action]) (valid : t'.Valid) : t'.Made := by
  have whole : ofActions t'.actions = t' := by
    have old := made.whole
    unfold ofActions at old ⊢
    rw [actions, List.foldl_append, old, List.foldl_cons, List.foldl_nil, same]
  refine ⟨whole, fun n => ?_⟩
  by_cases early : n ≤ t.actions.length
  · have same : t'.before n = t.before n := by
      rw [before, actions, List.take_append_of_le_length early, before]
    exact same ▸ made.valid n
  · have all : t'.before n = t' := by
      rw [before, List.take_of_length_le (by rw [actions]; simp; omega), whole]
    rwa [all]

variable (made : t.Made) {n j k : Nat} (reached : n ≤ t.size)

include made in
theorem before_size : t.before t.size = t := by
  rw [before, ← length_actions, List.take_length, made.whole]

include made reached

theorem action?_before (inside : k < n) : (t.before n).action? k = t.action? k := by
  have split : (t.actions.drop n).foldl Trace.record (t.before n) = t := by
    rw [before, ofActions, ← List.foldl_append, List.take_append_drop]
    exact made.whole
  have kept := (foldl_record (t.before n) (t.actions.drop n)).2 k
  rw [split, size_before reached] at kept
  exact (kept inside).symm

theorem framesAt_before (inside : j ≤ n) : (t.before n).framesAt j = t.framesAt j :=
  framesAt_congr fun _ earlier => made.action?_before reached (by omega)

theorem position_before : (t.before n).position = ⟨n, innermost (t.framesAt n)⟩ := by
  rw [position, (made.valid n).region_eq, size_before reached,
    made.framesAt_before reached (Nat.le_refl n)]

/-- Whether a position that was taken before an event dominates another event, by the boundaries
alone. -/
theorem dominates_iff (earlier : j ≤ n) :
    (t.before n).dominates (t.before j).position k = true ↔ k < n ∧ j ≤ k ∧
      (t.framesAt j = [] ∨ ∃ f ∈ t.framesAt k, some f.region = innermost (t.framesAt j)) := by
  have exist : (∃ action, (t.before n).action? k = some action) ↔ k < n :=
    ⟨fun ⟨_, found⟩ => size_before reached ▸ action?_lt found,
      fun inside => action?_isSome (by rwa [size_before reached])⟩
  rw [(made.valid n).dominates_eq_true_iff, exist, made.position_before (Nat.le_trans earlier reached)]
  refine and_congr_right fun inside => and_congr_right fun _ => ?_
  rw [OpenAt, made.framesAt_before reached (Nat.le_of_lt inside)]
  refine or_congr ?_ (exists_congr fun f => and_congr_right fun _ => eq_comm)
  rw [innermost, Option.map_eq_none_iff, List.head?_eq_none_iff]

end Made

end Trace

namespace Draft

variable {d d' : Draft}

theorem Step.made (step : Step False d d') (valid : d'.trace.Valid) (made : d.trace.Made) :
    d'.trace.Made := by
  cases step with
  | load | store => exact made.record rfl (d.trace.actions_push _) valid
  | beginIf | beginElse | endIf | beginFor | endFor | breakLoop | continueLoop =>
    exact made.record rfl (d.trace.actions_pushBoundary _) valid
  | _ => exact made

/-- What is recorded after any history was recorded one event after the other. -/
theorem made_after (settings : Settings) (slots : List Ty) (history : List Call) :
    (((new settings).withSlots slots).after history).trace.Made := by
  have start : ∀ (d : Draft) slots, d.trace = {} → (d.withSlots slots).trace.Made := by
    intro d slots empty
    rw [(withSlots_records d slots).1, empty]
    exact Trace.made_empty
  refine (after_keeps (P := fun d => d.Lasting ∧ d.trace.Made) (fun c _ d kept => ?_)
    ⟨lasting_after settings slots [], start _ slots rfl⟩).2
  refine ⟨kept.1.leaves c, ?_⟩
  cases again : c.restarts with
  | false =>
    exact (keeps_along (P := fun d => d.Sound False ∧ d.trace.Made)
      (fun step kept => ⟨step.sound kept.1, step.made (step.sound kept.1).flow.trace kept.2⟩)
      (Call.leaves_steps kept.1.sound again False.elim) ⟨kept.1.sound, kept.2⟩).2
  | true =>
    cases c with
    | compile =>
      rw [leaves_compile, restart_eq]
      exact start _ _ rfl
    | reset =>
      show (d.restart d.types).trace.Made
      rw [restart_eq]
      exact start _ _ rfl
    | _ => contradiction

theorem Step.actions (step : Step False d d') : d.trace.actions <+: d'.trace.actions := by
  cases step with
  | load | store => exact ⟨_, (d.trace.actions_push _).symm⟩
  | beginIf | beginElse | endIf | beginFor | endFor | breakLoop | continueLoop =>
    exact ⟨_, (d.trace.actions_pushBoundary _).symm⟩
  | _ => exact List.prefix_rfl

theorem Sound.actions_after (sound : d.Sound False) {calls : List Call}
    (building : ∀ c ∈ calls, c.restarts = false) :
    (d.after calls).Sound False ∧ d.trace.actions <+: (d.after calls).trace.actions :=
  after_keeps (P := fun x => x.Sound False ∧ d.trace.actions <+: x.trace.actions)
    (fun c member _ kept => keeps_along
      (P := fun x => x.Sound False ∧ d.trace.actions <+: x.trace.actions)
      (fun step kept => ⟨step.sound kept.1, kept.2.trans step.actions⟩)
      (Call.leaves_steps kept.1 (building c member) False.elim) kept)
    ⟨sound, List.prefix_rfl⟩

/-- What is recorded after any history, also of compilations, was recorded one event after the
other, and what values and locations have for a position was taken before some event. Take any
position that was taken before an event, and the record before the same or a later one. The position
dominates an event exactly if the event exists, was recorded at the position or later, and the
innermost branch or loop body that was open at the position, if any, is open just before the event.
The blocks are read from the boundaries alone; between calls they are the ones that the session has
open. The walk through the regions that gives the answer comes to an end. -/
theorem regions_dominate_exactly (settings : Settings) (slots : List Ty) {first : Draft}
    (begun : withInputs settings slots = .ok () first) (history : List Call) {later : List Call}
    (building : ∀ c ∈ later, c.restarts = false) {d d' : Draft} (taken : first.after history = d)
    (reached : d.after later = d') :
    d'.trace.before d'.trace.size = d'.trace ∧ d'.trace.before d.trace.size = d.trace ∧
      d.scopes = (d'.trace.framesAt d.trace.size).map Frame.scope ∧
      (∀ h n, d'.graph.find? h = some n →
        ∃ j ≤ d'.trace.size, n.position = (d'.trace.before j).position) ∧
      (∀ p data, d'.places.find? p = some data →
        ∃ j ≤ d'.trace.size, data.position = (d'.trace.before j).position) ∧
      ∀ n ≤ d'.trace.size, ∀ j ≤ n, ∀ k,
        ((d'.trace.before n).dominates (d'.trace.before j).position k = true ↔ k < n ∧ j ≤ k ∧
          (d'.trace.framesAt j = [] ∨ ∃ f ∈ d'.trace.framesAt k,
            some f.region = Trace.innermost (d'.trace.framesAt j))) ∧
        ∀ e, (d'.trace.before n).events[k]? = some e →
          (d'.trace.before n).WalksOut e.region k := by
  obtain rfl := eq_of_withInputs begun
  have sound : d.Sound False := taken ▸ (lasting_after settings slots history).sound
  have made : d.trace.Made := taken ▸ made_after settings slots history
  have made' : d'.trace.Made := by
    rw [← reached, ← taken, ← after_append]
    exact made_after settings slots _
  obtain ⟨sound', extended⟩ : d'.Sound False ∧ d.trace.actions <+: d'.trace.actions :=
    reached ▸ sound.actions_after building
  have start : d'.trace.before d.trace.size = d.trace := by
    rw [Trace.before, ← Trace.length_actions, ← List.prefix_iff_eq_take.mp extended, made.whole]
  have longer : d.trace.size ≤ d'.trace.size := by
    rw [← Trace.length_actions, ← Trace.length_actions]
    exact extended.length_le
  have passed : ∀ position, d'.Passed position →
      ∃ j ≤ d'.trace.size, position = (d'.trace.before j).position := by
    rintro ⟨event, region⟩ ⟨inside, innermost⟩
    refine ⟨event, inside, ?_⟩
    rw [made'.position_before inside, ← innermost]
  refine ⟨made'.before_size, start, ?_, fun h n found => passed _ (sound'.nodes h n found).passed,
    fun p data found => passed _ (sound'.places p data found).passed,
    fun n inside j earlier k => ⟨made'.dominates_iff inside earlier,
      fun e stored => (made'.valid n).walksOut stored⟩⟩
  rw [sound.flow.scopes, ← made'.framesAt_before longer (Nat.le_refl _), start]

/-- A loop in the first of two branches. -/
def countsInBranch : List Call :=
  [.localVariable .single, .load ⟨1⟩, .binary .less ⟨0, 0⟩ ⟨1, 1⟩, .beginIf ⟨2, 2⟩, .beginFor 0 3]

/-- The value of the counter has its position between the begin of the loop and its load. It
dominates the events of the loop, also the one that ends it, and none after. The position before the
loop dominates all events of the branch. -/
theorem countsInBranch_dominates :
    withInputs { stage := .vertex } [.single] = .ok () (vertex [.single]) ∧
      (∀ c ∈ [Call.load ⟨1⟩, .endFor, .beginElse, .load ⟨1⟩, .endIf], c.restarts = false) ∧
      ∃ d d', (vertex [.single]).after countsInBranch = d ∧
        d.after [.load ⟨1⟩, .endFor, .beginElse, .load ⟨1⟩, .endIf] = d' ∧
        (∃ n, d'.graph.find? ⟨6, 6⟩ = some n ∧ n.kind = .load 3 ∧
          n.position = (d'.trace.before 3).position ∧
          ∀ k, d'.trace.dominates n.position k = true ↔ k = 3 ∨ k = 4 ∨ k = 5) ∧
        ∀ k, d'.trace.dominates (d'.trace.before 2).position k = true ↔ 2 ≤ k ∧ k ≤ 6 := by
  have building : ∀ c ∈ [Call.load ⟨1⟩, .endFor, .beginElse, .load ⟨1⟩, .endIf],
      c.restarts = false := by decide
  refine ⟨withInputs_eq _ _, building, _, _, rfl, rfl, ?_⟩
  obtain ⟨whole, _, _, _, _, exactly⟩ := regions_dominate_exactly { stage := .vertex } [.single]
    (withInputs_eq _ _) countsInBranch building rfl rfl
  generalize reached : ((vertex [.single]).after countsInBranch).after
    [.load ⟨1⟩, .endFor, .beginElse, .load ⟨1⟩, .endIf] = d' at whole exactly ⊢
  have size : d'.trace.size = 9 := by
    rw [← reached]
    decide +kernel
  have dominates : ∀ j ≤ 9, ∀ k, d'.trace.dominates (d'.trace.before j).position k = true ↔
      k < 9 ∧ j ≤ k ∧ (d'.trace.framesAt j = [] ∨ ∃ f ∈ d'.trace.framesAt k,
        some f.region = Trace.innermost (d'.trace.framesAt j)) := by
    intro j inside k
    have found := (exactly d'.trace.size (Nat.le_refl _) j (size ▸ inside) k).1
    rwa [whole, size] at found
  have counter : (d'.graph.find? ⟨6, 6⟩).any fun n =>
      decide (n.kind = .load 3 ∧ n.position = (d'.trace.before 3).position) := by
    rw [← reached]
    decide +kernel
  have blocks : ∀ k < 9, ((∃ f ∈ d'.trace.framesAt k,
      some f.region = Trace.innermost (d'.trace.framesAt 3)) ↔ k = 3 ∨ k = 4 ∨ k = 5) ∧
      ((∃ f ∈ d'.trace.framesAt k, some f.region = Trace.innermost (d'.trace.framesAt 2)) ↔
        2 ≤ k ∧ k ≤ 6) := by
    rw [← reached]
    decide +kernel
  have inside : d'.trace.framesAt 3 ≠ [] ∧ d'.trace.framesAt 2 ≠ [] := by
    rw [← reached]
    decide +kernel
  obtain ⟨n, found, same⟩ := (Option.any_eq_true _ _).mp counter
  obtain ⟨kind, position⟩ := of_decide_eq_true same
  refine ⟨⟨n, found, kind, position, fun k => ?_⟩, fun k => ?_⟩
  · rw [position, dominates 3 (by decide), or_iff_right inside.1]
    constructor
    · exact fun ⟨early, _, frame⟩ => ((blocks k early).1.mp frame)
    · exact fun among => ⟨by omega, by omega, (blocks k (by omega)).1.mpr among⟩
  · rw [dominates 2 (by decide), or_iff_right inside.2]
    constructor
    · exact fun ⟨early, _, frame⟩ => ((blocks k early).2.mp frame)
    · exact fun among => ⟨by omega, by omega, (blocks k (by omega)).2.mpr among⟩

end Draft

end ShaderIR
