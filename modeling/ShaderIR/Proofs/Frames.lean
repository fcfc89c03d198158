import ShaderIR.Draft.Basic

/-! The nesting of blocks at each point of a program. A record keeps the region of every event and
the region around every region; here both are read back from the boundaries alone, as a stack of
open blocks for each point, and the walk through the regions is shown to follow that stack. -/
namespace ShaderIR

variable {t : Trace} {i k n : Nat} {action : Action}

structure Frame where
  scope : Scope
  /-- The event that opened the block. -/
  start : Nat
  /-- The branch or the loop body that is open. -/
  region : Nat

namespace Trace

def nextFrames (frames : List Frame) (event : Nat) : Action → List Frame
  | .boundary (.ifBegin s) => ⟨.selection s, event, event⟩ :: frames
  | .boundary (.loopBegin l) => ⟨.loop l, event, event⟩ :: frames
  | .boundary (.ifElse _) =>
      match frames with
      | [] => []
      | f :: rest => { f with region := event } :: rest
  | .boundary (.ifEnd _) | .boundary (.loopEnd _) => frames.tail
  | _ => frames

/-- The blocks that are open before the event of a given index, innermost first. -/
def framesAt (t : Trace) : Nat → List Frame
  | 0 => []
  | k + 1 =>
      match t.action? k with
      | some action => nextFrames (t.framesAt k) k action
      | none => t.framesAt k

def innermost (frames : List Frame) : Option Nat := frames.head?.map Frame.region

theorem framesAt_succ (found : t.action? k = some action) :
    t.framesAt (k + 1) = nextFrames (t.framesAt k) k action := by
  simp only [framesAt, found]

theorem framesAt_congr {t' : Trace} (same : ∀ k < n, t'.action? k = t.action? k) :
    t'.framesAt n = t.framesAt n := by
  induction n with
  | zero => rfl
  | succ n ih =>
    simp only [framesAt, same n (by omega), ih fun k bound => same k (by omega)]

/-- Blocks lie inside each other in the order of the events that opened them. -/
structure Nested (bound : Nat) (frames : List Frame) : Prop where
  inside : ∀ f ∈ frames, f.start ≤ f.region ∧ f.region < bound
  ordered : frames.Pairwise fun f g => g.region < f.start

theorem Nested.later {frames : List Frame} (nested : Nested k frames) : Nested (k + 1) frames where
  inside f member := ⟨(nested.inside f member).1, Nat.lt_succ_of_lt (nested.inside f member).2⟩
  ordered := nested.ordered

theorem nested_nextFrames {frames : List Frame} (nested : Nested k frames) (action : Action) :
    Nested (k + 1) (nextFrames frames k action) := by
  have keep := nested.later
  have enter : ∀ scope, Nested (k + 1) (⟨scope, k, k⟩ :: frames) := by
    intro scope
    refine ⟨?_, List.pairwise_cons.mpr ⟨fun g member => (nested.inside g member).2,
      nested.ordered⟩⟩
    intro f member
    rcases List.mem_cons.mp member with rfl | member
    · exact ⟨Nat.le_refl _, Nat.lt_succ_self _⟩
    · exact keep.inside f member
  have leave : Nested (k + 1) frames.tail :=
    ⟨fun f member => keep.inside f (List.mem_of_mem_tail member), nested.ordered.tail⟩
  cases action with
  | load | store => exact keep
  | boundary b =>
    cases b with
    | ifBegin | loopBegin => exact enter _
    | ifEnd | loopEnd => exact leave
    | leave | next => exact keep
    | ifElse s =>
      cases frames with
      | nil => exact keep
      | cons f rest =>
        have head := nested.inside f (by simp)
        refine ⟨?_, List.pairwise_cons.mpr (List.pairwise_cons.mp nested.ordered)⟩
        intro g member
        rcases List.mem_cons.mp member with rfl | member
        · exact ⟨by dsimp only; omega, Nat.lt_succ_self _⟩
        · exact keep.inside g (by simp [member])

theorem nested_framesAt (t : Trace) (n : Nat) : Nested n (t.framesAt n) := by
  induction n with
  | zero => exact ⟨by simp [framesAt], by simp [framesAt]⟩
  | succ n ih =>
    simp only [framesAt]
    split
    · exact nested_nextFrames ih _
    · exact ih.later

theorem length_nextFrames (frames : List Frame) (k : Nat) (action : Action) :
    (nextFrames frames k action).length ≤ frames.length + 1 := by
  cases action with
  | load | store => exact Nat.le_succ _
  | boundary b => cases b <;> cases frames <;> simp [nextFrames] <;> omega

theorem length_framesAt (t : Trace) (n : Nat) : (t.framesAt n).length ≤ n := by
  induction n with
  | zero => exact Nat.le_refl 0
  | succ n ih =>
    simp only [framesAt]
    split
    · exact Nat.le_trans (length_nextFrames _ _ _) (Nat.succ_le_succ ih)
    · exact Nat.le_succ_of_le ih

structure Valid (t : Trace) : Prop where
  regions : t.regions = (t.framesAt t.size).map Frame.region
  region : ∀ (k : Nat) (e : Event), t.events[k]? = some e → e.region = innermost (t.framesAt k)
  known : ∀ region, (t.parents.find? region).isSome → region < t.size
  parents : ∀ k ≤ t.size, ∀ f rest, (f :: rest) <:+ t.framesAt k →
    t.parents.find? f.region = some (innermost rest)

theorem valid_empty : ({} : Trace).Valid where
  regions := rfl
  region k e found := by simp at found
  known region found := by simp [Assoc.find?] at found
  parents k bound f rest suffix := by
    have zero : k = 0 := by simpa [size] using bound
    subst zero
    simp [framesAt] at suffix

section Push

variable {t' : Trace}

theorem action?_eq :
    t.action? k = some action ↔ ∃ e : Event, t.events[k]? = some e ∧ e.action = action :=
  Option.map_eq_some_iff

theorem action?_lt (found : t.action? k = some action) : k < t.size := by
  obtain ⟨e, stored, _⟩ := action?_eq.mp found
  exact (Array.getElem?_eq_some_iff.mp stored).1

theorem action?_isSome (bound : k < t.size) : ∃ action, t.action? k = some action :=
  ⟨_, action?_eq.mpr ⟨_, Array.getElem?_eq_getElem bound, rfl⟩⟩

structure Grows (t t' : Trace) (action : Action) : Prop where
  events : t'.events = t.events.push { action, region := t.region }

section Grown

variable (grows : Grows t t' action)

include grows

theorem Grows.size : t'.size = t.size + 1 := by
  simp only [Trace.size, grows.events, Array.size_push]

theorem Grows.event? (k : Nat) :
    t'.events[k]? = if k = t.size then some { action, region := t.region } else t.events[k]? := by
  rw [grows.events, Array.getElem?_push]
  rfl

theorem Grows.action? (k : Nat) :
    t'.action? k = if k = t.size then some action else t.action? k := by
  rw [Trace.action?, grows.event?]
  split
  · rfl
  · rfl

theorem Grows.framesAt (bound : n ≤ t.size) : t'.framesAt n = t.framesAt n :=
  framesAt_congr fun k below => by rw [grows.action?, if_neg (by omega)]

theorem Grows.framesAt_size :
    t'.framesAt t'.size = nextFrames (t.framesAt t.size) t.size action := by
  rw [grows.size, framesAt_succ (by rw [grows.action?, if_pos rfl]), grows.framesAt (Nat.le_refl _)]

/-- A record stays valid if its regions follow the new event. -/
theorem Valid.grow (valid : t.Valid)
    (regions : t'.regions = (nextFrames (t.framesAt t.size) t.size action).map Frame.region)
    (parents : ∀ region, region ≠ t.size → t'.parents.find? region = t.parents.find? region)
    (stacked : ∀ f rest, (f :: rest) <:+ nextFrames (t.framesAt t.size) t.size action →
      t'.parents.find? f.region = some (innermost rest)) : t'.Valid where
  regions := by rw [grows.framesAt_size, regions]
  region k e found := by
    rw [grows.event?] at found
    by_cases last : k = t.size
    · rw [if_pos last, Option.some.injEq] at found
      subst found last
      rw [grows.framesAt (Nat.le_refl _)]
      show t.regions.head? = _
      rw [valid.regions, List.head?_map]
      rfl
    · rw [if_neg last] at found
      have bound := (Array.getElem?_eq_some_iff.mp found).1
      rw [grows.framesAt (Nat.le_of_lt bound)]
      exact valid.region k e found
  known region found := by
    rw [grows.size]
    by_cases last : region = t.size
    · omega
    · rw [parents region last] at found
      have := valid.known region found
      omega
  parents k bound f rest suffix := by
    rw [grows.size] at bound
    by_cases last : k = t'.size
    · rw [last, grows.framesAt_size] at suffix
      exact stacked f rest suffix
    · rw [grows.size] at last
      rw [grows.framesAt (by omega)] at suffix
      have inside := ((nested_framesAt t k).inside f (suffix.subset (by simp))).2
      rw [parents f.region (by omega)]
      exact valid.parents k (by omega) f rest suffix

end Grown

theorem grows_pushLoad (place : Place) (value : Handle) :
    Grows t (t.pushLoad place value) (.load place value (t.stores.find? place)) := ⟨rfl⟩

theorem grows_pushStore (place : Place) (value : Handle) :
    Grows t (t.pushStore place value) (.store place value) := ⟨rfl⟩

theorem grows_pushBoundary (boundary : Boundary) :
    Grows t (t.pushBoundary boundary) (.boundary boundary) := by
  cases boundary <;> exact ⟨rfl⟩

theorem Valid.region_eq (valid : t.Valid) : t.region = innermost (t.framesAt t.size) := by
  rw [Trace.region, valid.regions, List.head?_map]
  rfl

theorem Valid.pushLoad (valid : t.Valid) (place : Place) (value : Handle) :
    (t.pushLoad place value).Valid :=
  valid.grow (grows_pushLoad place value) valid.regions (fun _ _ => rfl)
    (valid.parents t.size (Nat.le_refl _))

theorem Valid.pushStore (valid : t.Valid) (place : Place) (value : Handle) :
    (t.pushStore place value).Valid :=
  valid.grow (grows_pushStore place value) valid.regions (fun _ _ => rfl)
    (valid.parents t.size (Nat.le_refl _))

/-- Opening the region of the new event, inside of given blocks. -/
theorem Valid.open_stacked (valid : t.Valid) {f : Frame} {outer : List Frame}
    (suffix : outer <:+ t.framesAt t.size) (new : f.region = t.size) {g : Frame}
    {rest : List Frame} (inner : (g :: rest) <:+ f :: outer) :
    (t.parents.insert t.size (innermost outer)).find? g.region = some (innermost rest) := by
  rw [Assoc.find?_insert]
  rcases List.suffix_cons_iff.mp inner with same | inside
  · obtain ⟨rfl, rfl⟩ := List.cons.inj same
    rw [if_pos new.symm]
  · have below := (nested_framesAt t t.size).inside g ((inside.trans suffix).subset (by simp))
    rw [if_neg (by omega)]
    exact valid.parents t.size (Nat.le_refl _) g rest (inside.trans suffix)

theorem Valid.pushBoundary (valid : t.Valid) (boundary : Boundary)
    (inside : ∀ s, boundary = .ifElse s → t.framesAt t.size ≠ []) :
    (t.pushBoundary boundary).Valid := by
  have grows := grows_pushBoundary (t := t) boundary
  have elsewhere : ∀ (region : Nat) (outer : Option Nat), region ≠ t.size →
      (t.parents.insert t.size outer).find? region = t.parents.find? region :=
    fun region outer other => Assoc.find?_insert_of_ne _ _ other.symm
  have tail : (t.framesAt t.size).tail <:+ t.framesAt t.size := List.tail_suffix _
  cases boundary with
  | leave | next =>
    exact valid.grow grows valid.regions (fun _ _ => rfl) (valid.parents t.size (Nat.le_refl _))
  | ifEnd | loopEnd =>
    refine valid.grow grows ?_ (fun _ _ => rfl) fun f rest suffix =>
      valid.parents t.size (Nat.le_refl _) f rest (suffix.trans tail)
    show t.regions.tail = _
    rw [valid.regions, ← List.map_tail]
    rfl
  | ifBegin | loopBegin =>
    refine valid.grow grows ?_ (fun region other => elsewhere region _ other) fun f rest suffix => ?_
    · show t.size :: t.regions = _
      rw [valid.regions]
      rfl
    · have stacked := valid.open_stacked (List.suffix_refl _) rfl suffix
      rwa [← valid.region_eq] at stacked
  | ifElse s =>
    cases opened : t.framesAt t.size with
    | nil => exact absurd opened (inside s rfl)
    | cons f outer =>
      have step : nextFrames (t.framesAt t.size) t.size (.boundary (.ifElse s)) =
          { f with region := t.size } :: outer := by
        rw [opened]
        rfl
      have around : t.regions.tail.head? = innermost outer := by
        rw [valid.regions, opened, List.map_cons, List.tail_cons, List.head?_map]
        rfl
      refine valid.grow grows ?_ (fun region other => elsewhere region _ other) fun g rest suffix => ?_
      · show t.size :: t.regions.tail = _
        rw [step, valid.regions, opened]
        rfl
      · rw [step] at suffix
        have stacked := valid.open_stacked (opened ▸ List.suffix_cons f outer) rfl suffix
        rwa [← around] at stacked

end Push

/-! The walk through the regions follows the stack of blocks. -/

theorem enclosesWithin_iff {outer : Option Nat} {frames : List Frame}
    (stacked : ∀ f rest, (f :: rest) <:+ frames → t.parents.find? f.region = some (innermost rest))
    {steps : Nat} (enough : frames.length ≤ steps) :
    t.enclosesWithin outer steps (innermost frames) = true ↔
      outer = none ∨ ∃ f ∈ frames, outer = some f.region := by
  induction frames generalizing steps with
  | nil =>
    unfold enclosesWithin
    cases outer <;> simp [innermost]
  | cons f rest ih =>
    obtain ⟨steps, rfl⟩ : ∃ n, steps = n + 1 :=
      ⟨steps - 1, by rw [List.length_cons] at enough; omega⟩
    have inner := @ih
      (fun g tail suffix => stacked g tail (suffix.trans (List.suffix_cons f rest)))
      steps (by simpa using enough)
    have next : ((t.parents.find? f.region).getD none) = innermost rest := by
      rw [stacked f rest (List.suffix_refl _)]
      rfl
    unfold enclosesWithin
    by_cases same : innermost (f :: rest) = outer
    · rw [if_pos same]
      subst same
      simp [innermost]
    · rw [if_neg same]
      simp only [innermost, List.head?_cons, Option.map_some] at same ⊢
      rw [next, inner]
      simp only [List.mem_cons, exists_eq_or_imp, Ne.symm same, false_or]

def OpenAt (t : Trace) (region : Option Nat) (event : Nat) : Prop :=
  region = none ∨ ∃ f ∈ t.framesAt event, region = some f.region

theorem Valid.dominates_iff (valid : t.Valid) {position : Position} (bound : k < t.size) :
    t.dominates position k = true ↔ position.event ≤ k ∧ t.OpenAt position.region k := by
  obtain ⟨e, stored⟩ : ∃ e, t.events[k]? = some e := ⟨_, Array.getElem?_eq_getElem bound⟩
  have length := length_framesAt t k
  simp only [dominates, stored, Bool.and_eq_true, decide_eq_true_eq, encloses]
  rw [valid.region k e stored, enclosesWithin_iff (valid.parents k (by omega)) (by omega)]
  rfl

/-- The blocks around a region do not depend on where it is met: once it is open, so is everything
around it. -/
theorem stacked_regions {frames frames' : List Frame}
    (stacked : ∀ f rest, (f :: rest) <:+ frames → t.parents.find? f.region = some (innermost rest))
    (stacked' : ∀ f rest, (f :: rest) <:+ frames' → t.parents.find? f.region = some (innermost rest))
    (through : innermost frames = none ∨ ∃ g ∈ frames', innermost frames = some g.region) :
    ∀ f ∈ frames, ∃ g ∈ frames', f.region = g.region := by
  induction frames with
  | nil => simp
  | cons f rest ih =>
    obtain none | ⟨g, member, same⟩ := through
    · simp [innermost] at none
    · have same : f.region = g.region := by simpa [innermost] using same
      obtain ⟨above, rest', split⟩ := List.append_of_mem member
      have suffix : (g :: rest') <:+ frames' := ⟨above, split.symm⟩
      have around : innermost rest = innermost rest' := by
        have outer := stacked f rest (List.suffix_refl _)
        rw [same, stacked' g rest' suffix] at outer
        exact (Option.some.inj outer).symm
      have inner := ih (fun h tail inside => stacked h tail (inside.trans (List.suffix_cons f rest)))
      intro h present
      rcases List.mem_cons.mp present with rfl | present
      · exact ⟨g, member, same⟩
      · refine inner ?_ h present
        rw [around]
        cases rest' with
        | nil => exact .inl rfl
        | cons g' tail => exact .inr ⟨g', suffix.subset (by simp), rfl⟩

/-- What is open at a point is open wherever the region of that point is open. -/
theorem Valid.openAt_through (valid : t.Valid) (before : i ≤ t.size) (bound : k ≤ t.size)
    {region : Option Nat} (through : t.OpenAt (innermost (t.framesAt i)) k)
    (inner : t.OpenAt region i) : t.OpenAt region k := by
  refine inner.imp_right ?_
  rintro ⟨f, member, rfl⟩
  obtain ⟨g, present, same⟩ :=
    stacked_regions (valid.parents i before) (valid.parents k bound) through f member
  exact ⟨g, present, by rw [same]⟩

/-! Going back to the event that opened a block. -/

def opener : Scope → Boundary
  | .selection s => .ifBegin s
  | .loop l => .loopBegin l

variable {f : Frame} {rest : List Frame}

/-- One event back, a block that is open was open inside the same blocks, unless that event opened
it. -/
theorem framesAt_back (suffix : (f :: rest) <:+ t.framesAt (k + 1)) :
    (f.start = k ∧ t.framesAt k = rest ∧ t.action? k = some (.boundary (opener f.scope))) ∨
      ∃ region, ({ f with region } :: rest) <:+ t.framesAt k := by
  simp only [framesAt] at suffix
  split at suffix
  · rename_i action found
    have entered : ∀ scope, (f :: rest) <:+ ⟨scope, k, k⟩ :: t.framesAt k →
        t.action? k = some (.boundary (opener scope)) →
        (f.start = k ∧ t.framesAt k = rest ∧ t.action? k = some (.boundary (opener f.scope))) ∨
          ∃ region, ({ f with region } :: rest) <:+ t.framesAt k := by
      intro scope entered recorded
      rcases List.suffix_cons_iff.mp entered with same | inside
      · obtain ⟨rfl, rfl⟩ := List.cons.inj same
        exact .inl ⟨rfl, rfl, recorded⟩
      · exact .inr ⟨f.region, inside⟩
    cases action with
    | load | store => exact .inr ⟨f.region, suffix⟩
    | boundary b =>
      cases b with
      | ifBegin s => exact entered (.selection s) suffix found
      | loopBegin l => exact entered (.loop l) suffix found
      | ifEnd | loopEnd => exact .inr ⟨f.region, suffix.trans (List.tail_suffix _)⟩
      | leave | next => exact .inr ⟨f.region, suffix⟩
      | ifElse s =>
        cases opened : t.framesAt k with
        | nil => simp [nextFrames, opened] at suffix
        | cons g outer =>
          rw [opened] at suffix
          rcases List.suffix_cons_iff.mp suffix with same | inside
          · obtain ⟨rfl, rfl⟩ := List.cons.inj same
            exact .inr ⟨g.region, List.suffix_refl _⟩
          · exact .inr ⟨f.region, inside.trans (List.suffix_cons g outer)⟩
  · exact .inr ⟨f.region, suffix⟩

/-- The event that opened a block, and what was open then. -/
theorem framesAt_start (suffix : (f :: rest) <:+ t.framesAt k) :
    f.start < k ∧ t.framesAt f.start = rest ∧
      t.action? f.start = some (.boundary (opener f.scope)) := by
  induction k generalizing f with
  | zero => simp [framesAt] at suffix
  | succ k ih =>
    rcases framesAt_back suffix with ⟨start, outer, recorded⟩ | ⟨region, before⟩
    · rw [start]
      exact ⟨Nat.lt_succ_self k, outer, recorded⟩
    · obtain ⟨earlier, outer, recorded⟩ := ih before
      exact ⟨Nat.lt_succ_of_lt earlier, outer, recorded⟩

theorem framesAt_between (suffix : (f :: rest) <:+ t.framesAt k) (after : f.start < i)
    (before : i ≤ k) : ∃ region, ({ f with region } :: rest) <:+ t.framesAt i := by
  induction k generalizing f with
  | zero => simp [framesAt] at suffix
  | succ k ih =>
    rcases Nat.lt_or_eq_of_le before with earlier | rfl
    · rcases framesAt_back suffix with ⟨start, _, _⟩ | ⟨region, back⟩
      · omega
      · have inner := ih back after (Nat.le_of_lt_succ earlier)
        exact inner
    · exact ⟨f.region, suffix⟩

/-- After an event, what is open from before is what was open at an earlier event, and was built
before that event. -/
structure Resumes (t : Trace) (j k : Nat) : Prop where
  before : j ≤ k
  opener : ∃ scope, t.action? j = some (.boundary (opener scope))
  back : ∀ i ≤ k, t.OpenAt (innermost (t.framesAt i)) (k + 1) →
    i ≤ j ∧ t.OpenAt (innermost (t.framesAt i)) j

theorem innermost_lt {region : Nat} (inside : innermost (t.framesAt i) = some region) :
    region < i := by
  cases frames : t.framesAt i with
  | nil => simp [frames, innermost] at inside
  | cons g outer =>
    rw [frames, innermost, List.head?_cons, Option.map_some, Option.some.injEq] at inside
    rw [← inside]
    exact ((nested_framesAt t i).inside g (by simp [frames])).2

theorem resumes_opened {scope : Scope} (recorded : t.action? k = some (.boundary (opener scope))) :
    t.Resumes k k where
  before := Nat.le_refl k
  opener := ⟨scope, recorded⟩
  back i within opened := by
    refine ⟨within, opened.imp_right ?_⟩
    rintro ⟨g, member, same⟩
    have entered : t.framesAt (k + 1) = ⟨scope, k, k⟩ :: t.framesAt k := by
      rw [framesAt_succ recorded]
      cases scope <;> rfl
    rw [entered] at member
    rcases List.mem_cons.mp member with rfl | outer
    · exact absurd (innermost_lt same) (Nat.not_lt.mpr within)
    · exact ⟨g, outer, same⟩

/-- At the end of a branch or of a block, what is open from before was open at its start. -/
theorem resumes_closed (frames : t.framesAt k = f :: rest)
    (next : ∀ g ∈ t.framesAt (k + 1), g.region = k ∨ g ∈ rest) : t.Resumes f.start k := by
  have suffix : (f :: rest) <:+ t.framesAt k := frames ▸ List.suffix_refl _
  obtain ⟨earlier, outer, recorded⟩ := framesAt_start suffix
  refine ⟨Nat.le_of_lt earlier, ⟨f.scope, recorded⟩, fun i within opened => ?_⟩
  have around : t.OpenAt (innermost (t.framesAt i)) f.start := by
    refine opened.imp_right ?_
    rintro ⟨g, member, same⟩
    rcases next g member with now | inside
    · exact absurd (innermost_lt same) (by omega)
    · exact ⟨g, outer ▸ inside, same⟩
  refine ⟨Nat.le_of_not_lt fun later => ?_, around⟩
  -- Inside the block, the innermost region is not one of those around it.
  obtain ⟨region, inner⟩ := framesAt_between suffix later within
  have nested := nested_framesAt t i
  obtain ⟨above, split⟩ := inner
  have deep : ∃ g : Frame, innermost (t.framesAt i) = some g.region ∧ f.start ≤ g.region := by
    cases above with
    | nil => exact ⟨{ f with region }, by rw [← split]; rfl,
        (nested.inside { f with region } (by rw [← split]; simp)).1⟩
    | cons g more =>
      refine ⟨g, by rw [← split]; rfl, ?_⟩
      have ordered := nested.ordered
      rw [← split, List.cons_append, List.pairwise_cons] at ordered
      have outside := ordered.1 { f with region } (by simp)
      have start := (nested.inside { f with region } (by rw [← split]; simp)).1
      have inside := (nested.inside g (by rw [← split]; simp)).1
      dsimp only at outside start
      omega
  obtain ⟨g, innermost, start⟩ := deep
  rcases around with none | ⟨h, member, same⟩
  · rw [innermost] at none
    contradiction
  · rw [innermost, Option.some.injEq] at same
    have below := ((nested_framesAt t f.start).inside h member).2
    omega

end Trace

end ShaderIR
