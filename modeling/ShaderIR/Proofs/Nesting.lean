import Mathlib.Data.Nat.Init
import ShaderIR.Proofs.Labels
import ShaderIR.Proofs.Outline
import ShaderIR.Proofs.Recorded

/-! From recorded boundaries to an outline. Boundaries match the blocks that are open, so the code
that a compilation writes event by event is the code of an outline. It is built from the last event
backwards: what comes after an event closes the blocks that are open there, innermost first. -/
namespace ShaderIR

variable {k l s : Nat} {x : CountedLoop} {bool first label last step : Id} {f : Frame}
  {ids : LoopIds}

def Frame.phase (f : Frame) : Phase := if f.region = f.start then .opened else .switched

namespace Draft

/-- Blocks that are open at an event: they are different, and each is in the phase that its frame
says. -/
structure Layered (d : Draft) (k : Nat) (frames : List Frame) : Prop where
  distinct : (frames.map Frame.scope).Nodup
  phases : ∀ f ∈ frames, d.trace.phaseAt f.scope k = f.phase

section Frames

variable {strict : Prop} {d : Draft} {frames : List Frame} {b : Boundary}

theorem Layered.same (layered : d.Layered k frames)
    (kept : ∀ scope, d.trace.phaseAt scope (k + 1) = d.trace.phaseAt scope k) :
    d.Layered (k + 1) frames :=
  ⟨layered.distinct, fun f member => (kept f.scope).trans (layered.phases f member)⟩

section Boundary

variable (recorded : d.trace.action? k = some (.boundary b))

include recorded

theorem Layered.opens (layered : d.Layered k frames) (unopened : d.trace.phaseAt b.scope k = .built)
    (opened : b.phase = .opened) : d.Layered (k + 1) (⟨b.scope, k, k⟩ :: frames) := by
  have fresh : ∀ f ∈ frames, b.scope ≠ f.scope := by
    intro f member same
    rw [same, layered.phases f member, Frame.phase] at unopened
    split at unopened <;> contradiction
  refine ⟨List.nodup_cons.mpr ⟨fun member => ?_, layered.distinct⟩, fun f member => ?_⟩
  · obtain ⟨f, inside, same⟩ := List.mem_map.mp member
    exact fresh f inside same.symm
  · rw [Trace.phaseAt_succ recorded]
    rcases List.mem_cons.mp member with rfl | before
    · rw [if_pos rfl, opened, Frame.phase, if_pos rfl]
    · rw [if_neg (fresh f before)]
      exact layered.phases f before

/-- A boundary of the innermost block leaves the others alone. -/
theorem Layered.others (layered : d.Layered k (f :: frames)) (innermost : f.scope = b.scope) :
    d.Layered (k + 1) frames := by
  obtain ⟨fresh, distinct⟩ := List.nodup_cons.mp layered.distinct
  refine ⟨distinct, fun g member => ?_⟩
  rw [Trace.phaseAt_succ recorded, if_neg]
  · exact layered.phases g (List.mem_cons_of_mem f member)
  · intro same
    exact fresh (List.mem_map.mpr ⟨g, member, by rw [innermost, same]⟩)

theorem Layered.switches (layered : d.Layered k (f :: frames)) (innermost : f.scope = b.scope)
    (switched : b.phase = .switched) (before : f.start < k) :
    d.Layered (k + 1) ({ f with region := k } :: frames) := by
  have others := layered.others recorded innermost
  refine ⟨layered.distinct, fun g member => ?_⟩
  rcases List.mem_cons.mp member with rfl | rest
  · rw [Trace.phaseAt_succ recorded, if_pos innermost.symm, switched, Frame.phase,
      if_neg (Nat.ne_of_gt before)]
  · exact others.phases g rest

end Boundary

variable (sound : d.Sound strict) (orderly : d.Orderly)

include sound

/-- A boundary that neither opens a block nor jumps belongs to the innermost block. -/
theorem Sound.innermost (recorded : d.trace.action? k = some (.boundary b))
    (inside : b.opens = false) (lasting : b.isJump = false) :
    ∃ f frames, d.trace.framesAt k = f :: frames ∧ f.scope = b.scope := by
  have matching : (d.trace.framesAt k).head?.map Frame.scope = some b.scope := by
    have matching := sound.actions k _ recorded
    cases b with
    | ifElse | ifEnd | loopEnd => exact matching.2
    | ifBegin | loopBegin | leave | next => contradiction
  cases frames : d.trace.framesAt k with
  | nil => simp [frames] at matching
  | cons f rest =>
    rw [frames] at matching
    exact ⟨f, rest, rfl, Option.some.inj matching⟩

include orderly

theorem Orderly.layered (k : Nat) : d.Layered k (d.trace.framesAt k) := by
  induction k with
  | zero => exact ⟨List.nodup_nil, by simp [Trace.framesAt]⟩
  | succ k ih =>
    cases recorded : d.trace.action? k with
    | none =>
      rw [Trace.framesAt, recorded]
      exact ih.same fun scope => by rw [Trace.phaseAt, recorded]
    | some action =>
      rw [Trace.framesAt_succ recorded]
      cases action with
      | load | store => exact ih.same fun scope => by rw [Trace.phaseAt, recorded]
      | boundary b =>
        have expected := orderly.paced k b recorded
        have matching := sound.actions k _ recorded
        have nested := Trace.nested_framesAt d.trace k
        cases b with
        | ifBegin | loopBegin => exact ih.opens recorded (List.mem_singleton.mp expected) rfl
        | leave l | next l =>
          refine ih.same fun scope => ?_
          rw [Trace.phaseAt_succ recorded]
          split
          · rename_i same
            rw [← same, List.mem_singleton.mp expected]
            rfl
          · rfl
        | ifEnd | loopEnd =>
          obtain ⟨f, frames, stacked, same⟩ := sound.innermost recorded rfl rfl
          rw [stacked] at ih ⊢
          exact ih.others recorded same
        | ifElse s =>
          obtain ⟨f, frames, stacked, same⟩ := sound.innermost recorded rfl rfl
          have inside := (Trace.nested_framesAt d.trace k).inside f (by simp [stacked])
          rw [stacked] at ih ⊢
          exact ih.switches recorded same rfl (Nat.lt_of_le_of_lt inside.1 inside.2)

/-- When a selection is closed, its second branch is open if it has one. -/
theorem Orderly.switched_at_end {x : Selection} {f : Frame} {frames : List Frame}
    (recorded : d.trace.action? k = some (.boundary (.ifEnd s)))
    (innermost : d.trace.framesAt k = f :: frames) (scope : f.scope = .selection s)
    (found : d.selections[s]? = some x) (hasElse : x.hasElse = true) : f.region ≠ f.start := by
  obtain ⟨j, switches⟩ := (orderly.switched s x found).mp hasElse
  have phase := (orderly.layered sound k).phases f (by simp [innermost])
  rw [scope, Frame.phase] at phase
  intro same
  rw [if_pos same] at phase
  -- The phase of a block only rises.
  have rises : ∀ {i j : Nat} {b : Boundary}, i < j → b.scope = .selection s →
      d.trace.action? i = some (.boundary b) →
      b.phase.rank ≤ (d.trace.phaseAt (.selection s) j).rank := by
    intro i j b before belongs recorded
    have later := orderly.rank_mono (.selection s) (Nat.succ_le_of_lt before)
    rwa [Trace.phaseAt_succ recorded, if_pos belongs] at later
  rcases Nat.lt_trichotomy j k with before | rfl | after
  · have later := rises before rfl switches
    simp [phase, Boundary.phase, Phase.rank] at later
  · simp [recorded] at switches
  · have later := rises after rfl recorded
    have turn : d.trace.phaseAt (.selection s) j = .opened :=
      List.mem_singleton.mp (orderly.paced j _ switches)
    simp [turn, Boundary.phase, Phase.rank] at later

end Frames

end Draft

def Instruction.isLabel : Instruction → Bool
  | .label _ => true
  | _ => false

def CountedLoop.loopLabels (l : CountedLoop) : LoopLabels :=
  { header := l.header, check := l.check, body := l.body, increment := l.increment, post := l.post }

namespace LoopIds

def setup (ids : LoopIds) (first : Id) : List Instruction := [.store ids.counter first]

def test (ids : LoopIds) (bool last : Id) : List Instruction :=
  [.load ids.int ids.current ids.counter,
    .compute .sLessThan bool ids.computed [ids.current, last]]

def advance (ids : LoopIds) (step : Id) : List Instruction :=
  [.load ids.int ids.current ids.counter,
    .compute .iAdd ids.int ids.computed [ids.current, step],
    .store ids.counter ids.computed]

end LoopIds

namespace CountedLoop

variable {l : CountedLoop} {ids : LoopIds} {known : Id → Prop}

theorem ordered_begin
    (ordered : Ordered known ((l.beginGroup ids bool first last).filter fun i => !i.isLabel)) :
    Ordered known (ids.setup first ++ ids.test bool last) ∧
      Gained known (ids.setup first ++ ids.test bool last) ids.computed := by
  simp [beginGroup, Instruction.isLabel, Ordered, Instruction.uses, Instruction.result?] at ordered
  simp [LoopIds.setup, LoopIds.test, Ordered, Gained, Instruction.uses, Instruction.result?, ordered]

theorem ordered_end (ordered : Ordered known ((l.endGroup ids step).filter fun i => !i.isLabel)) :
    Ordered known (ids.advance step) := by
  simp [endGroup, Instruction.isLabel, Ordered, Instruction.uses, Instruction.result?] at ordered
  simp [LoopIds.advance, Ordered, Instruction.uses, Instruction.result?, ordered]

end CountedLoop

def Boundary.mark : Boundary → Mark
  | .ifBegin _ => .beginIf
  | .ifElse _ => .beginElse
  | .ifEnd _ => .endIf
  | .loopBegin _ => .beginFor
  | .loopEnd _ => .endFor
  | .leave _ _ => .breakLoop
  | .next _ _ => .continueLoop

def Action.mark? : Action → Option Mark
  | .boundary b => some b.mark
  | .load _ _ _ | .store _ _ => none

def Trace.origin (t : Trace) (k : Nat) (b : Boundary) : Nat :=
  if b.opens || b.isJump then k else ((t.framesAt k).head?.map Frame.start).getD k

namespace Draft

def around (d : Draft) (frames : List Frame) : Option LoopLabels :=
  (innermostLoop? (frames.map Frame.scope)).bind fun l => d.loops[l]?.map CountedLoop.loopLabels

/-- The code of an event, and what is known before and after it. What is held at an event that opens
a block is still known when the block is switched or closed. -/
inductive Piece (d : Draft) (known held : Nat → Id → Prop) (k : Nat) :
    Action → List Instruction → Prop where
  | plain {action : Action} {code : List Instruction} : (∀ b, action ≠ .boundary b) →
      (∀ i ∈ code, i.isPlain = true) → Ordered (known k) code →
      (∀ id, known (k + 1) id → Gained (known k) code id) → Piece d known held k action code
  | boundary {b : Boundary} {asked group : List Instruction} {fresh : Nat} {e : Emission} :
      (∀ i ∈ asked, i.isPlain = true) → Ordered (known k) asked →
      (∀ id, held k id → Gained (known k) asked id) → e.Group d b fresh group →
      Ordered (held (d.trace.origin k b)) (group.filter fun i => !i.isLabel) →
      (∀ id, known (k + 1) id → held (d.trace.origin k b) id) →
      Piece d known held k (.boundary b) (asked ++ group)

end Draft

namespace Outline

structure Fits (around : Option LoopLabels) (known : Id → Prop) (o : Outline) : Prop where
  plain : o.Plain
  jumps : o.Jumps around
  resolves : o.Resolves known

variable {around : Option LoopLabels} {known known' : Id → Prop} {o : Outline}

theorem Fits.mono (fits : o.Fits around known) (wider : ∀ id, known id → known' id) :
    o.Fits around known' :=
  { fits with resolves := fits.resolves.mono wider }

theorem fits_done : Outline.done.Fits around known := ⟨trivial, trivial, trivial⟩

theorem Fits.straight {code : List Instruction} (fits : o.Fits around (Gained known code))
    (plain : ∀ i ∈ code, i.isPlain = true) (ordered : Ordered known code) :
    (Outline.straight code o).Fits around known :=
  ⟨⟨plain, fits.plain⟩, fits.jumps, ordered, fits.resolves⟩

end Outline

namespace Draft

/-- What remains after an event: the rest of the innermost block, its end, and what remains then. -/
inductive Remains (d : Draft) (held : Nat → Id → Prop) :
    List Frame → (Id → Prop) → List Mark → List Instruction → Prop where
  | outermost {known : Id → Prop} {o : Outline} : o.Fits (d.around []) known →
      Remains d held [] known o.marks o.code
  | branch {f : Frame} {frames : List Frame} {known : Id → Prop} {marks : List Mark}
      {code : List Instruction} {s : Nat} {x : Selection} {o : Outline} :
      f.scope = .selection s → d.selections[s]? = some x →
      (x.hasElse = true → f.region ≠ f.start) → o.Fits (d.around (f :: frames)) known →
      Remains d held frames (held f.start) marks code →
      Remains d held (f :: frames) known (o.marks ++ .endIf :: marks)
        (o.code ++ (x.endGroup ++ code))
  | branches {f : Frame} {frames : List Frame} {known : Id → Prop} {marks : List Mark}
      {code : List Instruction} {s : Nat} {x : Selection} {o o' : Outline} :
      f.scope = .selection s → d.selections[s]? = some x → x.hasElse = true →
      f.region = f.start → o.Fits (d.around (f :: frames)) known →
      o'.Fits (d.around (f :: frames)) (held f.start) →
      Remains d held frames (held f.start) marks code →
      Remains d held (f :: frames) known (o.marks ++ .beginElse :: (o'.marks ++ .endIf :: marks))
        (o.code ++ (x.elseGroup ++ (o'.code ++ (x.endGroup ++ code))))
  | body {f : Frame} {frames : List Frame} {known : Id → Prop} {marks : List Mark}
      {code : List Instruction} {l : Nat} {x : CountedLoop} {ids : LoopIds} {step : Id}
      {o : Outline} :
      f.scope = .loop l → d.loops[l]? = some x → o.Fits (d.around (f :: frames)) known →
      Ordered (held f.start) ((x.endGroup ids step).filter fun i => !i.isLabel) →
      Remains d held frames (held f.start) marks code →
      Remains d held (f :: frames) known (o.marks ++ .endFor :: marks)
        (o.code ++ (x.endGroup ids step ++ code))

section Remains

variable {strict : Prop} {d : Draft} {known held : Nat → Id → Prop} {frames : List Frame}
  {now now' : Id → Prop} {marks : List Mark} {code : List Instruction}

theorem Remains.prepend (remains : d.Remains held frames now marks code) (g : Outline → Outline)
    (more : List Mark) (before : List Instruction) (marked : ∀ o, (g o).marks = more ++ o.marks)
    (coded : ∀ o, (g o).code = before ++ o.code)
    (fits : ∀ o, o.Fits (d.around frames) now → (g o).Fits (d.around frames) now') :
    d.Remains held frames now' (more ++ marks) (before ++ code) := by
  cases remains with
  | @outermost _ o fitting =>
    rw [← marked, ← coded]
    exact .outermost (fits o fitting)
  | @branch f frames _ marks code s x o scope found switched fitting rest =>
    rw [← List.append_assoc, ← List.append_assoc, ← marked, ← coded]
    exact .branch scope found switched (fits o fitting) rest
  | @branches f frames _ marks code s x o o' scope found hasElse single fitting fitting' rest =>
    rw [← List.append_assoc, ← List.append_assoc, ← marked, ← coded]
    exact .branches scope found hasElse single (fits o fitting) fitting' rest
  | @body f frames _ marks code l x ids step o scope found fitting ordered rest =>
    rw [← List.append_assoc, ← List.append_assoc, ← marked, ← coded]
    exact .body scope found (fits o fitting) ordered rest

theorem Remains.mono (remains : d.Remains held frames now marks code)
    (wider : ∀ id, now id → now' id) : d.Remains held frames now' marks code :=
  remains.prepend id [] [] (fun _ => rfl) (fun _ => rfl) fun _ fits => fits.mono wider

theorem Remains.straight {before : List Instruction} (remains : d.Remains held frames now marks code)
    (plain : ∀ i ∈ before, i.isPlain = true) (ordered : Ordered now' before)
    (gained : ∀ id, now id → Gained now' before id) :
    d.Remains held frames now' marks (before ++ code) :=
  remains.prepend (.straight before) [] before (fun _ => rfl) (fun _ => rfl)
    fun _ fits => (fits.mono gained).straight plain ordered

theorem around_selection (scope : f.scope = .selection s) :
    d.around (f :: frames) = d.around frames := by
  simp [around, innermostLoop?, scope]

theorem around_loop (scope : f.scope = .loop l) (found : d.loops[l]? = some x) :
    d.around (f :: frames) = some x.loopLabels := by
  simp [around, innermostLoop?, scope, found]

section Boundaries

variable {asked : List Instruction}
  (plain : ∀ i ∈ asked, i.isPlain = true) (ordered : Ordered now' asked)

include plain ordered

theorem fits_last : (Outline.straight asked .done).Fits (d.around frames) now' :=
  Outline.fits_done.straight plain ordered

theorem Remains.endIf {x : Selection} (remains : d.Remains held frames now marks code)
    (scope : f.scope = .selection s) (found : d.selections[s]? = some x)
    (switched : x.hasElse = true → f.region ≠ f.start) (kept : ∀ id, now id → held f.start id) :
    d.Remains held (f :: frames) now' (.endIf :: marks) (asked ++ x.endGroup ++ code) := by
  have last := Remains.branch scope found switched (fits_last plain ordered) (remains.mono kept)
  simpa [Outline.marks, Outline.code] using last

theorem Remains.endFor (remains : d.Remains held frames now marks code) (scope : f.scope = .loop l)
    (found : d.loops[l]? = some x)
    (uses : Ordered (held f.start) ((x.endGroup ids step).filter fun i => !i.isLabel))
    (kept : ∀ id, now id → held f.start id) :
    d.Remains held (f :: frames) now' (.endFor :: marks) (asked ++ x.endGroup ids step ++ code) := by
  have last := Remains.body scope found (fits_last plain ordered) uses (remains.mono kept)
  simpa [Outline.marks, Outline.code] using last

theorem Remains.beginElse {x : Selection}
    (remains : d.Remains held ({ f with region := k } :: frames) now marks code)
    (scope : f.scope = .selection s) (found : d.selections[s]? = some x)
    (hasElse : x.hasElse = true) (single : f.region = f.start) (late : f.start ≠ k)
    (kept : ∀ id, now id → held f.start id) :
    d.Remains held (f :: frames) now' (.beginElse :: marks) (asked ++ x.elseGroup ++ code) := by
  have outside : d.around ({ f with region := k } :: frames) = d.around (f :: frames) := rfl
  cases remains with
  | @branch _ _ _ marks code s' x' o scope' found' _ fits rest =>
    obtain rfl := Scope.selection.inj (scope.symm.trans scope')
    obtain rfl := Option.mem_unique found found'
    have last := Remains.branches scope found hasElse single (fits_last plain ordered)
      (outside ▸ fits.mono kept) rest
    simpa [Outline.marks, Outline.code] using last
  | branches _ _ _ single' => exact absurd single'.symm late
  | body scope' => exact absurd (scope.symm.trans scope') (by simp)

theorem Remains.beginIf {x : Selection} {condition : Id}
    (remains : d.Remains held (⟨.selection s, k, k⟩ :: frames) now marks code)
    (found : d.selections[s]? = some x) (gained : ∀ id, held k id → Gained now' asked id)
    (uses : held k condition) (kept : ∀ id, now id → held k id) :
    d.Remains held frames now' (.beginIf :: marks) (asked ++ x.beginGroup condition ++ code) := by
  have outside : d.around (⟨.selection s, k, k⟩ :: frames) = d.around frames := around_selection rfl
  cases remains with
  | @branch _ _ _ marks code s' x' o scope found' switched fits rest =>
    obtain rfl := Scope.selection.inj scope
    obtain rfl := Option.mem_unique found found'
    have single : x.falseLabel = x.mergeLabel := by
      rw [Selection.falseLabel, if_neg fun hasElse => switched hasElse rfl]
    rw [outside] at fits
    have last := rest.prepend
      (fun r => .straight asked (.when condition x.thenLabel x.mergeLabel o r))
      (.beginIf :: (o.marks ++ [.endIf]))
      (asked ++ (x.beginGroup condition ++ (o.code ++ x.endGroup)))
      (fun r => by simp [Outline.marks])
      (fun r => by simp [Outline.code, Selection.beginGroup, Selection.endGroup, single])
      (fun r fits' => ⟨⟨plain, fits.plain, fits'.plain⟩, ⟨fits.jumps, fits'.jumps⟩, ordered,
        gained _ uses, fits.resolves.mono fun id known => gained id (kept id known),
        fits'.resolves.mono gained⟩)
    simpa using last
  | @branches _ _ _ marks code s' x' o o' scope found' hasElse _ fits fits' rest =>
    obtain rfl := Scope.selection.inj scope
    obtain rfl := Option.mem_unique found found'
    have double : x.falseLabel = x.elseLabel := by
      rw [Selection.falseLabel, if_pos hasElse]
    rw [outside] at fits fits'
    have last := rest.prepend
      (fun r => .straight asked (.either condition x.thenLabel x.elseLabel x.mergeLabel o o' r))
      (.beginIf :: (o.marks ++ .beginElse :: (o'.marks ++ [.endIf])))
      (asked ++ (x.beginGroup condition ++ (o.code ++ (x.elseGroup ++ (o'.code ++ x.endGroup)))))
      (fun r => by simp [Outline.marks])
      (fun r => by
        simp [Outline.code, Selection.beginGroup, Selection.elseGroup, Selection.endGroup, double])
      (fun r fits'' => ⟨⟨plain, fits.plain, fits'.plain, fits''.plain⟩,
        ⟨fits.jumps, fits'.jumps, fits''.jumps⟩, ordered, gained _ uses,
        fits.resolves.mono fun id known => gained id (kept id known),
        fits'.resolves.mono gained, fits''.resolves.mono gained⟩)
    simpa using last
  | body scope' => contradiction

theorem Remains.beginFor (remains : d.Remains held (⟨.loop l, k, k⟩ :: frames) now marks code)
    (found : d.loops[l]? = some x) (gained : ∀ id, held k id → Gained now' asked id)
    (uses : Ordered (held k) ((x.beginGroup ids bool first last).filter fun i => !i.isLabel))
    (kept : ∀ id, now id → held k id) :
    d.Remains held frames now' (.beginFor :: marks)
      (asked ++ x.beginGroup ids bool first last ++ code) := by
  have outside : d.around (⟨.loop l, k, k⟩ :: frames) = some x.loopLabels := around_loop rfl found
  obtain ⟨before, tested⟩ := CountedLoop.ordered_begin uses
  cases remains with
  | branch scope => contradiction
  | branches scope => contradiction
  | @body _ _ _ marks code l' x' ids' step o scope found' fits uses' rest =>
    obtain rfl := Scope.loop.inj scope
    obtain rfl := Option.mem_unique found found'
    have stepped := CountedLoop.ordered_end uses'
    rw [outside] at fits
    have wider : ∀ id, held k id →
        Gained (Gained now' asked) (ids.setup first ++ ids.test bool last) id :=
      fun id known => .inl (gained id known)
    have ended := rest.prepend
      (fun r => .straight asked (.loop x.loopLabels (ids.setup first) (ids.test bool last)
        ids.computed (ids'.advance step) o r))
      (.beginFor :: (o.marks ++ [.endFor]))
      (asked ++ (x.beginGroup ids bool first last ++ (o.code ++ x.endGroup ids' step)))
      (fun r => by simp [Outline.marks])
      (fun r => by
        simp [Outline.code, CountedLoop.beginGroup, CountedLoop.endGroup, LoopIds.setup,
          LoopIds.test, LoopIds.advance, CountedLoop.loopLabels])
      (fun r fits' => ⟨⟨plain, by simp [LoopIds.setup, LoopIds.test, LoopIds.advance,
          Instruction.isPlain], fits.plain, fits'.plain⟩, ⟨fits.jumps, fits'.jumps⟩, ordered,
        before.mono gained, tested.mono gained,
        fits.resolves.mono fun id known => wider id (kept id known), stepped.mono wider,
        fits'.resolves.mono wider⟩)
    simpa using ended

theorem Remains.jump (remains : d.Remains held frames now marks code)
    (found : d.loops[l]? = some x) (inside : innermostLoop? (frames.map Frame.scope) = some l) :
    d.Remains held frames now' (.breakLoop :: marks) (asked ++ x.leaveGroup label ++ code) ∧
      d.Remains held frames now' (.continueLoop :: marks) (asked ++ x.nextGroup label ++ code) := by
  have around : d.around frames = some x.loopLabels := by simp [around, inside, found]
  have leaves := remains.prepend (fun r => .straight asked (.leave x.post label r)) [.breakLoop]
    (asked ++ x.leaveGroup label) (fun r => rfl)
    (fun r => by simp [Outline.code, CountedLoop.leaveGroup])
    (fun r fits => ⟨⟨plain, fits.plain⟩, ⟨by rw [around]; rfl, fits.jumps⟩, ordered, trivial⟩)
  have continues := remains.prepend (fun r => .straight asked (.next x.increment label r))
    [.continueLoop] (asked ++ x.nextGroup label) (fun r => rfl)
    (fun r => by simp [Outline.code, CountedLoop.nextGroup])
    (fun r fits => ⟨⟨plain, fits.plain⟩, ⟨by rw [around]; rfl, fits.jumps⟩, ordered, trivial⟩)
  exact ⟨by simpa using leaves, by simpa using continues⟩

end Boundaries

/-- What the code of an event adds to what remains. -/
theorem Piece.remains (sound : d.Sound strict) (orderly : d.Orderly) {action : Action}
    {chunk : List Instruction} (recorded : d.trace.action? k = some action)
    (piece : d.Piece known held k action chunk)
    (remains : d.Remains held (d.trace.framesAt (k + 1)) (known (k + 1)) marks code) :
    d.Remains held (d.trace.framesAt k) (known k) (action.mark?.toList ++ marks) (chunk ++ code) := by
  rw [Trace.framesAt_succ recorded] at remains
  cases piece with
  | plain quiet plain ordered gained =>
    cases action with
    | boundary b => exact absurd rfl (quiet b)
    | load | store => exact remains.straight plain ordered gained
  | @boundary b asked group fresh e plain ordered gained written uses kept =>
    -- The block that is switched or closed was opened at the start of the innermost frame.
    have start : ∀ {f frames}, d.trace.framesAt k = f :: frames → b.opens = false →
        b.isJump = false → d.trace.origin k b = f.start := by
      intro f frames stacked inside lasting
      simp [Trace.origin, stacked, inside, lasting]
    have matching := sound.actions k _ recorded
    cases written with
    | @ifBegin s x condition found =>
      have chosen : held k condition := by
        simp [Selection.beginGroup, Instruction.isLabel, Ordered, Instruction.uses,
          Instruction.result?] at uses
        exact uses
      exact remains.beginIf plain ordered found gained chosen kept
    | @ifElse s x found =>
      obtain ⟨f, frames, stacked, scope⟩ := sound.innermost recorded rfl rfl
      have nested := (Trace.nested_framesAt d.trace k).inside f (by simp [stacked])
      have phase := (orderly.layered sound k).phases f (by simp [stacked])
      have single : f.region = f.start := by
        rw [scope, List.mem_singleton.mp (orderly.paced k _ recorded), Frame.phase] at phase
        by_contra other
        rw [if_neg other] at phase
        contradiction
      rw [start stacked rfl rfl] at kept
      rw [stacked] at remains ⊢
      exact remains.beginElse plain ordered scope found
        ((orderly.switched s x found).mpr ⟨k, recorded⟩) single
        (Nat.ne_of_lt (Nat.lt_of_le_of_lt nested.1 nested.2)) kept
    | @ifEnd s x found =>
      obtain ⟨f, frames, stacked, scope⟩ := sound.innermost recorded rfl rfl
      rw [start stacked rfl rfl] at kept
      rw [stacked] at remains ⊢
      exact remains.endIf plain ordered scope found
        (orderly.switched_at_end sound recorded stacked scope found) kept
    | loopBegin found => exact remains.beginFor plain ordered found gained uses kept
    | @loopEnd l x counter int step found =>
      obtain ⟨f, frames, stacked, scope⟩ := sound.innermost recorded rfl rfl
      rw [start stacked rfl rfl] at uses kept
      rw [stacked] at remains ⊢
      exact remains.endFor plain ordered scope found uses kept
    | leave found => exact (remains.jump plain ordered found matching.2).1
    | next found => exact (remains.jump plain ordered found matching.2).2

section Events

variable (sound : d.Sound strict) (orderly : d.Orderly) (scopes : d.scopes = [])
  {body : Nat → List Instruction} {last : List Instruction}
  (pieces : ∀ k < d.trace.size, ∃ action chunk, d.trace.action? k = some action ∧
    d.Piece known held k action chunk ∧ body (k + 1) = body k ++ chunk)
  (plain : ∀ i ∈ last, i.isPlain = true) (ordered : Ordered (known d.trace.size) last)

include sound orderly scopes pieces plain ordered

/-- All that is written after an event remains there. The induction goes backwards from the last
event. -/
theorem exists_remains (bound : k ≤ d.trace.size) : ∃ marks code,
    marks = (d.trace.actions.drop k).filterMap Action.mark? ∧
      body d.trace.size ++ last = body k ++ code ∧
      d.Remains held (d.trace.framesAt k) (known k) marks code := by
  induction bound using Nat.decreasingInduction with
  | self =>
    have empty : d.trace.framesAt d.trace.size = [] := by
      have stacked := sound.flow.scopes
      rw [scopes] at stacked
      exact List.map_eq_nil_iff.mp stacked.symm
    have finished : d.trace.actions.drop d.trace.size = [] :=
      List.drop_eq_nil_of_le (by simp [Trace.actions, Trace.size])
    have ended : d.Remains held [] (known d.trace.size) _ _ :=
      .outermost (Outline.fits_done.straight plain ordered)
    refine ⟨[], last, by rw [finished]; rfl, rfl, ?_⟩
    rw [empty]
    simpa [Outline.marks, Outline.code] using ended
  | of_succ k bound ih =>
    obtain ⟨marks, code, marked, coded, remains⟩ := ih
    obtain ⟨action, chunk, recorded, piece, grown⟩ := pieces k bound
    refine ⟨action.mark?.toList ++ marks, chunk ++ code, ?_, ?_,
      piece.remains sound orderly recorded remains⟩
    · have recorded' : d.trace.actions[k]? = some action := by
        rw [← recorded]
        simp [Trace.actions, Trace.action?]
      have split : d.trace.actions.drop k = action :: d.trace.actions.drop (k + 1) := by
        rw [List.drop_eq_getElem?_toList_append, recorded']
        rfl
      rw [split, marked]
      cases isMark : action.mark? <;> simp [isMark]
    · rw [coded, grown, List.append_assoc]

/-- The code of all events, in their order, is that of an outline. -/
theorem exists_outline :
    ∃ o : Outline, body d.trace.size ++ last = body 0 ++ o.code ∧
      o.marks = d.trace.actions.filterMap Action.mark? ∧ o.Fits none (known 0) := by
  obtain ⟨marks, code, marked, coded, remains⟩ :=
    exists_remains sound orderly scopes pieces plain ordered (Nat.zero_le _)
  cases remains with
  | outermost fits => exact ⟨_, coded, marked, fits⟩

end Events

end Remains

end Draft

end ShaderIR
