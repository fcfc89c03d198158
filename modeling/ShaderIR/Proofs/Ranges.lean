import Mathlib.Data.List.Forall2
import ShaderIR.Proofs.Handles
import ShaderIR.Proofs.Recorded

/-! The ranges of loops. A loop keeps its bounds and its step as values, which are constants of the
range that it was opened for as long as they are there. -/
namespace ShaderIR

variable {l : CountedLoop} {c : Call}

/-- What is related to an item of a list stands at the same index. -/
theorem related_getElem? {α β : Type} {R : α → β → Prop} {as : List α} {bs : List β}
    (related : List.Forall₂ R as bs) {index : Nat} {a : α} (found : as[index]? = some a) :
    ∃ b, bs[index]? = some b ∧ R a b := by
  induction related generalizing index with
  | nil => simp at found
  | cons first _ ih =>
    cases index with
    | zero =>
      obtain rfl := Option.some.inj found
      exact ⟨_, rfl, first⟩
    | succ index => exact ih found

def Call.range? (strict : Bool) : Call → Option (Int32 × Int32)
  | .beginFor first last => (Draft.loopRange strict first last).toOption
  | _ => none

def Draft.ranges (d : Draft) (program : List Call) : List (Int32 × Int32) :=
  (d.accepted program).filterMap (Call.range? d.settings.strictLoopBounds)

namespace Graph

/-- A handle that was given out for a constant. The constant may have been released. -/
structure Means (g : Graph) (h : Handle) (literal : Literal) : Prop where
  given : h.serial < g.nextSerial
  kind : ∀ n, g.find? h = some n → n.kind = .constant literal

variable {g g' : Graph} {h : Handle} {literal : Literal}

theorem Means.evolve (means : g.Means h literal) (evolves : g.Evolves g') : g'.Means h literal := by
  constructor
  · exact Nat.lt_of_lt_of_le means.given evolves.nextSerial
  · intro n' found
    obtain ⟨n, before, kept⟩ := evolves.old h n' means.given found
    rw [kept.same]
    exact means.kind n before

theorem Valid.means_added (valid : g.Valid) {node : Node} (leaf : node.operands = [])
    (kind : node.kind = .constant literal) : (g.added node).Means g.nextHandle literal := by
  constructor
  · rw [added_nextSerial]
    exact Nat.lt_succ_self _
  · intro n found
    rw [valid.find?_added node (by simp [leaf]), if_pos rfl] at found
    rw [← Option.some.inj found]
    exact kind

end Graph

namespace Draft

structure Counts (d : Draft) (l : CountedLoop) (range : Int32 × Int32) : Prop where
  first : d.graph.Means l.first (.int range.1)
  last : d.graph.Means l.last (.int range.2)
  step : d.graph.Means l.step (.int 1)

def Ranged (d : Draft) (ranges : List (Int32 × Int32)) : Prop :=
  List.Forall₂ d.Counts d.loops.toList ranges

section Step

variable {d d' : Draft} {reply : Reply} {ranges : List (Int32 × Int32)}

theorem Counts.evolve {range : Int32 × Int32} (counts : d.Counts l range)
    (evolves : d.graph.Evolves d'.graph) : d'.Counts l range :=
  ⟨counts.first.evolve evolves, counts.last.evolve evolves, counts.step.evolve evolves⟩

theorem Ranged.evolve (ranged : d.Ranged ranges) (evolves : d.graph.Evolves d'.graph)
    (loops : d'.loops = d.loops) : d'.Ranged ranges := by
  rw [Ranged, loops]
  exact ranged.imp fun _ _ counts => counts.evolve evolves

theorem means_withNode (valid : d.graph.Valid) (ty : Ty) (literal : Literal) :
    (d.withNode ty (.constant literal) []).graph.Means d.graph.nextHandle literal :=
  valid.means_added rfl rfl

section Bounds

variable (valid : d.graph.Valid) (low high : Int32)

include valid

theorem means_withBounds :
    (d.withBounds low high).graph.Means d.graph.nextHandle (.int low) ∧
      (d.withBounds low high).graph.Means
        (d.withNode .sint (.constant (.int low)) []).graph.nextHandle (.int high) ∧
      (d.withBounds low high).graph.Means
        ((d.withNode .sint (.constant (.int low)) []).withNode .sint
          (.constant (.int high)) []).graph.nextHandle (.int 1) := by
  have valid₁ := valid_withNode valid .sint (.constant (.int low)) []
  have valid₂ := valid_withNode valid₁ .sint (.constant (.int high)) []
  have second := (evolves_withLeaf valid₁ .sint (.constant (.int high))).graph
  have third := (evolves_withLeaf valid₂ .sint (.constant (.int 1))).graph
  have first' := means_withNode valid .sint (.int low)
  have second' := means_withNode valid₁ .sint (.int high)
  have third' := means_withNode valid₂ .sint (.int 1)
  rw [withBounds]
  generalize ((d.withNode .sint (.constant (.int low)) []).withNode .sint
    (.constant (.int high)) []).withNode .sint (.constant (.int 1)) [] = d₃ at third third' ⊢
  have refs (a b c : Handle) : d₃.graph.Evolves (((d₃.withRef a).withRef b).withRef c).graph :=
    ((evolves_withRef d₃ a).trans ((evolves_withRef _ b).trans (evolves_withRef _ c))).graph
  exact ⟨(first'.evolve (second.trans third)).evolve (refs _ _ _),
    (second'.evolve third).evolve (refs _ _ _), third'.evolve (refs _ _ _)⟩

/-- A loop that is opened counts through the range that it is opened for. -/
theorem counts_withLoop :
    ∃ l, (d.withLoop low high).loops = d.loops.push l ∧
      (d.withLoop low high).Counts l (low, high) := by
  have means := means_withBounds valid low high
  have loops : (d.withBounds low high).loops = d.loops := rfl
  rw [withLoop]
  generalize d.withBounds low high = bounds at means loops
  exact ⟨_, congrArg (Array.push · _) loops, means.1, means.2.1, means.2.2⟩

end Bounds

end Step

end Draft

open Draft

section Effect

variable {d d' : Draft} {reply : Reply} {ranges : List (Int32 × Int32)}

theorem Effect.ranged (effect : Effect d c reply d') (valid : d.graph.Valid)
    (ranged : d.Ranged ranges) :
    d'.Ranged (ranges ++ (c.range? d.settings.strictLoopBounds).toList) := by
  have kept : d'.loops = d.loops → c.range? d.settings.strictLoopBounds = none →
      d'.Ranged (ranges ++ (c.range? d.settings.strictLoopBounds).toList) := by
    intro loops none
    rw [none, Option.toList_none, List.append_nil]
    exact ranged.evolve (effect.evolves valid).graph loops
  cases effect with
  | uniform b | storage b | texture b => cases b <;> exact kept rfl rfl
  | @beginFor _ _ low high accepted =>
    obtain ⟨l, loops, counts⟩ := counts_withLoop valid low high
    have read := evolves_withLoad (valid_withLoop valid low high)
      (d.withBounds low high).places.next .sint
    have opened : (d.withLoop low high).Ranged (ranges ++ [(low, high)]) := by
      have others : List.Forall₂ (d.withLoop low high).Counts d.loops.toList ranges :=
        ranged.imp fun _ _ counts => counts.evolve (evolves_withLoop valid low high).graph
      rw [Ranged, loops, Array.toList_push]
      exact List.rel_append others (.cons counts .nil)
    rw [Call.range?, accepted]
    exact opened.evolve read.graph rfl
  | _ => exact kept rfl rfl

end Effect

namespace Draft

variable {d : Draft} {ranges : List (Int32 × Int32)}

theorem leaves_settings (valid : d.graph.Valid) (building : c.restarts = false) :
    (c.leaves d).settings = d.settings := by
  rcases Call.building_cases valid building with
    ⟨_, _, effect⟩ | ⟨_, _, same⟩ | ⟨value, g, rfl, _, same⟩
  · exact effect.frame.1
  · rw [same]
  · rw [same]

theorem Ranged.leaves (ranged : d.Ranged ranges) (valid : d.graph.Valid)
    (building : c.restarts = false) : (c.leaves d).Ranged (ranges ++ d.ranges [c]) := by
  rcases Call.building_cases valid building with
    ⟨reply, answer, effect⟩ | ⟨⟨fault, answer⟩, _, same⟩ | ⟨value, g, rfl, shrinks, same⟩
  · have opened : d.ranges [c] = (c.range? d.settings.strictLoopBounds).toList := by
      simp only [Draft.ranges, accepted, answer, Except.toBool, if_true, List.append_nil]
      cases made : c.range? d.settings.strictLoopBounds <;> simp [made]
    rw [opened]
    exact effect.ranged valid ranged
  · have opened : d.ranges [c] = [] := by simp [Draft.ranges, accepted, answer, Except.toBool]
    rw [opened, List.append_nil, same]
    exact ranged
  · have opened : d.ranges [.release value] = [] := by
      unfold Draft.ranges accepted
      split <;> simp [accepted, Call.range?]
    rw [opened, List.append_nil, same]
    exact ranged.evolve shrinks.evolves rfl

theorem Ranged.after {calls : List Call} (building : ∀ c ∈ calls, c.restarts = false)
    (issuing : d.Issuing) (ranged : d.Ranged ranges) :
    (d.after calls).Ranged (ranges ++ d.ranges calls) := by
  induction calls generalizing d ranges with
  | nil => simpa [Draft.ranges, accepted, after] using ranged
  | cons c rest ih =>
    have settings := leaves_settings issuing.valid (building c (by simp))
    have next := ranged.leaves issuing.valid (building c (by simp))
    have later := ih (fun b member => building b (List.mem_cons_of_mem c member))
      (issuing.leaves c).1 next
    have split : d.ranges (c :: rest) = d.ranges [c] ++ (c.leaves d).ranges rest := by
      simp only [Draft.ranges, accepted, List.append_nil, List.filterMap_append, settings]
    rwa [split, ← List.append_assoc]

theorem Ranged.range (ranged : d.Ranged ranges) {index : Nat} (found : d.loops[index]? = some l) :
    ∃ range, ranges[index]? = some range ∧ d.Counts l range :=
  related_getElem? ranged (by rwa [Array.getElem?_toList])

theorem Ranged.loop (ranged : d.Ranged ranges) {index : Nat} {range : Int32 × Int32}
    (found : ranges[index]? = some range) : ∃ l, d.loops[index]? = some l ∧ d.Counts l range := by
  obtain ⟨l, stored, counts⟩ := related_getElem? ranged.flip found
  exact ⟨l, by rwa [Array.getElem?_toList] at stored, counts⟩

theorem ranged_begun (settings : Settings) (slots : List Ty) :
    ((new settings).withSlots slots).Ranged [] := by
  have none : ∀ d : Draft, (d.withSlots slots).loops = d.loops := by
    induction slots with
    | nil => exact fun _ => rfl
    | cons ty rest ih => exact fun d => ih (d.withInput ty)
  rw [Ranged, none]
  exact .nil

end Draft

end ShaderIR
