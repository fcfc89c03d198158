import Mathlib.Order.Bounds.Defs
import ShaderIR.Proofs.Frames

/-! The last store before a load. The record keeps the most recent store to each location in a map,
and a load takes its last store from there. What that gives is compared with a scan backwards through
the calls that were made since the record was last cleared. -/
namespace ShaderIR.Trace

inductive Entry where
  | load (place : Place) (value : Handle)
  | store (place : Place) (value : Handle)
  | boundary (boundary : Boundary)
  /-- Forgets everything. -/
  | clear
deriving DecidableEq

def enter (t : Trace) : Entry → Trace
  | .load p h => t.pushLoad p h
  | .store p h => t.pushStore p h
  | .boundary b => t.pushBoundary b
  | .clear => {}

def enterAll (t : Trace) (entries : List Entry) : Trace := entries.foldl enter t

def remember (calls : List Entry) (entry : Entry) : List Entry :=
  if entry = .clear then [] else calls ++ [entry]

/-- The calls since the last one that cleared the record. -/
def sinceClear (entries : List Entry) : List Entry := entries.foldl remember []

def isStore (p : Place) : Option Entry → Bool
  | some (.store q _) => q = p
  | _ => false

/-- The last store to a location among the first calls, by a scan backwards. -/
def lastStoreBefore (calls : List Entry) (p : Place) : Nat → Option Nat
  | 0 => none
  | k + 1 => if isStore p calls[k]? then some k else lastStoreBefore calls p k

/-- The event of a call, with the last store that the scan finds. -/
def actionAt (calls : List Entry) (k : Nat) : Option Action :=
  match calls[k]? with
  | some (.load p h) => some (.load p h (lastStoreBefore calls p k))
  | some (.store p h) => some (.store p h)
  | some (.boundary b) => some (.boundary b)
  | some .clear | none => none

section Scan

variable {calls : List Entry} {p : Place} {k : Nat}

theorem lastStoreBefore_append (more : List Entry) (within : k ≤ calls.length) :
    lastStoreBefore (calls ++ more) p k = lastStoreBefore calls p k := by
  induction k with
  | zero => rfl
  | succ k ih =>
    rw [lastStoreBefore, lastStoreBefore, List.getElem?_append_left within, ih (Nat.le_of_lt within)]

theorem actionAt_append (more : List Entry) (within : k < calls.length) :
    actionAt (calls ++ more) k = actionAt calls k := by
  simp only [actionAt, List.getElem?_append_left within,
    lastStoreBefore_append more (Nat.le_of_lt within)]

theorem isStore_of_lastStoreBefore {j : Nat} (found : lastStoreBefore calls p k = some j) :
    j < k ∧ isStore p calls[j]? = true := by
  induction k with
  | zero => contradiction
  | succ k ih =>
    rw [lastStoreBefore] at found
    split at found
    · rename_i store
      obtain rfl := Option.some.inj found
      exact ⟨Nat.lt_succ_self k, store⟩
    · exact (ih found).imp_left Nat.lt_succ_of_lt

theorem le_lastStoreBefore {i : Nat} (below : i < k) (store : isStore p calls[i]? = true) :
    ∃ j, lastStoreBefore calls p k = some j ∧ i ≤ j := by
  induction k with
  | zero => contradiction
  | succ k ih =>
    rw [lastStoreBefore]
    split
    · exact ⟨k, rfl, Nat.le_of_lt_succ below⟩
    · rename_i other
      refine ih (Nat.lt_of_le_of_ne (Nat.le_of_lt_succ below) ?_)
      rintro rfl
      exact other store

theorem lastStoreBefore_eq_some {j : Nat} : lastStoreBefore calls p k = some j ↔
    IsGreatest {i | i < k ∧ isStore p calls[i]? = true} j := by
  constructor
  · intro found
    refine ⟨isStore_of_lastStoreBefore found, fun i inside => ?_⟩
    obtain ⟨j', found', later⟩ := le_lastStoreBefore inside.1 inside.2
    obtain rfl := Option.mem_unique found found'
    exact later
  · rintro ⟨inside, greatest⟩
    obtain ⟨j', found, later⟩ := le_lastStoreBefore inside.1 inside.2
    rw [found, Nat.le_antisymm later (greatest (isStore_of_lastStoreBefore found))]

theorem lastStoreBefore_eq_none : lastStoreBefore calls p k = none ↔
    ∀ i < k, isStore p calls[i]? = false := by
  constructor
  · intro missing i below
    refine Bool.eq_false_iff.mpr fun store => ?_
    obtain ⟨j, found, _⟩ := le_lastStoreBefore below store
    rw [missing] at found
    contradiction
  · intro others
    cases found : lastStoreBefore calls p k with
    | none => rfl
    | some j =>
      obtain ⟨below, store⟩ := isStore_of_lastStoreBefore found
      rw [others j below] at store
      contradiction

end Scan

structure Follows (t : Trace) (calls : List Entry) : Prop where
  size : t.size = calls.length
  stores : ∀ p, t.stores.find? p = lastStoreBefore calls p calls.length
  actions : ∀ k, t.action? k = actionAt calls k

section Follows

variable {t t' : Trace} {calls : List Entry}

theorem follows_empty : ({} : Trace).Follows [] :=
  ⟨rfl, fun _ => rfl, fun k => by simp [action?, actionAt]⟩

/-- One more event, which the map takes note of if it is a store. -/
theorem Follows.grow (follows : t.Follows calls) {action : Action} (grows : Grows t t' action)
    {entry : Entry} (acts : actionAt (calls ++ [entry]) calls.length = some action)
    (stores : ∀ p, t'.stores.find? p =
      if isStore p (some entry) then some t.size else t.stores.find? p) :
    t'.Follows (calls ++ [entry]) := by
  refine ⟨by rw [grows.size, follows.size, List.length_append]; rfl, fun p => ?_, fun k => ?_⟩
  · rw [stores, follows.size, follows.stores, List.length_append, List.length_singleton,
      lastStoreBefore, List.getElem?_concat_length, lastStoreBefore_append _ (Nat.le_refl _)]
  · rw [grows.action?, follows.size]
    rcases Nat.lt_trichotomy k calls.length with below | rfl | above
    · rw [if_neg (Nat.ne_of_lt below), follows.actions, actionAt_append _ below]
    · rw [if_pos rfl, acts]
    · have missing : calls[k]? = none := List.getElem?_eq_none (Nat.le_of_lt above)
      have beyond : (calls ++ [entry])[k]? = none :=
        List.getElem?_eq_none (by simpa using Nat.succ_le_of_lt above)
      simp only [if_neg (Nat.ne_of_gt above), follows.actions, actionAt, missing, beyond]

theorem Follows.enter (follows : t.Follows calls) (entry : Entry) :
    (t.enter entry).Follows (remember calls entry) := by
  cases entry with
  | clear => exact follows_empty
  | load p h =>
    refine follows.grow (grows_pushLoad p h) ?_ fun _ => rfl
    simp [actionAt, lastStoreBefore_append, follows.stores]
  | store p h =>
    refine follows.grow (grows_pushStore p h) (by simp [actionAt]) fun q => ?_
    simp only [isStore, decide_eq_true_eq]
    exact Assoc.find?_insert ..
  | boundary b =>
    have kept : (t.pushBoundary b).stores = t.stores := by cases b <;> rfl
    exact follows.grow (grows_pushBoundary b) (by simp [actionAt]) fun _ => by rw [kept]; rfl

theorem Follows.enterAll (follows : t.Follows calls) (entries : List Entry) :
    (t.enterAll entries).Follows (entries.foldl remember calls) := by
  induction entries generalizing t calls with
  | nil => exact follows
  | cons entry rest ih => exact ih (follows.enter entry)

end Follows

theorem foldl_remember {entries : List Entry} (kept : .clear ∉ entries) (calls : List Entry) :
    entries.foldl remember calls = calls ++ entries := by
  induction entries generalizing calls with
  | nil => exact (List.append_nil calls).symm
  | cons entry rest ih =>
    rw [List.mem_cons, not_or] at kept
    rw [List.foldl_cons, ih kept.2, remember, if_neg (Ne.symm kept.1), List.append_assoc]
    rfl

/-- Whatever was recorded and cleared, the events are those of the calls since the record was last
cleared, and the last store that a load remembers is the one that a scan backwards from it finds: the
greatest index below it of a store to the same location, and none exactly if there is no such store.
More calls, as long as they do not clear the record, leave that as it is. -/
theorem loads_remember_last_store (entries : List Entry) :
    (∀ k, (enterAll {} entries).action? k = actionAt (sinceClear entries) k) ∧
      (∀ p k j, lastStoreBefore (sinceClear entries) p k = some j ↔
        IsGreatest {i | i < k ∧ isStore p (sinceClear entries)[i]? = true} j) ∧
      (∀ p k, lastStoreBefore (sinceClear entries) p k = none ↔
        ∀ i < k, isStore p (sinceClear entries)[i]? = false) ∧
      ∀ more, .clear ∉ more → ∀ k < (sinceClear entries).length,
        (enterAll {} (entries ++ more)).action? k = (enterAll {} entries).action? k := by
  have follows : ∀ entries, (enterAll {} entries).Follows (sinceClear entries) :=
    follows_empty.enterAll
  refine ⟨(follows entries).actions, fun _ _ _ => lastStoreBefore_eq_some,
    fun _ _ => lastStoreBefore_eq_none, fun more kept k below => ?_⟩
  rw [(follows _).actions, (follows _).actions, sinceClear, List.foldl_append, foldl_remember kept]
  exact actionAt_append more below

/-- Two locations with a store to each, a clearing, and loads before and after the next store. -/
theorem interleaved_remember_last_store :
    let entries : List Entry := [.store ⟨0⟩ ⟨0, 0⟩, .clear, .load ⟨0⟩ ⟨0, 1⟩, .store ⟨0⟩ ⟨1, 2⟩,
      .store ⟨1⟩ ⟨1, 2⟩, .load ⟨0⟩ ⟨2, 3⟩]
    .clear ∉ [Entry.store ⟨0⟩ ⟨2, 3⟩] ∧
      (enterAll {} entries).action? 0 = some (.load ⟨0⟩ ⟨0, 1⟩ none) ∧
      (enterAll {} (entries ++ [.store ⟨0⟩ ⟨2, 3⟩])).action? 3 = some (.load ⟨0⟩ ⟨2, 3⟩ (some 1)) := by
  intro entries
  have kept : .clear ∉ [Entry.store ⟨0⟩ ⟨2, 3⟩] := by decide
  obtain ⟨actions, _, _, later⟩ := loads_remember_last_store entries
  exact ⟨kept, (actions 0).trans (by decide), (later _ kept 3 (by decide)).trans
    ((actions 3).trans (by decide))⟩

end ShaderIR.Trace
