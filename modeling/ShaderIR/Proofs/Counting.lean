import ShaderIR.Proofs.Balance

/-! Histories of a graph. Callers add nodes, take references and drop them again; as long as they
drop only references they hold, or free nodes that have none, every count is exact, and dropping a
last reference frees what nothing else needs and no more. Counts are kept in words: all of this is so
as long as no count gets too big for one. -/
namespace ShaderIR.Graph

variable {h u : Handle} {n : Node} {g g' : Graph} {held held' : List Handle}

inductive Op where
  | add (node : Node)
  | retain (h : Handle)
  | release (h : Handle)

/-- A graph and what its callers have done: the references they hold, and the operands that the
nodes were built with. -/
structure Ledger where
  graph : Graph
  held : List Handle := []
  built : List (Handle × List Handle) := []

/-- A reference may be dropped by a caller who holds one, and a node freed that has none. -/
def Ledger.Due (l : Ledger) (h : Handle) : Prop :=
  h ∈ l.held ∨ ∃ n, l.graph.find? h = some n ∧ n.refs = 0

namespace Ledger

/-- Carries out an operation. One that is refused changes nothing but what it had dropped. -/
def step (l : Ledger) : Op → Ledger
  | .add node =>
      match l.graph.insert node with
      | .ok (g, h) => { l with graph := g, built := (h, node.operands) :: l.built }
      | .error _ => l
  | .retain h =>
      match l.graph.retain h with
      | .ok g => { l with graph := g, held := h :: l.held }
      | .error _ => l
  | .release h =>
      match l.graph.release h with
      | .ok _ g => { l with graph := g, held := l.held.erase h }
      | .error _ g => { l with graph := g }

def run (l : Ledger) : List Op → Ledger
  | [] => l
  | op :: rest => (l.step op).run rest

def Fair (l : Ledger) : List Op → Prop
  | [] => True
  | op :: rest => (∀ h, op = .release h → l.Due h) ∧ (l.step op).Fair rest

end Ledger

/-! What a release removes. -/

/-- A set that a release of a node has to remove if it removes the node: with every node that it
holds it holds the operands that nobody has a reference on and that nodes of the set alone use. -/
structure Closed (g : Graph) (held : List Handle) (v : Handle) (S : Handle → Prop) : Prop where
  root : S v
  operands : ∀ w u, S w → (g.find? w).isSome → u ∈ g.operandsAt w.slot → u ∉ held →
    (∀ k, (g.find? k).isSome → u ∈ g.operandsAt k.slot → S k) → S u

def Removed (g g' : Graph) (h : Handle) : Prop := (g.find? h).isSome ∧ g'.find? h = none

section Removal

variable {g₀ : Graph} {work : List Handle} {v : Handle} {S : Handle → Prop}

theorem exists_consumer (member : u ∈ g.operandList) :
    ∃ k m, g.find? k = some m ∧ u ∈ m.operands := by
  obtain ⟨content, listed, inside⟩ := List.mem_flatMap.mp member
  cases content with
  | none => simp [slotOperands] at inside
  | some m =>
    obtain ⟨slot, stored⟩ := Array.getElem?_of_mem (Array.mem_toList_iff.mp listed)
    exact ⟨⟨slot, m.serial⟩, m, find?_eq_some.mpr ⟨stored, rfl⟩, inside⟩

theorem Shrinks.operands (shrinks : g₀.Shrinks g) (found : g.find? h = some n) :
    ∃ n₀, g₀.find? h = some n₀ ∧ n.operands = n₀.operands := by
  obtain ⟨n₀, before, kept⟩ := shrinks.old h n found
  exact ⟨n₀, before, by rw [kept.same]⟩

/-- While references are dropped, everything that was removed lies in each closed set, and so does
whatever the references to be dropped come from. -/
structure Removing (g₀ : Graph) (held : List Handle) (S : Handle → Prop) (work : List Handle)
    (g : Graph) : Prop where
  start : ∀ h n, g₀.find? h = some n → g₀.operandsAt h.slot = n.operands
  balanced : g.Balanced (work ++ held)
  shrinks : g₀.Shrinks g
  removed : ∀ h, g₀.Removed g h → S h
  pending : ∀ u ∈ work, ∃ w n, S w ∧ g₀.find? w = some n ∧ u ∈ n.operands

section Step

variable (removing : Removing g₀ held S (h :: work) g)
  (found : g.find? h = some n)

include removing found

theorem Removing.drop (shared : 1 < n.refs) :
    Removing g₀ held S work (g.setSlot h.slot (some { n with refs := n.refs - 1 })) := by
  refine ⟨removing.start, removing.balanced.drop found,
    removing.shrinks.trans (shrinks_setSlot found shared), ?_, fun u member => removing.pending u (List.mem_cons_of_mem h member)⟩
  rintro k ⟨there, gone⟩
  refine removing.removed k ⟨there, ?_⟩
  rw [find?_setSlot_refs found] at gone
  split at gone
  · contradiction
  · exact gone

/-- Nothing that is left uses a node with one reference that is to be dropped, so everything that
ever used it was removed before. -/
theorem Removing.inside (closed : g₀.Closed held v S) (last : ¬1 < n.refs) : S h := by
  have counted := removing.balanced.refs h n found
  rw [List.cons_append, List.count_cons_self, List.count_append] at counted
  obtain ⟨w, m, consumer, known, operand⟩ := removing.pending h List.mem_cons_self
  refine closed.operands w h consumer (by simp [known]) (removing.start w m known ▸ operand)
    (List.count_eq_zero.mp (by omega)) fun k there uses => removing.removed k ⟨there, ?_⟩
  by_contra alive
  obtain ⟨m', found'⟩ := Option.ne_none_iff_exists'.mp alive
  obtain ⟨m₀, there', same⟩ := removing.shrinks.operands found'
  rw [removing.start k m₀ there', ← same] at uses
  have member := mem_operandList found' uses
  exact absurd (List.count_pos_iff.mpr member) (by omega)

theorem Removing.free (closed : g₀.Closed held v S) (last : ¬1 < n.refs) :
    Removing g₀ held S (n.operands ++ work) (g.erase h.slot) := by
  have inside := removing.inside found closed last
  have counted := removing.balanced.refs h n found
  rw [List.cons_append, List.count_cons_self, List.count_append] at counted
  refine ⟨removing.start, ?_, removing.shrinks.trans (shrinks_erase found), ?_,
    fun u member => ?_⟩
  · rw [List.append_assoc]
    refine removing.balanced.erase found ?_ (by omega) fun k other => ?_
    · rw [List.count_append]
      omega
    · rw [List.cons_append, List.count_cons_of_ne (Ne.symm other)]
  · rintro k ⟨there, gone⟩
    by_cases same : k = h
    · exact same ▸ inside
    · refine removing.removed k ⟨there, ?_⟩
      by_contra alive
      obtain ⟨m, found'⟩ := Option.ne_none_iff_exists'.mp alive
      rw [find?_erase_of_ne found found' same] at gone
      contradiction
  · rcases List.mem_append.mp member with operand | later
    · obtain ⟨n₀, before, operands⟩ := removing.shrinks.operands found
      exact ⟨h, n₀, inside, before, operands ▸ operand⟩
    · exact removing.pending u (List.mem_cons_of_mem h later)

end Step

theorem Removing.run {steps : Nat} (closed : g₀.Closed held v S)
    (removing : Removing g₀ held S work g) (ran : releaseAll steps work g = .ok () g') :
    Removing g₀ held S [] g' := by
  induction steps generalizing work g with
  | zero =>
    cases work with
    | nil =>
      obtain ⟨_, rfl⟩ := EStateM.Result.ok.inj ran
      exact removing
    | cons h rest => contradiction
  | succ steps ih =>
    cases work with
    | nil =>
      obtain ⟨_, rfl⟩ := EStateM.Result.ok.inj ran
      exact removing
    | cons h rest =>
      obtain ⟨n, found⟩ := Option.isSome_iff_exists.mp (removing.balanced.live h (by simp))
      rw [releaseAll, found] at ran
      dsimp only at ran
      split at ran
      · exact ih (removing.drop found ‹_›) ran
      · rw [removing.balanced.operandsAt found] at ran
        exact ih (removing.free found closed ‹_›) ran

end Removal

/-- An operand that is left is held or used by something that is left: its count does not fall to
zero. -/
theorem Shrinks.operand_removed (shrinks : g.Shrinks g') (balanced : g.Balanced held)
    (balanced' : g'.Balanced held') (used : u ∈ g.operandList) (unheld : u ∉ held')
    (consumers : ∀ k, (g.find? k).isSome → u ∈ g.operandsAt k.slot → g.Removed g' k) :
    g.Removed g' u := by
  refine ⟨balanced.operands u used, ?_⟩
  by_contra alive
  obtain ⟨u', found'⟩ := Option.ne_none_iff_exists'.mp alive
  obtain ⟨u₀, before, kept⟩ := shrinks.old u u' found'
  have positions := List.count_pos_iff.mpr used
  have counted := kept.refs (by rw [balanced.refs u u₀ before]; omega)
  rw [balanced'.refs u u' found', List.count_eq_zero.mpr unheld, Nat.zero_add] at counted
  obtain ⟨k, m', left, uses⟩ := exists_consumer (List.count_pos_iff.mp counted)
  obtain ⟨m, there, same⟩ := shrinks.operands left
  rw [same, ← balanced.operandsAt there] at uses
  have gone := (consumers k (by simp [there]) uses).2
  rw [left] at gone
  contradiction

section Last

variable {v : Handle} (balanced : g.Balanced held)
  (found : g.find? v = some n) (due : v ∈ held ∨ n.refs = 0) (last : n.refs ≤ 1)
  (ran : g.release v = .ok () g')

include balanced found due last ran

/-- Dropping a last reference removes a closed set. -/
theorem Balanced.release_closed (balanced' : g'.Balanced (held.erase v)) (shrinks : g.Shrinks g') :
    g.Closed (held.erase v) v (g.Removed g') := by
  rw [(balanced.release_last found due last).2] at ran
  constructor
  · refine ⟨by simp [found], ?_⟩
    by_contra alive
    obtain ⟨m, found'⟩ := Option.ne_none_iff_exists'.mp alive
    obtain ⟨_, before, _⟩ := ((releaseAll_shrinks _ _ _).1 g' ran).old v m found'
    rw [erase_dead found] at before
    contradiction
  · intro w u _ known operand
    obtain ⟨m, known⟩ := Option.isSome_iff_exists.mp known
    rw [balanced.operandsAt known] at operand
    exact shrinks.operand_removed balanced balanced' (mem_operandList known operand)

/-- It removes nothing that a closed set does not hold. -/
theorem Balanced.release_least {S : Handle → Prop} (closed : g.Closed (held.erase v) v S) :
    ∀ h, g.Removed g' h → S h := by
  obtain ⟨freed, first⟩ := balanced.release_last found due last
  rw [first] at ran
  have start : Removing g (held.erase v) S n.operands (g.erase v.slot) := by
    refine ⟨fun h n => balanced.operandsAt, freed, shrinks_erase found, ?_,
      fun u member => ⟨v, n, closed.root, found, member⟩⟩
    rintro k ⟨there, gone⟩
    obtain ⟨m, known⟩ := Option.isSome_iff_exists.mp there
    by_contra outside
    rw [find?_erase_of_ne found known fun same => outside (same ▸ closed.root)] at gone
    contradiction
  exact (start.run closed ran).removed

end Last

theorem release_shared {v : Handle} (found : g.find? v = some n) (shared : 1 < n.refs)
    (ran : g.release v = .ok () g') (h : Handle) : ¬g.Removed g' h := by
  rw [release, releaseAll, found] at ran
  dsimp only at ran
  rw [if_pos shared, releaseAll] at ran
  obtain ⟨_, rfl⟩ := EStateM.Result.ok.inj ran
  rintro ⟨there, gone⟩
  rw [find?_setSlot_refs found] at gone
  split at gone
  · contradiction
  · simp [gone] at there

/-- What a release does not remove stays in place with its operands. -/
theorem Shrinks.stays (shrinks : g.Shrinks g') (balanced : g.Balanced held)
    (balanced' : g'.Balanced held') {m : Node} (found : g.find? h = some m) (left : ¬g.Removed g' h)
    : ∃ m', g'.find? h = some m' ∧ m' = { m with refs := m'.refs } ∧
      g'.operandsAt h.slot = g.operandsAt h.slot := by
  have alive : g'.find? h ≠ none := fun gone => left ⟨by simp [found], gone⟩
  obtain ⟨m', found'⟩ := Option.ne_none_iff_exists'.mp alive
  obtain ⟨m₀, before, kept⟩ := shrinks.old h m' found'
  obtain rfl := Option.mem_unique found before
  refine ⟨m', found', kept.same, ?_⟩
  rw [balanced'.operandsAt found', balanced.operandsAt found, kept.same]

/-! Histories. -/

theorem insert_live {node : Node} {result : Graph × Handle} (inserted : g.insert node = .ok result)
    : ∀ operand ∈ node.operands, (g.find? operand).isSome := by
  rw [insert_eq] at inserted
  generalize node.operands = operands at inserted
  cases checked : (operands.forM fun h => do let _ ← g.node h : Except Fault PUnit) with
  | error fault =>
    rw [checked] at inserted
    contradiction
  | ok _ =>
    clear inserted
    induction operands with
    | nil => simp
    | cons operand rest ih =>
      rw [List.forM_eq_forM, List.forM_cons, ← List.forM_eq_forM] at checked
      cases found : g.find? operand with
      | none => simp [Graph.node, found, bind, Except.bind] at checked
      | some n =>
        simp only [Graph.node, found, bind, Except.bind, pure, Except.pure] at checked
        simpa [found] using ih checked

namespace Ledger

structure Sound (l : Ledger) : Prop where
  balanced : l.graph.Balanced l.held
  given : ∀ h operands, (h, operands) ∈ l.built → h.serial < l.graph.nextSerial
  built : ∀ h n, l.graph.find? h = some n → ∀ operands,
    (h, operands) ∈ l.built ↔ operands = n.operands

theorem Sound.kept {l : Ledger} (sound : l.Sound) (balanced : g.Balanced held) (evolves :
    l.graph.Evolves g) (serial : g.nextSerial = l.graph.nextSerial) :
    Sound { l with graph := g, held := held } := by
  refine ⟨balanced, fun h operands member => serial ▸ sound.given h operands member,
    fun h n found => ?_⟩
  obtain ⟨n₀, before, kept⟩ := evolves.old h n (serial ▸ balanced.valid.serial_lt found) found
  rw [kept.same]
  exact sound.built h n₀ before

theorem Sound.add {l : Ledger} (sound : l.Sound) (node : Node) : (l.step (.add node)).Sound := by
  rw [step]
  cases inserted : l.graph.insert node with
  | error fault => exact sound
  | ok result =>
    have live := insert_live inserted
    obtain rfl := Except.ok.inj (inserted.symm.trans (insert_ok live))
    have valid := sound.balanced.valid
    have serial := added_nextSerial l.graph node
    refine ⟨sound.balanced.added live, ?_, fun h n found operands => ?_⟩
    · intro h operands member
      dsimp only
      rw [serial]
      rcases List.mem_cons.mp member with new | before
      · obtain ⟨rfl, _⟩ := Prod.mk.inj new
        exact Nat.lt_succ_self _
      · exact Nat.lt_succ_of_lt (sound.given h operands before)
    · rw [List.mem_cons, Prod.mk.injEq]
      by_cases new : h = l.graph.nextHandle
      · rw [valid.find?_added node live, if_pos new] at found
        obtain rfl := Option.some.inj found
        constructor
        · rintro (⟨_, same⟩ | before)
          · exact same
          · have early := sound.given h operands before
            rw [new] at early
            exact absurd early (Nat.lt_irrefl _)
        · intro same
          exact .inl ⟨new, same⟩
      · rw [valid.find?_added node live, if_neg new] at found
        obtain ⟨n₀, before, rfl⟩ := Option.map_eq_some_iff.mp found
        simp [new, sound.built h n₀ before]

theorem Sound.retain {l : Ledger} (sound : l.Sound) (h : Handle) : (l.step (.retain h)).Sound := by
  rw [step]
  cases found : l.graph.find? h with
  | none =>
    rw [retain_stale found]
    exact sound
  | some n =>
    rw [retain_ok found]
    exact sound.kept (sound.balanced.addRef (by simp [found])) (evolves_addRef _ h)
      (addRef_nextSerial _ h)

theorem Sound.found {l : Ledger} (sound : l.Sound) (due : l.Due h) :
    ∃ n, l.graph.find? h = some n ∧ (h ∈ l.held ∨ n.refs = 0) := by
  rcases due with held | ⟨n, found, none⟩
  · obtain ⟨n, found⟩ := Option.isSome_iff_exists.mp (sound.balanced.live h held)
    exact ⟨n, found, .inl held⟩
  · exact ⟨n, found, .inr none⟩

theorem Sound.releases {l : Ledger} (sound : l.Sound) (due : l.Due h) :
    ∃ g, l.graph.release h = .ok () g ∧ g.Balanced (l.held.erase h) ∧ l.graph.Shrinks g := by
  obtain ⟨g, ran, balanced⟩ : ∃ g, l.graph.release h = .ok () g ∧
      g.Balanced (l.held.erase h) := by
    by_cases member : h ∈ l.held
    · exact (sound.balanced.perm (List.perm_cons_erase member)).release
    · rcases due with held | ⟨n, found, none⟩
      · contradiction
      · rw [List.erase_of_not_mem member]
        exact sound.balanced.release_unreferenced found none
  exact ⟨g, ran, balanced, (releaseAll_shrinks _ _ _).1 g ran⟩

theorem Sound.release {l : Ledger} (sound : l.Sound) (due : l.Due h) :
    (l.step (.release h)).Sound := by
  obtain ⟨g, ran, balanced, shrinks⟩ := sound.releases due
  rw [step, ran]
  exact sound.kept balanced shrinks.evolves shrinks.nextSerial

theorem Sound.run {l : Ledger} (sound : l.Sound) {ops : List Op} (fair : l.Fair ops) :
    (l.run ops).Sound := by
  induction ops generalizing l with
  | nil => exact sound
  | cons op rest ih =>
    obtain ⟨due, later⟩ := fair
    refine ih ?_ later
    cases op with
    | add node => exact sound.add node
    | retain h => exact sound.retain h
    | release h => exact sound.release (due h rfl)

theorem sound_empty (serial : Nat) : Sound { graph := { nextSerial := serial } } := by
  refine ⟨balanced_empty serial, by simp, fun h n found => ?_⟩
  simp [find?] at found

end Ledger

/-! Counts in words. -/

/-- What fills the operand positions of all nodes. -/
def positions (g : Graph) : List Handle := g.handles.flatMap fun k => g.operandsAt k.slot

theorem Balanced.positions_eq (balanced : g.Balanced held) : g.positions = g.operandList := by
  have each : ∀ contents : List (Option Node × Nat),
      (∀ content ∈ contents, g.slots[content.2]? = some content.1) →
      (contents.filterMap fun content => content.1.map fun node =>
        Handle.mk content.2 node.serial).flatMap (fun k => g.operandsAt k.slot) =
        (contents.map Prod.fst).flatMap slotOperands := by
    intro contents stored
    induction contents with
    | nil => rfl
    | cons content rest ih =>
      obtain ⟨node?, slot⟩ := content
      have others := ih fun content member => stored content (List.mem_cons_of_mem _ member)
      cases node? with
      | none => exact others
      | some n =>
        have found : g.find? ⟨slot, n.serial⟩ = some n :=
          find?_eq_some.mpr ⟨stored _ List.mem_cons_self, rfl⟩
        have first := balanced.operandsAt found
        simp only [List.filterMap_cons, Option.map_some, List.flatMap_cons, others, first]
        rfl
  have all := each g.slots.toList.zipIdx fun content member => by
    rw [← Array.getElem?_toList]
    exact List.mem_zipIdx_iff_getElem?.mp member
  rw [List.zipIdx_map_fst] at all
  exact all

/-- A graph whose counts, serials and positions are words. What does not fit wraps around. -/
def wrapped (g : Graph) : Graph where
  slots := g.slots.map (Option.map fun n => { n with refs := n.refs % UInt32.size })
  edges := g.edges.map fun e => { e with position := e.position % UInt32.size }
  free := g.free
  nextSerial := g.nextSerial % UInt32.size

structure Fits (g : Graph) : Prop where
  refs : ∀ n, some n ∈ g.slots → n.refs < UInt32.size
  positions : ∀ e ∈ g.edges, e.position < UInt32.size
  serial : g.nextSerial < UInt32.size

theorem Fits.wrapped_eq (fits : g.Fits) : g.wrapped = g := by
  have slots : g.slots.map (Option.map fun n => { n with refs := n.refs % UInt32.size }) =
      g.slots := by
    refine (Array.map_congr_left fun content member => ?_).trans (Array.map_id' _)
    cases content with
    | none => rfl
    | some n => rw [Option.map_some, Nat.mod_eq_of_lt (fits.refs n member)]
  have edges : (g.edges.map fun e => { e with position := e.position % UInt32.size }) = g.edges := by
    refine (List.map_congr_left fun e member => ?_).trans (List.map_id' _)
    rw [Nat.mod_eq_of_lt (fits.positions e member)]
  rw [wrapped, slots, edges, Nat.mod_eq_of_lt fits.serial]

namespace Ledger

/-- Carries out an operation in words. -/
def wordStep (l : Ledger) (op : Op) : Ledger :=
  { l.step op with graph := (l.step op).graph.wrapped }

def wordRun (l : Ledger) : List Op → Ledger
  | [] => l
  | op :: rest => (l.wordStep op).wordRun rest

/-- No count, serial or position gets too big for a word. -/
def Fits (l : Ledger) : List Op → Prop
  | [] => True
  | op :: rest => (l.step op).graph.Fits ∧ (l.step op).Fits rest

theorem Fits.wordRun_eq {l : Ledger} {ops : List Op} (fits : l.Fits ops) :
    l.wordRun ops = l.run ops := by
  induction ops generalizing l with
  | nil => rfl
  | cons op rest ih =>
    have step : l.wordStep op = l.step op := by rw [wordStep, fits.1.wrapped_eq]
    rw [wordRun, run, step, ih fits.2]

end Ledger

/-- After every fair history whose counts fit in words, each count is exact, the edges of each node
give the operands that it was built with, every reference that may be dropped can be dropped, and
dropping a last reference removes the least set of nodes that it has to remove and changes nothing of
the others but their counts. -/
theorem references_exact (serial : Nat) {ops : List Op} {l : Ledger}
    (reached : Ledger.wordRun { graph := { nextSerial := serial } } ops = l)
    (fair : Ledger.Fair { graph := { nextSerial := serial } } ops)
    (fits : Ledger.Fits { graph := { nextSerial := serial } } ops) :
    (∀ h n, l.graph.find? h = some n →
      n.refs = l.held.count h + l.graph.positions.count h ∧
      (∀ operands, (h, operands) ∈ l.built ↔ operands = l.graph.operandsAt h.slot) ∧
      ∀ operand ∈ l.graph.operandsAt h.slot, (l.graph.find? operand).isSome) ∧
    ∀ v, l.Due v → ∃ n g', l.graph.find? v = some n ∧ l.graph.release v = .ok () g' ∧
      (∀ h m, l.graph.find? h = some m → ¬l.graph.Removed g' h →
        ∃ m', g'.find? h = some m' ∧ m' = { m with refs := m'.refs } ∧
          g'.operandsAt h.slot = l.graph.operandsAt h.slot) ∧
      (1 < n.refs → ∀ h, ¬l.graph.Removed g' h) ∧
      (n.refs ≤ 1 → l.graph.Closed (l.held.erase v) v (l.graph.Removed g') ∧
        ∀ S, l.graph.Closed (l.held.erase v) v S → ∀ h, l.graph.Removed g' h → S h) := by
  rw [fits.wordRun_eq] at reached
  subst reached
  have sound := (Ledger.sound_empty serial).run fair
  constructor
  · intro h n found
    rw [sound.balanced.operandsAt found, sound.balanced.positions_eq]
    exact ⟨sound.balanced.refs h n found, sound.built h n found,
      fun operand member => sound.balanced.operands operand (mem_operandList found member)⟩
  · intro v due
    obtain ⟨n, found, due'⟩ := sound.found due
    obtain ⟨g', ran, balanced, shrinks⟩ := sound.releases due
    exact ⟨n, g', found, ran, fun h m => shrinks.stays sound.balanced balanced,
      fun shared => release_shared found shared ran,
      fun last => ⟨sound.balanced.release_closed found due' last ran balanced shrinks,
        fun _ => sound.balanced.release_least found due' last ran⟩⟩

/-- A product of a sum and one of its terms, on which the caller has two references and drops one.
The sum uses the term twice, and the caller keeps the term. -/
def sharesOperand : List Op :=
  let node (id : Id) (kind : NodeKind) (operands : List Handle) : Op :=
    .add { id, ty := .int 32 true, kind, operands, position := {} }
  [node 1 (.input 0) [], node 2 (.binary .add) [⟨0, 0⟩, ⟨0, 0⟩],
    node 3 (.binary .mul) [⟨1, 1⟩, ⟨0, 0⟩], .retain ⟨2, 2⟩, .retain ⟨0, 0⟩, .retain ⟨2, 2⟩,
    .release ⟨2, 2⟩]

instance (g : Graph) : Decidable g.Fits :=
  decidable_of_iff ((∀ content ∈ g.slots, ∀ n ∈ content, n.refs < UInt32.size) ∧
    (∀ e ∈ g.edges, e.position < UInt32.size) ∧ g.nextSerial < UInt32.size)
    ⟨fun ⟨refs, positions, serial⟩ => ⟨fun n member => refs _ member n rfl, positions, serial⟩,
      fun fits => ⟨fun _ member n same => fits.refs n (same ▸ member), fits.positions,
        fits.serial⟩⟩

instance Ledger.decideFits (l : Ledger) : (ops : List Op) → Decidable (l.Fits ops)
  | [] => .isTrue trivial
  | op :: rest =>
      have : Decidable ((l.step op).Fits rest) := decideFits (l.step op) rest
      inferInstanceAs (Decidable (_ ∧ _))

theorem sharesOperand_exact :
    let l := Ledger.wordRun { graph := {} } sharesOperand
    Ledger.Fair { graph := {} } sharesOperand ∧ Ledger.Fits { graph := {} } sharesOperand ∧
      l.graph.operandsAt 1 = [⟨0, 0⟩, ⟨0, 0⟩] ∧ l.Due ⟨2, 2⟩ ∧
      ∃ g', l.graph.release ⟨2, 2⟩ = .ok () g' ∧
        l.graph.Closed [⟨0, 0⟩] ⟨2, 2⟩ (l.graph.Removed g') ∧
        ∀ S, l.graph.Closed [⟨0, 0⟩] ⟨2, 2⟩ S → ∀ h, l.graph.Removed g' h → S h := by
  have fair : Ledger.Fair { graph := {} } sharesOperand := by
    refine ⟨nofun, nofun, nofun, nofun, nofun, nofun, ?_, trivial⟩
    rintro h same
    obtain rfl := Op.release.inj same
    exact .inl (by decide +kernel)
  have fits : Ledger.Fits { graph := {} } sharesOperand := by decide +kernel
  have due : (Ledger.wordRun { graph := {} } sharesOperand).Due ⟨2, 2⟩ := .inl (by decide +kernel)
  have kept : (Ledger.wordRun { graph := {} } sharesOperand).held.erase ⟨2, 2⟩ = [⟨0, 0⟩] := by
    decide +kernel
  obtain ⟨_, dropped⟩ := references_exact 0 rfl fair fits
  obtain ⟨n, g', found, ran, _, _, least⟩ := dropped ⟨2, 2⟩ due
  have last : (Ledger.wordRun { graph := {} } sharesOperand).graph.find? ⟨2, 2⟩ |>.all
      (·.refs ≤ 1) := by
    decide +kernel
  rw [found, Option.all_some, decide_eq_true_iff] at last
  exact ⟨fair, fits, by decide +kernel, due, g', ran, kept ▸ least last⟩

end ShaderIR.Graph
