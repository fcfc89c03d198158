import ShaderIR.Proofs.Writable

/-! Why asking comes to an end. Whatever is asked for while something is written was built before it:
there is a rank that falls with every request. So nothing is asked for again while it is being
written, and the levels of asking that a compilation has are as good as any larger number. -/
namespace ShaderIR

variable {below below' : Demand} {n : Node} {h : Handle} {p : Place} {j k m : Nat}
  {data : PlaceData}

inductive Request where
  | value (h : Handle)
  | event (k : Nat)
  | place (p : Place)
deriving DecidableEq

/-- What may be asked for while something is written. -/
inductive Draft.AsksFor (d : Draft) : Request → Request → Prop where
  | argument {h a : Handle} {n : Node} : d.graph.find? h = some n →
      a ∈ d.graph.operandsAt h.slot → AsksFor d (.value h) (.value a)
  | input {h : Handle} {n : Node} {slot : Nat} {i : Input} : d.graph.find? h = some n →
      n.kind = .input slot → d.inputs[slot]? = some i → AsksFor d (.value h) (.place i.place)
  | load {h : Handle} {n : Node} {k : Nat} : d.graph.find? h = some n → n.kind = .load k →
      AsksFor d (.value h) (.event k)
  | root {p root : Place} {links : List Link} : d.places.flatten p = .ok (root, links) →
      links ≠ [] → AsksFor d (.place p) (.place root)
  | index {p root : Place} {links : List Link} {v : Handle} :
      d.places.flatten p = .ok (root, links) → .index v ∈ links → AsksFor d (.place p) (.value v)
  | lastStore {k j : Nat} {p : Place} {h : Handle} :
      d.trace.action? k = some (.load p h (some j)) → AsksFor d (.event k) (.event j)
  | source {k : Nat} {p : Place} {h : Handle} {lastStore : Option Nat} :
      d.trace.action? k = some (.load p h lastStore) → d.Live h → AsksFor d (.event k) (.place p)
  | stored {k : Nat} {p : Place} {h : Handle} : d.trace.action? k = some (.store p h) →
      AsksFor d (.event k) (.value h)
  | target {k : Nat} {p : Place} {h : Handle} : d.trace.action? k = some (.store p h) →
      AsksFor d (.event k) (.place p)
  | hoistedValue {k : Nat} {b : Boundary} (h : Handle) : d.trace.action? k = some (.boundary b) →
      AsksFor d (.event k) (.value h)
  | hoistedPlace {k : Nat} {b : Boundary} (p : Place) : d.trace.action? k = some (.boundary b) →
      AsksFor d (.event k) (.place p)

def Demand.Same (below below' : Demand) : Request → Prop
  | .value h => below.value h = below'.value h
  | .event k => below.event k = below'.event k
  | .place p => below.place p = below'.place p

attribute [ext] Demand

theorem Demand.eq_of_same (same : ∀ r, below.Same below' r) : below = below' :=
  Demand.ext (funext fun h => same (.value h)) (funext fun k => same (.event k))
    (funext fun p => same (.place p))

/-! Only what is needed is asked for. -/

namespace Emit

theorem mapM_congr {α β : Type} {f g : α → Emit β} {items : List α}
    (same : ∀ a ∈ items, f a = g a) : items.mapM f = items.mapM g := by
  induction items with
  | nil => rfl
  | cons a rest ih =>
    rw [List.mapM_cons, List.mapM_cons, same a (by simp), ih fun a member => same a (by simp [member])]

variable {d : Draft}

theorem computedValue_congr {arguments : List Handle}
    (same : ∀ a ∈ arguments, below.value a = below'.value a) :
    computedValue d below n arguments = computedValue d below' n arguments := by
  unfold computedValue
  split
  · rw [same _ (by simp)]
  · rw [lookupValue, lookupValue, same _ (by simp), same _ (by simp)]
  · rw [same _ (by simp), same _ (by simp)]
  · rw [same _ (by simp), same _ (by simp), same _ (by simp)]
  all_goals rfl

theorem nodeValue_congr (found : d.graph.find? h = some n)
    (same : ∀ r, d.AsksFor (.value h) r → below.Same below' r) :
    nodeValue d below h.slot n = nodeValue d below' h.slot n := by
  have arguments : ∀ a ∈ d.graph.operandsAt h.slot, below.value a = below'.value a :=
    fun a member => same _ (.argument found member)
  unfold nodeValue
  cases kind : n.kind with
  | constant => rfl
  | input slot =>
    dsimp only
    unfold inputValue
    cases listed : d.inputs[slot]? with
    | none => rfl
    | some i =>
      dsimp only
      rw [show below.place i.place = _ from same _ (.input found kind listed)]
  | load k =>
    dsimp only
    rw [loadedValue, loadedValue, show below.event k = _ from same _ (.load found kind)]
  | construct =>
    dsimp only
    rw [constructedValue, constructedValue, mapM_congr arguments]
  | unary | binary | select => exact computedValue_congr arguments

theorem value_congr (same : ∀ r, d.AsksFor (.value h) r → below.Same below' r) :
    value d below h = value d below' h := by
  unfold value
  cases found : d.graph.find? h with
  | none =>
    rw [Graph.node, found]
    rfl
  | some n =>
    rw [Graph.node_eq_ok.mpr found, check, pure_bind, pure_bind, nodeValue_congr found same]

theorem place_congr (same : ∀ r, d.AsksFor (.place p) r → below.Same below' r) :
    place d below p = place d below' p := by
  unfold place
  cases flat : d.places.flatten p with
  | error f => rfl
  | ok path =>
    obtain ⟨root, links⟩ := path
    simp only [check, pure_bind]
    cases links with
    | nil => rfl
    | cons link rest =>
      have indices : ∀ l ∈ link :: rest, linkIndex below l = linkIndex below' l := by
        intro l member
        cases l with
        | member => rfl
        | index v => exact same _ (.index flat member)
      rw [show below.place root = _ from same _ (.root flat (by simp)), mapM_congr indices]

theorem event_congr (same : ∀ r, d.AsksFor (.event k) r → below.Same below' r) :
    event d below k = event d below' k := by
  unfold event
  cases recorded : d.trace.action? k with
  | none => rfl
  | some action =>
    cases action with
    | load p h lastStore =>
      have load : loadEvent d below p h none = loadEvent d below' p h none := by
        unfold loadEvent
        cases found : d.graph.find? h with
        | none => rfl
        | some n =>
          have source : below.place p = below'.place p :=
            same _ (.source recorded (Option.isSome_of_eq_some found))
          dsimp only
          rw [source]
      have replay : loadEvent d below p h lastStore = loadEvent d below' p h lastStore := by
        cases lastStore with
        | none => exact load
        | some j =>
          show (below.event j >>= fun _ => loadEvent d below p h none) =
            below'.event j >>= fun _ => loadEvent d below' p h none
          rw [load, show below.event j = _ from same _ (.lastStore recorded)]
      dsimp only
      rw [replay]
    | store p h =>
      dsimp only
      rw [storeEvent, storeEvent, show below.value h = _ from same _ (.stored recorded),
        show below.place p = _ from same _ (.target recorded)]
    | boundary b =>
      have values : below.value = below'.value := funext fun h => same _ (.hoistedValue h recorded)
      have places : below.place = below'.place := funext fun p => same _ (.hoistedPlace p recorded)
      have group : boundaryEvent d below k b = boundaryEvent d below' k b := by
        cases b <;> simp only [boundaryEvent, defineDominating, values, places]
      dsimp only
      rw [group]

end Emit

/-- One level of asking depends on the level below only in what is needed. -/
theorem Demand.above_congr {d : Draft} {r : Request}
    (same : ∀ r', d.AsksFor r r' → below.Same below' r') :
    (above d below).Same (above d below') r := by
  cases r with
  | value h => exact Emit.value_congr same
  | event k => exact Emit.event_congr same
  | place p => exact Emit.place_congr same

/-! What is needed was built before. -/

namespace Draft

section Rank

variable (d : Draft)

def valueRank (h : Handle) : Nat := ((d.graph.find? h).map fun n => 3 * n.id + 1).getD 0

def placeRank (p : Place) : Nat :=
  (((d.places.find? p).filter PlaceData.isChain).map fun data => 3 * data.id + 1).getD 0

def eventRank (k : Nat) : Nat :=
  match d.trace.action? k with
  | some (.load _ h _) => 3 * ((d.graph.find? h).map Node.id).getD d.nextId
  | some (.store p h) => max (d.valueRank h) (d.placeRank p) + 1
  | _ => 3 * d.nextId

/-- How deep asking can go. A load comes between its value and everything built before it, with
the last store in between. Nothing asks for a boundary. -/
def rank : Request → Nat
  | .value h => d.valueRank h
  | .event k => d.eventRank k
  | .place p => d.placeRank p

end Rank

variable {d : Draft} {bound : Id} (positive : 0 < bound)

include positive

theorem rank_le {α : Type} {found : Option α} {id : α → Id}
    (earlier : ∀ a, found = some a → id a < bound) :
    (found.map fun a => 3 * id a + 1).getD 0 + 2 ≤ 3 * bound := by
  cases found with
  | none => exact Nat.le_of_succ_le (Nat.le_mul_of_pos_right 3 positive)
  | some a => exact Nat.mul_le_mul_left 3 (earlier a rfl)

theorem valueRank_le (earlier : ∀ v, d.graph.find? h = some v → v.id < bound) :
    d.valueRank h + 2 ≤ 3 * bound :=
  rank_le positive earlier

theorem placeRank_le
    (earlier : ∀ data, d.places.find? p = some data → data.isChain = true → data.id < bound) :
    d.placeRank p + 2 ≤ 3 * bound :=
  rank_le positive fun data found =>
    earlier data (Option.filter_eq_some_iff.mp found).1 (Option.filter_eq_some_iff.mp found).2

omit positive

theorem valueRank_eq (found : d.graph.find? h = some n) : d.valueRank h = 3 * n.id + 1 := by
  rw [valueRank, found]
  rfl

theorem placeRank_root (rooted : d.Rooted p) : d.placeRank p = 0 := by
  obtain ⟨data, found, root⟩ := rooted
  rw [placeRank, found, Option.filter_some_neg (by simp [PlaceData.isChain, root])]
  rfl

theorem eventRank_load {lastStore : Option Nat}
    (recorded : d.trace.action? k = some (.load p h lastStore)) :
    d.eventRank k = 3 * ((d.graph.find? h).map Node.id).getD d.nextId := by
  rw [eventRank, recorded]

section Steady

variable {strict : Prop} (steady : d.Steady strict)

include steady

theorem Steady.value_le (h : Handle) : d.valueRank h + 2 ≤ 3 * d.nextId :=
  valueRank_le steady.sound.first fun v found => (steady.sound.nodes h v found).id

theorem Steady.place_le (p : Place) : d.placeRank p + 2 ≤ 3 * d.nextId :=
  placeRank_le steady.sound.first fun data found _ => (steady.sound.places p data found).id

theorem Steady.rank_lt (r : Request) : d.rank r < d.levels := by
  have values := steady.value_le
  have places := steady.place_le
  cases r with
  | value h => exact Nat.lt_succ_of_le (Nat.le_of_add_right_le (values h))
  | place p => exact Nat.lt_succ_of_le (Nat.le_of_add_right_le (places p))
  | event k =>
    refine Nat.lt_succ_of_le (?_ : d.eventRank k ≤ 3 * d.nextId)
    unfold eventRank
    split
    · rename_i h _ _
      cases found : d.graph.find? h with
      | none => exact Nat.le_refl _
      | some n => exact Nat.mul_le_mul_left 3 (Nat.le_of_lt (steady.sound.nodes h n found).id)
    · rename_i p h _
      have value := values h
      have place := places p
      omega
    · exact Nat.le_refl _

section Load

variable (found : d.graph.find? h = some n)
  (isLoad : n.kind = .load k)

include found isLoad

theorem Steady.value_before {o : Handle} {v : Node} (known : d.graph.find? o = some v)
    (before : v.position.event < k) : v.id < n.id := by
  refine Nat.lt_of_le_of_ne (steady.timely h n k found isLoad _ _ (.value known) (Nat.le_of_lt before))
    fun same => ?_
  have owners := steady.owned.unique n.id (.value o) (.value h) ⟨v, known, same⟩ ⟨n, found, rfl⟩
  obtain rfl := Owner.value.inj owners
  obtain rfl := Option.mem_unique known found
  exact Nat.lt_irrefl _ (((steady.sound.nodes o v known).load k isLoad).1 ▸ before)

theorem Steady.chain_before (known : d.places.find? p = some data) (isChain : data.isChain = true)
    (before : data.position.event ≤ k) : data.id < n.id := by
  refine Nat.lt_of_le_of_ne (steady.timely h n k found isLoad _ _ (.chain known isChain) before)
    fun same => ?_
  have owners := steady.owned.unique n.id (.place p) (.value h) ⟨data, known, same⟩ ⟨n, found, rfl⟩
  contradiction

theorem Steady.place_before (touches : d.Touches strict p data j) (before : j ≤ k) :
    d.placeRank p + 2 ≤ 3 * n.id := by
  refine placeRank_le (steady.owned.positive n.id (.value h) ⟨n, found, rfl⟩)
    fun data' known isChain => steady.chain_before found isLoad known isChain ?_
  obtain rfl := Option.mem_unique known touches.known
  exact Nat.le_trans touches.ready before

theorem Steady.store_before (stores : d.StoresAt p j) (before : j < k) :
    d.eventRank j < 3 * n.id := by
  obtain ⟨o, recorded⟩ := stores
  obtain ⟨⟨data, touches⟩, uses⟩ := steady.sound.actions j _ recorded
  have place := steady.place_before found isLoad touches (Nat.le_of_lt before)
  have value : d.valueRank o + 2 ≤ 3 * n.id := by
    refine valueRank_le (steady.owned.positive n.id (.value h) ⟨n, found, rfl⟩) fun v known => ?_
    exact steady.value_before found isLoad known (Nat.lt_of_le_of_lt (uses.built v known) before)
  rw [eventRank, recorded]
  dsimp only
  omega

end Load

end Steady

/-- Ranks fall with every request. -/
theorem Steady.falls (steady : d.Steady False) {r r' : Request} (needs : d.AsksFor r r') :
    d.rank r' < d.rank r := by
  have sound := steady.sound
  have path : ∀ {p root links}, d.places.flatten p = .ok (root, links) →
      ∃ data, d.places.find? p = some data ∧ d.places.Path p root links := by
    intro p root links flat
    cases found : d.places.find? p with
    | none =>
      rw [Places.flatten, Places.get, found] at flat
      contradiction
    | some data =>
      obtain ⟨_, _, flat', path⟩ := sound.flatten_path found
      rw [flat, Except.ok.injEq, Prod.mk.injEq] at flat'
      obtain ⟨rfl, rfl⟩ := flat'
      exact ⟨data, rfl, path⟩
  have chained : ∀ {p root links data}, d.places.find? p = some data → d.places.Path p root links →
      links ≠ [] → d.placeRank p = 3 * data.id + 1 := by
    intro p root links data found path linked
    rw [placeRank, found, Option.filter_some_pos (path.isChain found linked)]
    rfl
  cases needs with
  | @argument h a n found member =>
    rw [sound.valid.operandsAt_eq found] at member
    have uses := (sound.nodes h n found).operands a (List.mem_filter.mp member).1
    have le := valueRank_le (steady.owned.positive n.id (.value h) ⟨n, found, rfl⟩) uses.earlier
    rw [rank, rank, valueRank_eq found]
    exact Nat.lt_succ_of_le (Nat.le_of_add_right_le le)
  | @input h n slot i found kind listed =>
    rw [rank, rank, placeRank_root (sound.lists.inputs slot i listed).place, valueRank_eq found]
    exact Nat.succ_pos _
  | @load h n k found kind =>
    obtain ⟨_, p, lastStore, recorded⟩ := (sound.nodes h n found).load k kind
    rw [rank, rank, valueRank_eq found, eventRank_load recorded, found]
    exact Nat.lt_succ_self _
  | @root p root links flat linked =>
    obtain ⟨data, found, path⟩ := path flat
    rw [rank, rank, placeRank_root path.ends, chained found path linked]
    exact Nat.succ_pos _
  | @index p root links v flat member =>
    obtain ⟨data, found, path⟩ := path flat
    have passed := (sound.places p data found).passed.1
    have le := valueRank_le (steady.owned.positive data.id (.place p) ⟨data, found, rfl⟩) (h := v)
      fun n known => (sound.index_due (Nat.le_refl _) path found passed False.elim member known).2
    rw [rank, rank, chained found path (List.ne_nil_of_mem member)]
    exact Nat.lt_succ_of_le (Nat.le_of_add_right_le le)
  | @lastStore k j p h recorded =>
    obtain ⟨_, _, kind, before⟩ := sound.actions k _ recorded
    obtain ⟨before, stores⟩ := before j rfl
    rw [rank, rank, eventRank_load recorded]
    cases found : d.graph.find? h with
    | none =>
      obtain ⟨o, recorded⟩ := stores
      have value := steady.value_le o
      have place := steady.place_le p
      rw [eventRank, recorded]
      show max (d.valueRank o) (d.placeRank p) + 1 < 3 * d.nextId
      omega
    | some n => exact steady.store_before found (kind n found) stores before
  | @source k p h lastStore recorded live =>
    obtain ⟨⟨data, touches⟩, _, kind, _⟩ := sound.actions k _ recorded
    obtain ⟨n, found⟩ := Option.isSome_iff_exists.mp live
    have le := steady.place_before found (kind n found) touches (Nat.le_refl _)
    rw [rank, rank, eventRank_load recorded, found]
    exact Nat.lt_of_succ_le (Nat.le_of_succ_le le)
  | stored recorded =>
    rw [rank, rank, eventRank, recorded]
    exact Nat.lt_succ_of_le (Nat.le_max_left _ _)
  | target recorded =>
    rw [rank, rank, eventRank, recorded]
    exact Nat.lt_succ_of_le (Nat.le_max_right _ _)
  | hoistedValue h recorded =>
    rw [rank, rank, eventRank, recorded]
    exact Nat.lt_of_succ_le (Nat.le_of_succ_le (steady.value_le h))
  | hoistedPlace p recorded =>
    rw [rank, rank, eventRank, recorded]
    exact Nat.lt_of_succ_le (Nat.le_of_succ_le (steady.place_le p))

end Draft

/-! Asking comes to an end. -/

/-- Levels of asking that note what is being written. What is asked for again while it is being
written, and what is asked for when no level is left, is answered in another way. -/
def Demand.guarded (d : Draft) (again : Demand) : Nat → List Request → Demand
  | 0, _ => again
  | levels + 1, active =>
      { value := fun h =>
          if .value h ∈ active then again.value h
          else Emit.value d (guarded d again levels (.value h :: active)) h
        event := fun k =>
          if .event k ∈ active then again.event k
          else Emit.event d (guarded d again levels (.event k :: active)) k
        place := fun p =>
          if .place p ∈ active then again.place p
          else Emit.place d (guarded d again levels (.place p :: active)) p }

namespace Draft

variable {d : Draft} (steady : d.Steady False)

include steady

/-- Below a rank, whatever is asked for has a smaller rank than everything that is being written. -/
theorem Steady.guarded_same (again : Demand) {n : Nat} {active : List Request} {r : Request}
    (enough : d.rank r < n) (enough' : d.rank r < m) (below : ∀ a ∈ active, d.rank r < d.rank a) :
    (Demand.guarded d again n active).Same (demand d m) r := by
  induction n generalizing m active r with
  | zero => exact absurd enough (Nat.not_lt_zero _)
  | succ n ih =>
    obtain ⟨m, rfl⟩ := Nat.exists_eq_succ_of_ne_zero (Nat.ne_zero_of_lt enough')
    have other : r ∉ active := fun member => Nat.lt_irrefl _ (below r member)
    have deeper : ∀ r', d.AsksFor r r' →
        (Demand.guarded d again n (r :: active)).Same (demand d m) r' := by
      intro r' needs
      have falls := steady.falls needs
      refine ih (Nat.lt_of_lt_of_le falls (Nat.le_of_lt_succ enough))
        (Nat.lt_of_lt_of_le falls (Nat.le_of_lt_succ enough')) fun a member => ?_
      rcases List.mem_cons.mp member with rfl | outer
      · exact falls
      · exact Nat.lt_trans falls (below a outer)
    have step := Demand.above_congr deeper
    cases r with
    | value h => exact (if_neg other).trans step
    | event k => exact (if_neg other).trans step
    | place p => exact (if_neg other).trans step

theorem Steady.fixed_same {answers : Demand} (fixed : answers = .above d answers) {r : Request}
    (enough : d.rank r < m) : answers.Same (demand d m) r := by
  induction m generalizing r with
  | zero => exact absurd enough (Nat.not_lt_zero _)
  | succ m ih =>
    rw [fixed]
    exact Demand.above_congr fun r' needs =>
      ih (Nat.lt_of_lt_of_le (steady.falls needs) (Nat.le_of_lt_succ enough))

omit steady

/-- Asking comes to an end, whatever calls were made and whatever was released. The answers are the
only ones that fit what each asks of the others, so no request leads back to itself; and nothing is
asked for again while it is being written, since it makes no difference how that would be answered,
nor how many levels there are. So no load is found to be written without its value. -/
theorem asking_well_founded (settings : Settings) (slots : List Ty) (history : List Call) :
    let d := ((new settings).withSlots slots).after history
    (∀ answers : Demand, answers = .above d answers ↔ answers = demand d d.levels) ∧
      (∀ (again : Demand) (more : Nat),
        Demand.guarded d again (d.levels + more) [] = demand d d.levels) ∧
      d.compilation.result ≠ .error (.controlFlow .loadNotReplayed) ∧
      d.compilation.result ≠ .error .cyclicValue := by
  intro d
  have steady := (lasting_after settings slots history).toSteady
  have guarded : ∀ (again : Demand) (n m : Nat), d.levels ≤ n → d.levels ≤ m →
      Demand.guarded d again n [] = demand d m := fun again n m enough enough' =>
    Demand.eq_of_same fun r => steady.guarded_same again
      (Nat.lt_of_lt_of_le (steady.rank_lt r) enough) (Nat.lt_of_lt_of_le (steady.rank_lt r) enough')
      (by simp)
  refine ⟨fun answers => ⟨fun fixed => ?_, ?_⟩, fun again more => ?_, fun refused => ?_,
    fun refused => ?_⟩
  · exact Demand.eq_of_same fun r => steady.fixed_same fixed (steady.rank_lt r)
  · rintro rfl
    have level := guarded .bottom d.levels d.levels (Nat.le_refl _) (Nat.le_refl _)
    exact level.symm.trans (guarded .bottom d.levels (d.levels + 1) (Nat.le_refl _) (Nat.le_succ _))
  · exact guarded again _ _ (Nat.le_add_right _ _) (Nat.le_refl _)
  · exact (steady.refuses refused).1
  · exact (steady.refuses refused).1

end Draft

end ShaderIR
