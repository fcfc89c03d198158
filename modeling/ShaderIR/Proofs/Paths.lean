import ShaderIR.Proofs.SoundSteps

/-! The way from a variable to a location. A location is a variable or a part of another location;
the walk to its variable always ends, and every value that an index on the way uses was there before
the location. -/
namespace ShaderIR

variable {ps : Places} {p root : Place} {links : List Link} {data : PlaceData} {h : Handle}
  {id : Id} {n v : Node} {position : Position}

inductive Places.Path (ps : Places) : Place → Place → List Link → Prop where
  | root {p : Place} {data : PlaceData} : ps.find? p = some data → data.origin = .root →
      Path ps p p []
  | chain {p parent root : Place} {data : PlaceData} {link : Link} {links : List Link} :
      ps.find? p = some data → data.origin = .chain parent link → Path ps parent root links →
      Path ps p root (links ++ [link])

theorem Places.Path.ends (path : ps.Path p root links) :
    ∃ data, ps.find? root = some data ∧ data.origin = .root := by
  induction path with
  | root found origin => exact ⟨_, found, origin⟩
  | chain _ _ _ ih => exact ih

theorem Places.Path.of_nil (path : ps.Path p root []) : p = root := by
  generalize none : ([] : List Link) = links at path
  cases path with
  | root => rfl
  | chain => simp at none

theorem Places.Path.isChain (path : ps.Path p root links) (found : ps.find? p = some data)
    (linked : links ≠ []) : data.isChain = true := by
  cases path with
  | root => contradiction
  | chain found' origin =>
    obtain rfl := Option.mem_unique found found'
    rw [PlaceData.isChain, origin]

theorem Places.Path.unique {root' : Place} {links' : List Link} (path : ps.Path p root links)
    (path' : ps.Path p root' links') : root' = root ∧ links' = links := by
  induction path generalizing root' links' with
  | root found origin =>
    cases path' with
    | root => exact ⟨rfl, rfl⟩
    | chain found' origin' _ =>
      rw [found, Option.some.injEq] at found'
      subst found'
      rw [origin] at origin'
      contradiction
  | chain found origin _ ih =>
    cases path' with
    | root found' origin' =>
      rw [found, Option.some.injEq] at found'
      subst found'
      rw [origin] at origin'
      contradiction
    | chain found' origin' rest =>
      rw [found, Option.some.injEq] at found'
      subst found'
      rw [origin, Origin.chain.injEq] at origin'
      obtain ⟨rfl, rfl⟩ := origin'
      obtain ⟨rfl, rfl⟩ := ih rest
      exact ⟨rfl, rfl⟩

namespace Draft

variable {strict : Prop} {d : Draft} (sound : d.Sound strict)

include sound

theorem Sound.walk_path {steps : Nat} (found : d.places.find? p = some data)
    (depth : data.depth = steps) (after : List Link) :
    ∃ root links, d.places.walk steps p after = .ok (root, links ++ after) ∧
      d.places.Path p root links := by
  induction steps generalizing p data after with
  | zero =>
    have place := sound.places p data found
    cases origin : data.origin with
    | root =>
      have := place.root origin
      omega
    | chain parent link =>
      obtain ⟨above, _, _, deeper, _⟩ := place.chain parent link origin
      omega
  | succ steps ih =>
    have get : d.places.get p = .ok data := Places.get_eq_ok.mpr found
    have place := sound.places p data found
    cases origin : data.origin with
    | root =>
      refine ⟨p, [], ?_, .root found origin⟩
      rw [Places.walk, get]
      simp only [Bind.bind, Except.bind, origin]
      rfl
    | chain parent link =>
      obtain ⟨above, known, _, deeper, _⟩ := place.chain parent link origin
      obtain ⟨root, links, walked, path⟩ := ih known (by omega) (link :: after)
      refine ⟨root, links ++ [link], ?_, .chain found origin path⟩
      rw [Places.walk, get]
      simp only [Bind.bind, Except.bind, origin]
      rw [walked, List.append_assoc]
      rfl

theorem Sound.flatten_path (found : d.places.find? p = some data) :
    ∃ root links, d.places.flatten p = .ok (root, links) ∧ d.places.Path p root links := by
  obtain ⟨root, links, walked, path⟩ := sound.walk_path found rfl []
  refine ⟨root, links, ?_, path⟩
  have get : d.places.get p = .ok data := Places.get_eq_ok.mpr found
  rw [Places.flatten, get]
  show d.places.walk data.depth p [] = _
  rw [walked, List.append_nil]

theorem Sound.root_earlier (path : d.places.Path p root links) {base : PlaceData}
    (found : d.places.find? p = some data) (rootFound : d.places.find? root = some base) :
    links = [] ∧ p = root ∨ base.id < data.id := by
  induction path generalizing data with
  | root => exact .inl ⟨rfl, rfl⟩
  | @chain p parent root data' link links found' origin path ih =>
    obtain rfl := Option.mem_unique found found'
    obtain ⟨above, aboveFound, earlier, _⟩ := (sound.places p data found).chain parent link origin
    rcases ih aboveFound rootFound with ⟨_, rfl⟩ | below
    · obtain rfl := Option.mem_unique aboveFound rootFound
      exact .inr earlier
    · exact .inr (Nat.lt_trans below earlier)

end Draft

/-! What may be written at an event. -/

/-- A value that can be written at an event: what it needs was recorded before, something uses it,
and in a strict program it is in scope. -/
structure Node.Due (n : Node) (strict : Prop) (t : Trace) (k : Nat) : Prop where
  ready : n.ready ≤ k
  held : (∃ literal, n.kind = .constant literal) ∨ 0 < n.refs
  available : strict → n.Available t k

structure PlaceData.Due (data : PlaceData) (strict : Prop) (t : Trace) (k : Nat) : Prop where
  ready : data.position.event ≤ k
  accessed : data.accessed = true
  available : strict → data.Available t k

namespace Draft

variable {strict : Prop} {d : Draft} {k : Nat}

theorem Uses.due (uses : d.Uses strict h id k) (found : d.graph.find? h = some n) :
    n.Due strict d.trace k :=
  ⟨uses.ready n found, .inr (uses.held n found), uses.available n found⟩

theorem Touches.due (touches : d.Touches strict p data k) : data.Due strict d.trace k :=
  ⟨touches.ready, touches.accessed, touches.available⟩

variable (sound : d.Sound strict) (bound : k ≤ d.trace.size)

include sound bound

theorem Sound.available_through (passed : d.Passed position)
    (through : d.trace.OpenAt position.region k) (available : n.Available d.trace position.event) :
    n.Available d.trace k := by
  refine available.imp_right fun rest => rest.imp_right fun inner => ?_
  rw [passed.2] at through
  exact sound.flow.trace.openAt_through passed.1 bound through inner

/-- What uses a value can be written only where the value can be. -/
theorem Sound.due_through (passed : d.Passed position) (before : position.event ≤ k)
    (through : strict → d.trace.OpenAt position.region k) (uses : d.Uses strict h id position.event)
    (found : d.graph.find? h = some n) : n.Due strict d.trace k where
  ready := Nat.le_trans (uses.ready n found) before
  held := .inr (uses.held n found)
  available required := sound.available_through bound passed (through required)
    (uses.available n found required)

theorem Sound.operand_due (found : d.graph.find? h = some n) (due : n.Due strict d.trace k)
    (computed : n.ready = n.position.event) (inner : ∀ slot, n.kind ≠ .input slot)
    (notLiteral : ∀ literal, n.kind ≠ .constant literal) {o : Handle} (member : o ∈ n.operands)
    (known : d.graph.find? o = some v) : v.Due strict d.trace k ∧ v.id < n.id := by
  have node := sound.nodes h n found
  have uses := node.operands o member
  refine ⟨sound.due_through bound node.passed (computed ▸ due.ready) (fun required => ?_) uses known,
    uses.earlier v known⟩
  rcases due.available required with ⟨literal, isLiteral⟩ | ⟨slot, isInput⟩ | through
  · exact absurd isLiteral (notLiteral literal)
  · exact absurd isInput (inner slot)
  · exact through

theorem Sound.index_due (path : d.places.Path p root links) (found : d.places.find? p = some data)
    (before : data.position.event ≤ k) (available : strict → data.Available d.trace k)
    {value : Handle} (member : .index value ∈ links) (known : d.graph.find? value = some v) :
    v.Due strict d.trace k ∧ v.id < data.id := by
  induction path generalizing data with
  | root => simp at member
  | @chain p parent root data' link links found' origin path ih =>
    obtain rfl := Option.mem_unique found found'
    have place := sound.places p data found
    have through : strict → d.trace.OpenAt data.position.region k := by
      intro required
      rcases available required with isRoot | through
      · rw [origin] at isRoot
        contradiction
      · exact through
    rcases List.mem_append.mp member with inside | last
    · obtain ⟨above, aboveFound, earlier, _, aboveBefore, aboveAvailable⟩ :=
        place.chain parent link origin
      have inner := ih aboveFound (Nat.le_trans aboveBefore before) (fun required => ?_) inside
      · exact ⟨inner.1, Nat.lt_trans inner.2 earlier⟩
      · refine (aboveAvailable required).imp_right fun inner => ?_
        have open_ := through required
        rw [place.passed.2] at open_
        exact sound.flow.trace.openAt_through place.passed.1 bound open_ inner
    · obtain rfl := List.mem_singleton.mp last
      have uses := place.index parent value origin
      exact ⟨sound.due_through bound place.passed before through uses known,
        uses.earlier v known⟩

end Draft

end ShaderIR
