import ShaderIR.Proofs.Labels
import ShaderIR.Proofs.Purpose
import ShaderIR.Proofs.Tidy

/-! No id gets two meanings. Ids are taken while a draft is built and while it is compiled, and a
constant may keep the id of a node that stands for it; so for every id that has a meaning it is
recorded where it comes from, and what is about to get a meaning has none. -/
namespace ShaderIR

variable {literal : Literal} {o : Owner} {fresh k' : Nat} {h : Handle} {n : Node} {b : Boundary}
  {id : Id} {i : Instruction} {ids : EntryIds} {group : List Instruction}

def EntryIds.reserved (ids : EntryIds) : List Id := [ids.glsl, ids.function, ids.label]

namespace Emission

def defined (e : Emission) : List Id :=
  (e.declarations.toList ++ e.locals.toList ++ e.body.toList).filterMap Instruction.result?

/-- Whether an id that stands for something has its meaning before an event: the value is held, the
location is reached, or the label is one that an earlier boundary wrote. -/
def Spent (d : Draft) (k : Nat) (e : Emission) (id : Id) : Owner → Prop
  | .value h => (∀ n, d.graph.find? h = some n → ∀ literal, n.kind ≠ .constant literal) ∧
      (e.results.find? h.slot).isSome
  | .place p => p ∈ e.reached
  | .literal _ => False
  | .label _ _ => ∃ event b, event < k ∧ d.trace.action? event = some (.boundary b) ∧
      id ∈ d.writes b

/-- Where an id comes from that has a meaning before an event: it was taken during the compilation,
it stands for something in the draft, or it is the id of a constant that is declared. -/
inductive Source (d : Draft) (k : Nat) (e : Emission) (id : Id) : Prop where
  | taken : e.Taken d id →
      (∀ literal entry, e.constants.find? literal = some entry → entry.id ≠ id) → Source d k e id
  | owned {o : Owner} : d.Owns id o → e.Spent d k id o → Source d k e id
  | literal {l : Literal} : e.IsLiteral l id → Source d k e id

/-- No id has two meanings, and some ids are kept for the entry function. -/
structure Numbered (d : Draft) (k : Nat) (reserved : List Id) (e : Emission) : Prop where
  distinct : (reserved ++ e.defined).Nodup
  sources : ∀ id ∈ reserved ++ e.defined, e.Source d k id

section Sources

variable {strict : Prop} {d : Draft} {k : Nat} {e e' : Emission} {id : Id}

theorem Names.owns (owned : d.Owned) (names : e.Names d literal id) (owns : d.Owns id o) :
    o = .literal literal ∨ ∃ h n, o = .value h ∧ d.graph.find? h = some n ∧
      n.kind = .constant literal := by
  rcases names with taken | other | ⟨h, n, found, kind, same⟩
  · exact absurd (owned.bound _ _ owns) (Nat.not_lt.mpr taken.1)
  · exact .inl (owned.unique _ _ _ owns other)
  · exact .inr ⟨h, n, owned.unique _ _ _ owns ⟨n, found, same⟩, found, kind⟩

theorem Source.positive (owned : d.Owned) (tidy : e.Tidy d) (source : e.Source d k id) :
    0 < id ∧ id < e.nextId := by
  have owns : ∀ {o}, d.Owns id o → 0 < id ∧ id < e.nextId := fun owns =>
    ⟨owned.positive _ _ owns, Nat.lt_of_lt_of_le (owned.bound _ _ owns) tidy.nextId⟩
  cases source with
  | taken taken => exact ⟨Nat.lt_of_lt_of_le owned.first taken.1, taken.2⟩
  | owned other => exact owns other
  | literal known =>
    rcases tidy.literals _ _ known with taken | other | ⟨h, n, found, _, same⟩
    · exact ⟨Nat.lt_of_lt_of_le owned.first taken.1, taken.2⟩
    · exact owns other
    · exact owns (o := .value h) ⟨n, found, same⟩

theorem Spent.grow (spent : e.Spent d k id o) (grows : e.Grows e') (later : k ≤ k') :
    e'.Spent d k' id o := by
  cases o with
  | value => exact ⟨spent.1, grows.result spent.2⟩
  | place => exact grows.reached _ spent
  | literal => exact spent
  | label =>
    obtain ⟨event, b, before, written⟩ := spent
    exact ⟨event, b, Nat.lt_of_lt_of_le before later, written⟩

/-- A step that gives no literal an id that was taken keeps every source. -/
theorem Source.grow (source : e.Source d k id) (grows : e.Grows e') (later : k ≤ k')
    (constants : ∀ literal entry, e'.constants.find? literal = some entry →
      (∃ before, e.constants.find? literal = some before ∧ before.id = entry.id) ∨
        ¬e.Taken d entry.id) : e'.Source d k' id := by
  cases source with
  | taken taken free =>
    refine .taken (grows.taken taken) fun literal entry found same => ?_
    rcases constants literal entry found with ⟨before, found', same'⟩ | untaken
    · exact free literal before found' (same'.trans same)
    · exact untaken (same ▸ taken)
  | owned owns spent => exact .owned owns (spent.grow grows later)
  | literal known => exact .literal (grows.literals _ _ known)

theorem Source.keep (source : e.Source d k id) (grows : e.Grows e') (later : k ≤ k')
    (constants : e'.constants = e.constants) : e'.Source d k' id :=
  source.grow grows later fun _ entry found => .inl ⟨entry, constants ▸ found, rfl⟩

section Absent

variable (owned : d.Owned) (tidy : e.Tidy d)

include owned tidy

theorem absent_next : ¬e.Source d k e.nextId := fun source =>
  Nat.lt_irrefl _ (source.positive owned tidy).2

/-- What an id stands for gives it a meaning once. -/
theorem absent_owned (owns : d.Owns id o) (unspent : ¬e.Spent d k id o)
    (named : ∀ literal, ¬e.Names d literal id) : ¬e.Source d k id := by
  intro source
  cases source with
  | taken taken => exact absurd (owned.bound _ _ owns) (Nat.not_lt.mpr taken.1)
  | owned other spent => exact unspent (owned.unique _ _ _ owns other ▸ spent)
  | literal known => exact named _ (tidy.literals _ _ known)

theorem absent_value (found : d.graph.find? h = some n)
    (kind : ∀ literal, n.kind ≠ .constant literal) (free : e.results.find? h.slot = none) :
    ¬e.Source d k n.id := by
  refine absent_owned owned tidy (o := .value h) ⟨n, found, rfl⟩ (fun spent => ?_)
    fun literal names => kind literal (names.kind owned found)
  have held := spent.2
  rw [free] at held
  contradiction

theorem absent_place {p : Place} {data : PlaceData} (found : d.places.find? p = some data)
    (free : p ∉ e.reached) : ¬e.Source d k data.id := by
  have owns : d.Owns data.id (.place p) := ⟨data, found, rfl⟩
  refine absent_owned owned tidy owns free fun literal names => ?_
  rcases names.owns owned owns with other | ⟨_, _, other, _⟩ <;> contradiction

theorem absent_literal (registered : e.constants.find? literal = some { id }) :
    ¬e.Source d k id := by
  intro source
  have names := tidy.literals literal _ registered
  cases source with
  | taken _ free => exact free literal _ registered rfl
  | owned owns spent =>
    rcases names.owns owned owns with rfl | ⟨h, n, rfl, found, kind⟩
    · exact spent
    · exact spent.1 n found literal kind
  | literal known =>
    obtain rfl := tidy.distinct _ _ _ _ known registered rfl
    rw [IsLiteral, registered] at known
    simp at known

theorem absent_label (proper : d.Proper strict) (recorded : d.trace.action? k = some (.boundary b))
    (member : id ∈ d.writes b) : ¬e.Source d k id := by
  obtain ⟨_, _, _, _, owns, _⟩ := proper.owns_written recorded member
  refine absent_owned owned tidy owns ?_ fun literal names => ?_
  · rintro ⟨event, b', before, recorded', member'⟩
    exact Nat.ne_of_lt before (proper.writes_unique recorded' member' recorded member)
  · rcases names.owns owned owns with other | ⟨_, _, other, _⟩ <;> contradiction

theorem source_next {e' : Emission} (constants : e'.constants = e.constants) (late : e.nextId ≤ id)
    (before : id < e'.nextId) : e'.Source d k' id := by
  refine .taken ⟨Nat.le_trans tidy.nextId late, before⟩ fun literal entry found same => ?_
  rw [constants] at found
  have used := (tidy.literals literal entry found).lt owned tidy
  rw [same] at used
  exact absurd used (Nat.not_lt.mpr late)

end Absent

end Sources

section Step

variable {strict : Prop} {d : Draft} {k : Nat} {bound : Id} {reserved : List Id}
  {e e' : Emission}

/-- What gives new meanings keeps them apart from all others. -/
theorem Numbered.add (numbered : e.Numbered d k reserved) (new : List Id)
    (kept : ∀ id, e.Source d k id → e'.Source d k' id)
    (perm : e'.defined.Perm (new ++ e.defined)) (distinct : new.Nodup)
    (absent : ∀ id ∈ new, ¬e.Source d k id) (sources : ∀ id ∈ new, e'.Source d k' id) :
    e'.Numbered d k' reserved := by
  have moved : (reserved ++ e'.defined).Perm (new ++ (reserved ++ e.defined)) := by
    refine (perm.append_left reserved).trans ?_
    rw [← List.append_assoc, ← List.append_assoc]
    exact List.perm_append_comm.append_right _
  refine ⟨moved.nodup_iff.mpr (List.nodup_append.mpr ⟨distinct, numbered.distinct, ?_⟩), ?_⟩
  · rintro id fresh _ old rfl
    exact absent id fresh (numbered.sources id old)
  · intro id member
    rcases List.mem_append.mp (moved.mem_iff.mp member) with fresh | old
    · exact sources id fresh
    · exact kept id (numbered.sources id old)

theorem Numbered.same (numbered : e.Numbered d k reserved) (defined : e'.defined = e.defined)
    (kept : ∀ id, e.Source d k id → e'.Source d k' id) : e'.Numbered d k' reserved :=
  ⟨defined ▸ numbered.distinct, fun id member => kept id (numbered.sources id (defined ▸ member))⟩

theorem Numbered.push (numbered : e.Numbered d k reserved)
    (kept : ∀ id, e.Source d k id → e'.Source d k' id) (perm : e'.defined.Perm (id :: e.defined))
    (absent : ¬e.Source d k id) (source : e'.Source d k' id) : e'.Numbered d k' reserved := by
  refine numbered.add [id] kept perm (List.nodup_singleton _) ?_ ?_
  · intro other member
    rwa [List.mem_singleton.mp member]
  · intro other member
    rwa [List.mem_singleton.mp member]

theorem defined_push (result : i.result? = some id)
    (pushed : e'.declarations = e.declarations.push i ∧ e'.locals = e.locals ∨
      e'.declarations = e.declarations ∧ e'.locals = e.locals.push i)
    (body : e'.body = e.body) : e'.defined.Perm (id :: e.defined) := by
  refine List.perm_iff_count.mpr fun other => ?_
  rcases pushed with ⟨declarations, locals⟩ | ⟨declarations, locals⟩
  all_goals
    simp only [defined, declarations, locals, body, Array.toList_push, List.filterMap_append,
      List.filterMap_cons, result, List.filterMap_nil, List.count_append, List.count_cons,
      List.count_nil]
    omega

theorem defined_append (group : List Instruction) (declarations : e'.declarations = e.declarations)
    (locals : e'.locals = e.locals) (body : e'.body = e.body ++ group.toArray) :
    e'.defined.Perm (group.filterMap Instruction.result? ++ e.defined) := by
  refine List.perm_iff_count.mpr fun other => ?_
  simp only [defined, declarations, locals, body, Array.toList_append, List.filterMap_append,
    List.count_append]
  omega

theorem defined_write (result : i.result? = some id)
    (declarations : e'.declarations = e.declarations) (locals : e'.locals = e.locals)
    (body : e'.body = e.body.push i) : e'.defined.Perm (id :: e.defined) := by
  have written := defined_append [i] declarations locals
    (by rw [body, Array.push_eq_append])
  rwa [List.filterMap_cons, result, List.filterMap_nil] at written

section Preparing

variable (proper : d.Proper strict) (tidy : e.Tidy d)

include proper tidy

theorem Quiet.numbered (step : Quiet d e e') (numbered : e.Numbered d k reserved) :
    e'.Numbered d k reserved := by
  have grows := step.grows
  have below : ¬e.Taken d e.nextId := fun taken => Nat.lt_irrefl _ taken.2
  cases step with
  | fresh | annotate | decorate =>
    exact numbered.same rfl fun id source => source.keep grows (Nat.le_refl _) rfl
  | announce =>
    exact numbered.push (fun id source => source.keep grows (Nat.le_refl _) rfl)
      (defined_push rfl (.inl ⟨rfl, rfl⟩) rfl) (absent_next proper.owned tidy)
      (source_next proper.owned tidy rfl (Nat.le_refl _) (Nat.lt_succ_self _))
  | register missing =>
    refine numbered.same rfl fun id source => source.grow grows (Nat.le_refl _) ?_
    intro literal entry found
    rw [ConstantTable.find?_register] at found
    split at found
    · obtain rfl := Option.some.inj found
      exact .inr below
    · exact .inl ⟨entry, found, rfl⟩
  | @name h n literal known kind missing =>
    refine numbered.same rfl fun id source => source.grow grows (Nat.le_refl _) ?_
    intro other entry found
    rw [ConstantTable.find?_register] at found
    split at found
    · obtain rfl := Option.some.inj found
      refine .inr fun taken => absurd taken.1 (Nat.not_le.mpr ?_)
      exact proper.owned.bound n.id (.value h) ⟨n, known, rfl⟩
    · exact .inl ⟨entry, found, rfl⟩
  | @declare literal id type registered =>
    refine numbered.push (fun other source => source.grow grows (Nat.le_refl _) ?_)
      (defined_push rfl (.inl ⟨rfl, rfl⟩) rfl) (absent_literal proper.owned tidy registered)
      (.literal ((ConstantTable.find?_declare e.constants literal literal id).trans (if_pos rfl)))
    intro other entry found
    rw [ConstantTable.find?_declare] at found
    split at found
    · rename_i same
      subst same
      obtain rfl := Option.some.inj found
      exact .inl ⟨_, registered, rfl⟩
    · exact .inl ⟨entry, found, rfl⟩

theorem Numbered.reach (numbered : e.Numbered d k reserved) (grows : e.Grows e')
    (constants : e'.constants = e.constants) (found : d.places.find? p = some data)
    (free : p ∉ e.reached) (now : p ∈ e'.reached) (perm : e'.defined.Perm (data.id :: e.defined)) :
    e'.Numbered d k reserved :=
  numbered.push (fun _ source => source.keep grows (Nat.le_refl _) constants) perm
    (absent_place proper.owned tidy found free) (.owned (o := .place p) ⟨_, found, rfl⟩ now)

theorem Prepare.numbered (step : Prepare d e e') (numbered : e.Numbered d k reserved) :
    e'.Numbered d k reserved := by
  have grows := step.grows
  cases step with
  | quiet step => exact step.numbered proper tidy numbered
  | shared found _ _ free =>
    exact numbered.reach proper tidy grows rfl found free List.mem_cons_self
      (defined_push rfl (.inl ⟨rfl, rfl⟩) rfl)
  | own found _ _ free =>
    exact numbered.reach proper tidy grows rfl found free List.mem_cons_self
      (defined_push rfl (.inr ⟨rfl, rfl⟩) rfl)

end Preparing

theorem numbered_start (d : Draft) : (start d).Numbered d 0 [] :=
  ⟨by simp [start, defined], by simp [start, defined]⟩

theorem Enters.numbered (proper : d.Proper strict) (enters : Enters d ids e) :
    e.Numbered d 0 ids.reserved := by
  obtain ⟨e₀, steps, _, signature, function, label, glsl, rfl⟩ := enters
  obtain ⟨tidy, numbered⟩ := keeps_along (P := fun e => e.Tidy d ∧ e.Numbered d 0 [])
    (fun step kept => ⟨step.tidy proper.owned kept.1, step.numbered proper kept.1 kept.2⟩) steps
    ⟨tidy_start proper.owned, numbered_start d⟩
  have grows := grows_entry e₀ (.typeDecl ids.signature (.function ids.void)) 4
  let new := [ids.glsl, ids.function, ids.label, ids.signature]
  have fresh : ∀ id ∈ new, e₀.nextId ≤ id ∧ id < e₀.nextId + 4 := by
    simp [new, signature, function, label, glsl]
  have perm : (ids.reserved ++ Emission.defined { e₀ with
      nextId := e₀.nextId + 4
      declarations := e₀.declarations.push (.typeDecl ids.signature (.function ids.void)) }).Perm
      (new ++ e₀.defined) := by
    apply List.Perm.append_left ids.reserved
    exact defined_push rfl (.inl ⟨rfl, rfl⟩) rfl
  have kept := fun id (source : e₀.Source d 0 id) => source.keep grows (Nat.le_refl 0) rfl
  refine ⟨perm.nodup_iff.mpr (List.nodup_append.mpr ⟨?_, numbered.distinct, ?_⟩), ?_⟩
  · simp [new, signature, function, label, glsl]
  · rintro id member _ old rfl
    exact Nat.not_lt.mpr (fresh id member).1
      ((numbered.sources id old).positive proper.owned tidy).2
  · intro id member
    rcases List.mem_append.mp (perm.mem_iff.mp member) with now | old
    · exact source_next proper.owned tidy rfl (fresh id now).1 (fresh id now).2
    · exact kept id (numbered.sources id old)

section Body

variable (proper : d.Proper strict) (tidy : e.Tidy d)

include proper tidy

theorem Numbered.hold (numbered : e.Numbered d k reserved) (found : d.graph.find? h = some n)
    (kind : ∀ literal, n.kind ≠ .constant literal) (free : e.results.find? h.slot = none)
    (result : i.result? = some n.id) :
    { e with body := e.body.push i, results := e.results.insert h.slot n.id }.Numbered d k
      reserved := by
  refine numbered.push (fun id source => source.keep (grows_hold free i) (Nat.le_refl _) rfl)
    (defined_write result rfl rfl rfl) (absent_value proper.owned tidy found kind free)
    (.owned (o := .value h) ⟨n, found, rfl⟩ ⟨fun n' found' => ?_, ?_⟩)
  · rwa [← Option.mem_unique found found']
  · rw [Assoc.find?_insert_self]
    rfl

omit proper tidy in
theorem Computes.result {type : Id} (computes : e.Computes d n type i) : i.result? = some n.id := by
  cases computes <;> rfl

theorem Ask.numbered (step : Ask strict d k bound e e') (numbered : e.Numbered d k reserved) :
    e'.Numbered d k reserved := by
  have grows := step.grows
  cases step with
  | quiet step => exact step.numbered proper tidy numbered
  | literal => exact numbered.same rfl fun id source => source.keep grows (Nat.le_refl _) rfl
  | compute found _ _ free _ computes =>
    exact numbered.hold proper tidy found computes.not_constant free computes.result
  | chain found _ _ free =>
    exact numbered.reach proper tidy grows rfl found free List.mem_cons_self
      (defined_write rfl rfl rfl rfl)

omit proper tidy in
/-- The ids that the group of a boundary gives a meaning to: labels, and ids taken for it. -/
theorem Group.results (written : e.Group d b fresh group) :
    (group.filterMap Instruction.result?).Perm (d.writes b ++ List.range' e.nextId fresh) := by
  refine List.perm_iff_count.mpr fun id => ?_
  cases written with
  | ifBegin found => rw [(Draft.writes_selection found).1]; rfl
  | ifElse found => rw [(Draft.writes_selection found).2.1]; rfl
  | ifEnd found => rw [(Draft.writes_selection found).2.2]; rfl
  | loopBegin found | loopEnd found =>
    simp only [Draft.writes_loop found, CountedLoop.beginGroup, CountedLoop.endGroup,
      List.filterMap_cons, Instruction.result?, List.filterMap_nil, List.range', List.cons_append,
      List.nil_append, List.count_cons, List.count_nil]
    omega
  | leave | next => rfl

theorem Group.numbered (written : e.Group d b fresh group)
    (recorded : d.trace.action? k = some (.boundary b)) (numbered : e.Numbered d k reserved) :
    { e.advance b with nextId := e.nextId + fresh, body := e.body ++ group.toArray }.Numbered d
      (k + 1) reserved := by
  have early : ∀ id ∈ d.writes b, id < e.nextId := by
    intro id member
    obtain ⟨_, _, _, _, owns, _⟩ := proper.owns_written recorded member
    exact Nat.lt_of_lt_of_le (proper.owned.bound _ _ owns) tidy.nextId
  have late : ∀ id ∈ List.range' e.nextId fresh, e.nextId ≤ id ∧ id < e.nextId + fresh := by
    intro id member
    simpa using member
  refine numbered.add (d.writes b ++ List.range' e.nextId fresh)
    (fun id source => source.keep (grows_boundary e b fresh group) (Nat.le_succ _) rfl) ?_
    (List.nodup_append.mpr ⟨proper.writes_nodup recorded, List.nodup_range', ?_⟩) ?_ ?_
  · refine List.Perm.trans ?_ (written.results.append_right _)
    exact defined_append group rfl rfl rfl
  · rintro id label _ taken rfl
    exact Nat.not_lt.mpr (late id taken).1 (early id label)
  · intro id member source
    rcases List.mem_append.mp member with label | taken
    · exact absent_label proper.owned tidy proper recorded label source
    · exact Nat.not_lt.mpr (late id taken).1 (source.positive proper.owned tidy).2
  · intro id member
    rcases List.mem_append.mp member with label | taken
    · obtain ⟨_, _, _, _, owns, _⟩ := proper.owns_written recorded label
      exact .owned owns ⟨k, b, Nat.lt_succ_self k, recorded, label⟩
    · exact source_next proper.owned tidy rfl (late id taken).1 (late id taken).2

theorem Move.numbered (move : Move strict d k e k' e') (numbered : e.Numbered d k reserved) :
    e'.Numbered d k' reserved := by
  have grows := move.grows
  cases move with
  | prepare step => exact step.numbered proper tidy numbered
  | ask step => exact step.numbered proper tidy numbered
  | mark => exact numbered.same rfl fun id source => source.keep grows (Nat.le_refl _) rfl
  | load _ found fetched _ _ _ free =>
    exact numbered.hold proper tidy found fetched.not_constant free rfl
  | store =>
    refine numbered.same ?_ fun id source => source.keep grows (Nat.le_refl _) rfl
    simp [defined, Instruction.result?]
  | boundary recorded written => exact written.numbered proper tidy recorded numbered
  | pass => exact numbered.same rfl fun id source => source.keep grows (Nat.le_succ _) rfl

end Body

theorem Compiled.numbered (proper : d.Proper strict) {interface : List Id} {stages : Stages}
    (compiled : Compiled strict d ids interface e stages) :
    e.Numbered d d.trace.size ids.reserved :=
  (compiled.keeps (P := fun k e => e.Tidy d ∧ e.Numbered d k ids.reserved)
    (fun move kept => ⟨move.tidy proper.owned kept.1, move.numbered proper kept.1 kept.2⟩)
    proper.sound fun _ enters => ⟨enters.tidy proper.owned, enters.numbered proper⟩).2

end Step

end Emission

end ShaderIR
