import Mathlib.Data.List.Pairwise
import ShaderIR.Proofs.Visible

/-! Definitions dominate uses. Every block of an outline is given what is known at its start, such
that a block leads only to blocks at whose start no more is known than at its own end. So every path
to a block passes all that gives a meaning to what is known there. -/
namespace ShaderIR

variable {code path rest : List Instruction} {i j : Instruction} {id : Id}

namespace Instruction

def isTerminator : Instruction → Bool
  | .branch _ | .branchConditional _ _ _ | .returnVoid => true
  | _ => false

def targets : Instruction → List Id
  | .branch target => [target]
  | .branchConditional _ accept reject => [accept, reject]
  | _ => []

end Instruction

/-- A path through the code of a function, from its begin to an instruction. It is given by the code
from that instruction on and by the instructions that it passed. -/
inductive Passes (code : List Instruction) : List Instruction → List Instruction → Prop where
  | start : Passes code code []
  | next {i : Instruction} {rest path : List Instruction} : Passes code (i :: rest) path →
      i.isTerminator = false → Passes code rest (path ++ [i])
  | jump {i : Instruction} {rest path rest' : List Instruction} {target : Id} :
      Passes code (i :: rest) path → target ∈ i.targets → (.label target :: rest') <:+ code →
      Passes code (.label target :: rest') (path ++ [i])

namespace Site

def Resolved (s : Site) : Prop :=
  Ordered s.known (s.block.code ++ s.block.exit.instructions)

end Site

namespace Outline

theorem resolves_everything (o : Outline) : o.Resolves fun _ => True := by
  have all : ∀ {known : Id → Prop}, (∀ id, known id) → o.Resolves known := by
    have ordered : ∀ {known : Id → Prop} (code : List Instruction), (∀ id, known id) →
        Ordered known code := fun code all => ordered_of_known fun _ _ id _ => all id
    induction o with
    | done | leave | next => exact fun _ => trivial
    | straight code rest ih => exact fun all => ⟨ordered code all, ih fun id => .inl (all id)⟩
    | when condition accept merge inside rest inner outer =>
      exact fun all => ⟨all _, inner all, outer all⟩
    | either condition accept reject merge first second rest left right outer =>
      exact fun all => ⟨all _, left all, right all, outer all⟩
    | loop l setup test condition step inside rest inner outer =>
      intro known all
      have tested : ∀ id, Gained known (setup ++ test) id := fun id => .inl (all id)
      exact ⟨ordered _ all, tested _, inner tested, ordered _ tested, outer tested⟩
  exact all fun _ => trivial

theorem resolved_sites {o : Outline} {known : Id → Prop} (label : Id) (onward : Option Id)
    (ordered : Ordered known code) (resolves : o.Resolves (Gained known code)) :
    ∀ s ∈ o.sites known label code onward, s.Resolved := by
  have jumps : ∀ {known : Id → Prop} {target : Id},
      Ordered known (Exit.jump target).instructions := by
    simp [Exit.instructions, Ordered, Instruction.uses]
  have empty : ∀ {known : Id → Prop}, Ordered known [] := trivial
  induction o generalizing known label code onward with
  | done =>
    intro s member
    rw [List.mem_singleton.mp member]
    refine ordered.append ?_
    cases onward <;> simp [Exit.onward, Exit.instructions, Ordered, Instruction.uses]
  | straight more rest ih =>
    refine ih label onward (ordered.append resolves.1) (resolves.2.mono fun id => ?_)
    exact gained_append.mpr
  | when condition accept merge inside rest inner outer =>
    obtain ⟨chosen, inside', rest'⟩ := resolves
    have inner := inner accept (some merge) empty (inside'.mono fun _ => .inl)
    have outer := outer merge onward empty (rest'.mono fun _ => .inl)
    simp only [sites, List.forall_mem_cons, List.forall_mem_append]
    refine ⟨ordered.append ?_, inner, outer⟩
    simp [Exit.instructions, Ordered, Instruction.uses, chosen]
  | either condition accept reject merge first second rest left right outer =>
    obtain ⟨chosen, first', second', rest'⟩ := resolves
    have left := left accept (some merge) empty (first'.mono fun _ => .inl)
    have right := right reject (some merge) empty (second'.mono fun _ => .inl)
    have outer := outer merge onward empty (rest'.mono fun _ => .inl)
    simp only [sites, List.forall_mem_cons, List.forall_mem_append]
    refine ⟨ordered.append ?_, left, right, outer⟩
    simp [Exit.instructions, Ordered, Instruction.uses, chosen]
  | loop l setup test condition step inside rest inner outer =>
    have same : Gained (Gained known code) (setup ++ test) = Gained known (code ++ setup ++ test) := by
      funext id
      rw [List.append_assoc]
      exact propext gained_append.symm
    obtain ⟨before, tested, inside', stepped, rest'⟩ := resolves
    rw [same] at tested inside' stepped rest'
    obtain ⟨entering, testing⟩ := ordered_append.mp before
    have inner := inner l.body (some l.increment) empty (inside'.mono fun _ => .inl)
    have outer := outer l.post onward empty (rest'.mono fun _ => .inl)
    simp only [sites, List.forall_mem_cons, List.forall_mem_append]
    refine ⟨(ordered.append entering).append jumps, ?_, ?_, inner, stepped.append jumps, outer⟩
    · simp [Site.Resolved, Exit.instructions, Ordered, Instruction.uses]
    · refine (testing.mono fun id => gained_append.mpr).append ?_
      simp only [Exit.instructions, Ordered, Instruction.uses, List.forall_mem_singleton, and_true]
      exact gained_append.mp tested
  | leave target after rest ih | next target after rest ih =>
    have later := ih after onward empty (rest.resolves_everything.mono fun _ => .inl)
    simp only [sites, List.forall_mem_cons]
    exact ⟨ordered.append jumps, later⟩

end Outline

/-- The last instruction of an exit leads where the exit leads, and no other ends a block. -/
theorem Exit.terminates (exit : Exit) :
    ∃ front last, exit.instructions = front ++ [last] ∧ last.isTerminator = true ∧
      last.targets = exit.targets ∧ ∀ i ∈ front, i.isTerminator = false := by
  cases exit with
  | finish | jump | test => exact ⟨[], _, rfl, rfl, rfl, by simp⟩
  | select | enter => exact ⟨[_], _, rfl, rfl, rfl, by simp [Instruction.isTerminator]⟩

theorem Block.terminates {b : Block} (plain : ∀ i ∈ b.code, i.isTerminator = false) :
    ∃ front last, b.instructions = front ++ [last] ∧ last.isTerminator = true ∧
      last.targets = b.exit.targets ∧ (∀ i ∈ front, i.isTerminator = false) ∧
      b.code ⊆ front := by
  obtain ⟨merge, last, same, ends, leads, merges⟩ := b.exit.terminates
  refine ⟨.label b.label :: (b.code ++ merge), last, by simp [Block.instructions, same], ends, leads,
    ?_, fun i member => by simp [member]⟩
  exact List.forall_mem_cons.mpr ⟨rfl, List.forall_mem_append.mpr ⟨plain, merges⟩⟩

theorem suffix_append_cases {α : Type} {l a b : List α} (suffix : l <:+ a ++ b) :
    l <:+ b ∨ ∃ c, c ≠ [] ∧ c <:+ a ∧ l = c ++ b := by
  induction a with
  | nil => exact .inl suffix
  | cons x rest ih =>
    rcases List.suffix_cons_iff.mp suffix with whole | inside
    · exact .inr ⟨x :: rest, by simp, List.suffix_refl _, whole⟩
    · refine (ih inside).imp_right ?_
      rintro ⟨c, filled, within, same⟩
      exact ⟨c, filled, within.trans (List.suffix_cons x rest), same⟩

namespace Site

def instructions (s : Site) : List Instruction := s.block.instructions

/-- Blocks in which nothing but their first and last instructions begins or ends a block. -/
def Simple (sites : List Site) : Prop :=
  ∀ s ∈ sites, ∀ i ∈ s.block.code, i.isTerminator = false ∧ i.isLabel = false

/-- A path has come to a point within a block, and has passed all that gives a meaning to what is
known there. -/
def At (sites : List Site) (known : Id → Prop) (rest path : List Instruction) : Prop :=
  ∃ front s later done todo, sites = front ++ s :: later ∧ s.instructions = done ++ todo ∧ todo ≠ [] ∧
    rest = todo ++ later.flatMap instructions ∧ ∀ id, Gained s.known done id → Gained known path id

variable {sites : List Site} {known : Id → Prop}

/-- A label is found only at the start of a block. -/
theorem exists_at_label (simple : Simple sites) {target : Id}
    (suffix : (.label target :: rest) <:+ sites.flatMap instructions) :
    ∃ front s later, sites = front ++ s :: later ∧ s.block.label = target ∧
      .label target :: rest = s.instructions ++ later.flatMap instructions := by
  induction sites with
  | nil => simp at suffix
  | cons s more ih =>
    obtain ⟨here, later⟩ := List.forall_mem_cons.mp simple
    rw [List.flatMap_cons] at suffix
    rcases suffix_append_cases suffix with inside | ⟨c, filled, within, same⟩
    · obtain ⟨front, s', after, split, found⟩ := ih later inside
      exact ⟨s :: front, s', after, by rw [split, List.cons_append], found⟩
    · obtain ⟨i, tail, rfl⟩ := List.exists_cons_of_ne_nil filled
      obtain ⟨rfl, _⟩ := List.cons.inj same
      rcases List.suffix_cons_iff.mp within with whole | inside
      · refine ⟨[], s, more, rfl, (Instruction.label.inj (List.cons.inj whole).1).symm, ?_⟩
        rw [same, whole]
        rfl
      · -- Any other instruction of a block is no label.
        have member := inside.subset (List.mem_cons_self ..)
        rcases List.mem_append.mp member with inCode | inExit
        · have none := (here _ inCode).2
          contradiction
        · cases ends : s.block.exit <;> simp [ends, Exit.instructions] at inExit

/-- From an instruction that a path has come to, it goes on in the same block, or the instruction is the
last one of the block. -/
theorem At.onwards (simple : Simple sites) (at_ : At sites known (i :: rest) path) :
    i.isTerminator = false ∧ At sites known rest (path ++ [i]) ∨
      i.isTerminator = true ∧ ∃ s ∈ sites, i.targets = s.block.exit.targets ∧
        ∀ id, s.after id → Gained known path id := by
  obtain ⟨front, s, later, done, todo, split, parts, filled, here, passed⟩ := at_
  obtain ⟨j, todo, rfl⟩ := List.exists_cons_of_ne_nil filled
  obtain ⟨rfl, rfl⟩ := List.cons.inj here
  have member : s ∈ sites := by simp [split]
  obtain ⟨before, last, whole, ends, leads, others, within⟩ :=
    Block.terminates fun i inside => (simple s member i inside).1
  rw [instructions, whole] at parts
  rcases List.eq_nil_or_concat' todo with rfl | ⟨todo, final, rfl⟩
  · obtain ⟨rfl, same⟩ := List.append_inj' parts rfl
    obtain ⟨rfl, _⟩ := List.cons.inj same
    refine .inr ⟨ends, s, member, leads, fun id gained => passed id (gained.imp_right ?_)⟩
    rintro ⟨j, inCode, result⟩
    exact ⟨j, within inCode, result⟩
  · have same : before = done ++ i :: todo := by
      rw [← List.cons_append, ← List.append_assoc] at parts
      exact (List.append_inj' parts rfl).1
    refine .inl ⟨others i (by simp [same]), front, s, later, done ++ [i], todo ++ [final], split, ?_,
      by simp, rfl, fun id gained => ?_⟩
    · rw [instructions, whole, parts]
      simp
    · exact gained_append.mpr ((gained_append.mp gained).mono passed)

end Site

namespace Outline

section Paths

variable {o : Outline} {known : Id → Prop} {label : Id}
  (jumps : o.Jumps none) (simple : Site.Simple (o.sites known label code none))
  (distinct : ((o.layout label code none).map Block.label).Nodup)

include jumps simple distinct

/-- Every path through the blocks of an outline passes what gives a meaning to what is known. -/
theorem passes_at
    (passes : Passes ((o.sites known label code none).flatMap Site.instructions) rest path) :
    Site.At (o.sites known label code none) known rest path := by
  induction passes with
  | start =>
    obtain ⟨s, rest, whole, _, same, _⟩ := o.head_sites known label code none
    refine ⟨[], s, rest, [], s.instructions, whole, rfl, List.cons_ne_nil _ _, ?_, ?_⟩
    · rw [whole, List.flatMap_cons]
    · rw [same]
      exact fun _ => id
  | next passes goesOn ih =>
    rcases ih.onwards simple with ⟨_, further⟩ | ⟨ends, _⟩
    · exact further
    · rw [goesOn] at ends
      contradiction
  | @jump i rest path rest' target passes leads suffix ih =>
    rcases ih.onwards simple with ⟨goesOn, _⟩ | ⟨_, s, member, same, passed⟩
    · cases i <;> simp [Instruction.targets, Instruction.isTerminator] at leads goesOn
    · obtain ⟨front, s', later, split, labelled, here⟩ := Site.exists_at_label simple suffix
      have leads := same ▸ leads
      rcases closed_sites known label code none jumps s member target
          (List.mem_append_left _ leads) with
        ⟨s'', member'', labelled'', wider, _⟩ | outside
      · -- Labels are distinct, so this is the block that the flow was shown for.
        have unique : s'' = s' := by
          rw [← o.blocks_sites known label code none, List.map_map] at distinct
          exact List.inj_on_of_nodup_map distinct member'' (by simp [split])
            (labelled''.trans labelled.symm)
        subst unique
        refine ⟨front, s'', later, [], s''.instructions, split, rfl, List.cons_ne_nil _ _, here, ?_⟩
        intro id gained
        exact gained_append.mpr (.inl (passed id (wider leads id (gained_nil.mp gained))))
      · simp [Outside] at outside

/-- What an instruction uses is known at the start, or got its meaning on every path that leads to the
instruction. -/
theorem passes_uses (ordered : Ordered known code) (resolves : o.Resolves (Gained known code))
    (passes : Passes ((o.layout label code none).flatMap Block.instructions) (i :: rest) path)
    (used : id ∈ i.uses) : Gained known path id := by
  rw [← o.blocks_sites known, List.flatMap_map] at passes
  obtain ⟨front, s, later, done, todo, split, parts, filled, here, passed⟩ :=
    passes_at jumps simple distinct passes
  obtain ⟨j, todo, rfl⟩ := List.exists_cons_of_ne_nil filled
  obtain ⟨rfl, rfl⟩ := List.cons.inj here
  have resolved := resolved_sites label none ordered resolves s (by simp [split])
  have whole : Ordered s.known s.instructions := by
    refine ⟨by simp [Instruction.uses], Ordered.mono resolved fun _ => .inl⟩
  exact passed id (whole.before parts used)

end Paths

end Outline

theorem Passes.suffix (passes : Passes code rest path) : rest <:+ code := by
  induction passes with
  | start => exact List.suffix_refl _
  | next _ _ ih => exact (List.suffix_cons ..).trans ih
  | jump _ _ suffix => exact suffix

theorem Passes.subset (passes : Passes code rest path) : path ⊆ code := by
  have step : ∀ {i rest path}, Passes code (i :: rest) path → path ⊆ code → path ++ [i] ⊆ code := by
    intro i rest path passes before
    have here := passes.suffix.subset (List.mem_cons_self ..)
    exact List.append_subset.mpr ⟨before, List.cons_subset.mpr ⟨here, List.nil_subset _⟩⟩
  induction passes with
  | start => exact List.nil_subset _
  | next passes _ ih | jump passes _ _ ih => exact step passes ih

theorem result_unique (distinct : (code.filterMap Instruction.result?).Nodup) (member : i ∈ code)
    (member' : j ∈ code) (result : i.result? = some id) (result' : j.result? = some id) :
    i = j := by
  by_contra differ
  have apart := List.pairwise_filterMap.mp distinct
  have symmetric : Std.Symm fun i j : Instruction => ∀ id, i.result? = some id → ∀ id',
      j.result? = some id' → id ≠ id' := ⟨fun _ _ apart id known id' known' =>
    (apart id' known' id known).symm⟩
  exact apart.forall member member' differ id result id result' rfl

namespace Emission

variable {d : Draft} {ids : EntryIds} {interface : List Id} {e : Emission} {stages : Stages}

/-- Every path to an instruction passes the instruction that gives a meaning to what it names. -/
theorem Compiled.dominates (proper : d.Proper True)
    (compiled : Compiled True d ids interface e stages) {m : ShaderModule}
    (put : m.instructions = e.instructions d ids interface)
    (passes : Passes m.function (i :: rest) path) (named : id ∈ i.uses ++ i.refers)
    (member : j ∈ m.function) (other : j.isLabel = false) (result : j.result? = some id) :
    j ∈ path := by
  have sections := (compiled.sections proper.sound)
  obtain ⟨o, code, plain, jumps, resolves⟩ := compiled.resolved proper
  have labels := compiled.labels_distinct proper code
  have function := sections.function put
  have distinct := compiled.distinct proper
  rw [instructions_eq, ← function, List.filterMap_append, List.nodup_append] at distinct
  obtain ⟨_, inside, apart⟩ := distinct
  have inside : (m.function.filterMap Instruction.result?).Nodup :=
    inside.sublist (List.Sublist.filterMap _ ((List.sublist_append_left ..).cons _))
  have within : ∀ b ∈ o.layout ids.label e.locals.toList none, ∀ i ∈ b.code,
      (i.isTerminator = false ∧ i.isLabel = false) ∧ i.refers = [] := by
    intro b inLayout i inCode
    rcases Outline.code_layout _ _ _ plain b inLayout i inCode with own | straight
    · obtain ⟨_, _, rfl⟩ := sections.locals i (Array.mem_toList_iff.mp own)
      exact ⟨⟨rfl, rfl⟩, rfl⟩
    · cases i <;> first | contradiction | exact ⟨⟨rfl, rfl⟩, rfl⟩
  rw [function_layout code] at function
  rcases List.mem_append.mp named with used | refers
  · have simple : Site.Simple (o.sites e.Announces ids.label e.locals.toList none) := by
      intro s inSites i inCode
      refine (within s.block ?_ i inCode).1
      rw [← o.blocks_sites e.Announces]
      exact List.mem_map_of_mem inSites
    have listed := (compiled.grounded proper).listed
    have ordered : Ordered e.Announces e.locals.toList := ordered_of_known fun i own =>
      ((compiled.purposeful proper.sound).locals i (Array.mem_toList_iff.mp own)).uses listed
    have resolves : o.Resolves (Gained e.Announces e.locals.toList) := by
      refine resolves.mono ?_
      rintro id ⟨i, declaration | own, result⟩
      · exact .inl ⟨i, declaration, result⟩
      · exact .inr ⟨i, Array.mem_toList_iff.mpr own, result⟩
    rcases Outline.passes_uses jumps simple labels ordered resolves (function ▸ passes) used with
      ⟨i', declared, result'⟩ | ⟨j', passed, result'⟩
    · -- What a declaration gives a meaning to is no result of the function.
      refine absurd rfl (apart id ?_ id ?_)
      · refine List.mem_filterMap.mpr ⟨i', ?_, result'⟩
        exact List.mem_append_right _ (Array.mem_toList_iff.mpr declared)
      · refine List.mem_filterMap.mpr ⟨j, ?_, result⟩
        exact List.mem_cons_of_mem _ (List.mem_append_left _ member)
    · exact result_unique inside (passes.subset passed) member result' result ▸ passed
  · -- What is only referred to is a label.
    have here : i ∈ m.function := passes.suffix.subset (List.mem_cons_self ..)
    have labelled : .label id ∈ m.function := by
      rw [function, List.mem_flatMap] at here ⊢
      obtain ⟨b, inLayout, inBlock⟩ := here
      have leads : id ∈ b.exit.refers := by
        rcases List.mem_cons.mp inBlock with rfl | inBlock
        · simp [Instruction.refers] at refers
        · rcases List.mem_append.mp inBlock with inCode | inExit
          · simp [(within b inLayout i inCode).2] at refers
          · exact b.exit.refers_instructions i inExit id refers
      obtain ⟨b', inLayout', same⟩ := List.mem_map.mp (refers_layout jumps b inLayout id leads)
      exact ⟨b', inLayout', same ▸ List.mem_cons_self ..⟩
    rw [result_unique inside member labelled result rfl] at other
    contradiction

end Emission

namespace Draft

def Scoped (d : Draft) : List Call → Prop
  | [] => True
  | c :: rest => ((c.answer d).toBool = true → c.InScope d) ∧ (c.leaves d).Scoped rest

theorem Proper.after_scoped {d : Draft} (proper : d.Proper True) {calls : List Call}
    (building : ∀ c ∈ calls, c.restarts = false) (inScope : d.Scoped calls) :
    (d.after calls).Proper True := by
  induction calls generalizing d with
  | nil => exact proper
  | cons c rest ih =>
    obtain ⟨first, others⟩ := List.forall_mem_cons.mp building
    have steps : d.Steps True (c.leaves d) := by
      refine Call.leaves_steps proper.sound first fun _ accepted => inScope.1 ?_
      obtain ⟨reply, answer⟩ := accepted
      rw [answer]
      rfl
    exact ih (steps.proper proper) others inScope.2

end Draft

/-! Whether a program uses only what is in scope can be computed. -/

instance (kind : NodeKind) : Decidable (∃ literal, kind = .constant literal) :=
  match kind with
  | .constant literal => .isTrue ⟨literal, rfl⟩
  | .input _ | .load _ | .unary _ | .binary _ | .construct | .select => .isFalse (by simp)

instance (kind : NodeKind) : Decidable (∃ slot, kind = .input slot) :=
  match kind with
  | .input slot => .isTrue ⟨slot, rfl⟩
  | .constant _ | .load _ | .unary _ | .binary _ | .construct | .select => .isFalse (by simp)

instance (t : Trace) (region : Option Nat) (event : Nat) : Decidable (t.OpenAt region event) :=
  inferInstanceAs (Decidable (_ ∨ _))

instance (n : Node) (t : Trace) (event : Nat) : Decidable (n.Available t event) :=
  inferInstanceAs (Decidable (_ ∨ _))

instance (n : Node) : Decidable n.Outermost :=
  inferInstanceAs (Decidable (_ ∨ _))

instance (data : PlaceData) (t : Trace) (event : Nat) : Decidable (data.Available t event) :=
  inferInstanceAs (Decidable (_ ∨ _))

section Decide

variable (d : Draft)

def decideFound {α : Type} (found : Option α) (p : α → Prop) [DecidablePred p] :
    Decidable (∃ a, found = some a ∧ p a) :=
  match found with
  | none => .isFalse (by simp)
  | some a => decidable_of_iff (p a) (by simp)

instance (value : Handle) : Decidable (d.Usable True value) :=
  decideFound (d.graph.find? value) fun v => True → v.Available d.trace d.trace.size

instance (p : Place) : Decidable (∃ data, d.Reachable True p data) :=
  decideFound (d.places.find? p) fun data => True → data.Available d.trace d.trace.size

instance (value : Handle) : Decidable (∃ v, d.graph.find? value = some v ∧ v.Outermost) :=
  decideFound (d.graph.find? value) Node.Outermost

instance : (c : Call) → Decidable (c.InScope d)
  | .binary _ _ _ | .select _ _ _ | .index _ _ | .store _ _ => inferInstanceAs (Decidable (_ ∧ _))
  | .negate value | .beginIf value => inferInstanceAs (Decidable (d.Usable True value))
  | .construct _ parts => inferInstanceAs (Decidable (∀ value ∈ parts, d.Usable True value))
  | .member p _ | .load p => inferInstanceAs (Decidable (∃ data, d.Reachable True p data))
  | .output value | .builtin _ value =>
      inferInstanceAs (Decidable (∃ v, d.graph.find? value = some v ∧ v.Outermost))
  | .addInput _ | .input _ | .constant _ | .uniform _ _ _ | .storage _ _ _ | .texture _ _ _
  | .localVariable _ | .pointee _ | .beginElse | .endIf | .beginFor _ _ | .endFor | .breakLoop
  | .continueLoop | .retain _ | .release _ | .typeOf _ | .compile | .reset => .isTrue trivial

end Decide

instance Draft.decideScoped (d : Draft) : (calls : List Call) → Decidable (d.Scoped calls)
  | [] => .isTrue trivial
  | c :: rest =>
      have : Decidable ((c.leaves d).Scoped rest) := decideScoped (c.leaves d) rest
      inferInstanceAs (Decidable (_ ∧ _))

/-- In a program that uses values and locations only where they are in scope, definitions dominate
uses: every path through the function to an instruction passes the instructions of the function that
give a meaning to the ids it names, labels apart. -/
theorem Draft.definitions_dominate_uses (settings : Settings) (slots : List Ty) {first : Draft}
    (begun : withInputs settings slots = .ok () first) {program : List Call}
    (building : ∀ c ∈ program, c.restarts = false) (inScope : first.Scoped program)
    {m : ShaderModule} (compiled : (first.after program).compilation.result = .ok m) :
    ∀ i rest path, Passes m.function (i :: rest) path → ∀ id ∈ i.uses ++ i.refers,
      ∀ j ∈ m.function, j.isLabel = false → j.result? = some id → j ∈ path := by
  obtain rfl := eq_of_withInputs begun
  have proper := (proper_begun True settings slots).after_scoped building inScope
  obtain ⟨e, _, ids, interface, _, parts, put, _⟩ := proper.assemble_ok compiled
  intro i rest path passes id named j member other result
  exact parts.dominates proper put passes named member other result

/-- A program that needs a value for the first time in one branch, and again in the other branch and in
a loop that it leaves. -/
def Draft.sharesValue : List Call :=
  [.localVariable .single, .binary .add ⟨0, 0⟩ ⟨0, 0⟩, .binary .less ⟨0, 0⟩ ⟨0, 0⟩,
    .beginIf ⟨2, 2⟩, .store ⟨1⟩ ⟨1, 1⟩, .beginElse, .binary .mul ⟨1, 1⟩ ⟨1, 1⟩, .store ⟨1⟩ ⟨3, 3⟩,
    .endIf, .beginFor 0 4, .beginIf ⟨2, 2⟩, .breakLoop, .endIf, .store ⟨1⟩ ⟨1, 1⟩, .endFor,
    .load ⟨1⟩, .output ⟨8, 8⟩]

theorem Draft.sharesValue_dominated :
    withInputs { stage := .vertex } [.single] = .ok () (vertex [.single]) ∧
      (∀ c ∈ sharesValue, c.restarts = false) ∧
      (vertex [.single]).Scoped sharesValue ∧
      ∃ m : ShaderModule,
        ((vertex [.single]).after sharesValue).compilation.result = .ok m ∧
        ∀ i rest path, Passes m.function (i :: rest) path → ∀ id ∈ i.uses ++ i.refers,
          ∀ j ∈ m.function, j.isLabel = false → j.result? = some id → j ∈ path := by
  have building : ∀ c ∈ sharesValue, c.restarts = false := by decide
  have inScope : (vertex [.single]).Scoped sharesValue := by
    decide +kernel
  exact ⟨withInputs_eq _ _, building, inScope, exists_and_of_toBool (by decide +kernel) fun _ =>
    definitions_dominate_uses { stage := .vertex } [.single] (withInputs_eq _ _) building inScope⟩

end ShaderIR
