import Mathlib.Data.List.Nodup
import ShaderIR.Proofs.Operands

/-! Structured functions. An outline says how straight code, selections and loops are nested; laying
it out gives the blocks of a function. What is known of the blocks, in particular where they lead, is
proved from the outline. -/
namespace ShaderIR

def Instruction.isPlain : Instruction → Bool
  | .load _ _ _ | .store _ _ | .accessChain _ _ _ _ | .compute _ _ _ _ | .select _ _ _ _ _
  | .construct _ _ _ | .extract _ _ _ _ | .extractDynamic _ _ _ _ | .sample _ _ _ _ _ => true
  | _ => false

inductive Exit where
  | finish
  | jump (target : Id)
  | test (condition accept reject : Id)
  /-- Chooses one of two blocks, which come together again in a merge block. -/
  | select (merge condition accept reject : Id)
  /-- Goes into a loop, which is left for the merge block and goes on in the continuing block. -/
  | enter (merge continuing target : Id)
deriving DecidableEq, Repr

namespace Exit

def instructions : Exit → List Instruction
  | .finish => [.returnVoid]
  | .jump target => [.branch target]
  | .test condition accept reject => [.branchConditional condition accept reject]
  | .select merge condition accept reject =>
      [.selectionMerge merge, .branchConditional condition accept reject]
  | .enter merge continuing target => [.loopMerge merge continuing, .branch target]

def targets : Exit → List Id
  | .finish => []
  | .jump target => [target]
  | .test _ accept reject | .select _ _ accept reject => [accept, reject]
  | .enter _ _ target => [target]

def merges : Exit → List Id
  | .finish | .jump _ | .test _ _ _ => []
  | .select merge _ _ _ => [merge]
  | .enter merge continuing _ => [merge, continuing]

def refers (e : Exit) : List Id := e.targets ++ e.merges

theorem refers_instructions (e : Exit) :
    ∀ i ∈ e.instructions, ∀ id ∈ i.refers, id ∈ e.refers := by
  cases e <;> simp +contextual [instructions, refers, targets, merges, Instruction.refers, or_imp]

def isHeader : Exit → Bool
  | .enter _ _ _ => true
  | _ => false

def onward : Option Id → Exit
  | none => .finish
  | some target => .jump target

end Exit

structure Block where
  label : Id
  code : List Instruction
  exit : Exit
deriving DecidableEq, Repr

def Block.instructions (b : Block) : List Instruction :=
  .label b.label :: (b.code ++ b.exit.instructions)

structure LoopLabels where
  header : Id
  check : Id
  body : Id
  increment : Id
  post : Id
deriving DecidableEq, Repr

inductive Mark where
  | beginIf
  | beginElse
  | endIf
  | beginFor
  | endFor
  | breakLoop
  | continueLoop
deriving DecidableEq, Repr

inductive Outline where
  | done
  | straight (code : List Instruction) (rest : Outline)
  | when (condition accept merge : Id) (inside rest : Outline)
  | either (condition accept reject merge : Id) (first second rest : Outline)
  | loop (labels : LoopLabels) (setup test : List Instruction) (condition : Id)
      (step : List Instruction) (inside rest : Outline)
  /-- A jump out of a loop, and the label of the block that follows it. -/
  | leave (target after : Id) (rest : Outline)
  | next (target after : Id) (rest : Outline)
deriving DecidableEq, Repr

namespace Outline

/-- The blocks of an outline, the first of which is begun, and how the last one goes on. -/
def layout : Outline → Id → List Instruction → Option Id → List Block
  | .done, label, code, onward => [⟨label, code, .onward onward⟩]
  | .straight more rest, label, code, onward => rest.layout label (code ++ more) onward
  | .when condition accept merge inside rest, label, code, onward =>
      ⟨label, code, .select merge condition accept merge⟩ ::
        (inside.layout accept [] (some merge) ++ rest.layout merge [] onward)
  | .either condition accept reject merge first second rest, label, code, onward =>
      ⟨label, code, .select merge condition accept reject⟩ ::
        (first.layout accept [] (some merge) ++
          (second.layout reject [] (some merge) ++ rest.layout merge [] onward))
  | .loop l setup test condition step inside rest, label, code, onward =>
      ⟨label, code ++ setup, .jump l.header⟩ ::
        ⟨l.header, [], .enter l.post l.increment l.check⟩ ::
        ⟨l.check, test, .test condition l.body l.post⟩ ::
        (inside.layout l.body [] (some l.increment) ++
          ⟨l.increment, step, .jump l.header⟩ :: rest.layout l.post [] onward)
  | .leave target after rest, label, code, onward | .next target after rest, label, code, onward =>
      ⟨label, code, .jump target⟩ :: rest.layout after [] onward

/-- The code of an outline, without its first label and without its end. -/
def code : Outline → List Instruction
  | .done => []
  | .straight more rest => more ++ rest.code
  | .when condition accept merge inside rest =>
      [.selectionMerge merge, .branchConditional condition accept merge, .label accept] ++
        (inside.code ++ ([.branch merge, .label merge] ++ rest.code))
  | .either condition accept reject merge first second rest =>
      [.selectionMerge merge, .branchConditional condition accept reject, .label accept] ++
        (first.code ++ ([.branch merge, .label reject] ++
          (second.code ++ ([.branch merge, .label merge] ++ rest.code))))
  | .loop l setup test condition step inside rest =>
      setup ++ [.branch l.header, .label l.header, .loopMerge l.post l.increment, .branch l.check,
          .label l.check] ++ test ++ [.branchConditional condition l.body l.post, .label l.body] ++
        (inside.code ++ ([.branch l.increment, .label l.increment] ++ step ++
          [.branch l.header, .label l.post] ++ rest.code))
  | .leave target after rest | .next target after rest =>
      [.branch target, .label after] ++ rest.code

def marks : Outline → List Mark
  | .done => []
  | .straight _ rest => rest.marks
  | .when _ _ _ inside rest => .beginIf :: (inside.marks ++ .endIf :: rest.marks)
  | .either _ _ _ _ first second rest =>
      .beginIf :: (first.marks ++ .beginElse :: (second.marks ++ .endIf :: rest.marks))
  | .loop _ _ _ _ _ inside rest => .beginFor :: (inside.marks ++ .endFor :: rest.marks)
  | .leave _ _ rest => .breakLoop :: rest.marks
  | .next _ _ rest => .continueLoop :: rest.marks

def Plain : Outline → Prop
  | .done => True
  | .straight code rest => (∀ i ∈ code, i.isPlain = true) ∧ rest.Plain
  | .when _ _ _ inside rest => inside.Plain ∧ rest.Plain
  | .either _ _ _ _ first second rest => first.Plain ∧ second.Plain ∧ rest.Plain
  | .loop _ setup test _ step inside rest =>
      (∀ i ∈ setup ++ test ++ step, i.isPlain = true) ∧ inside.Plain ∧ rest.Plain
  | .leave _ _ rest | .next _ _ rest => rest.Plain

/-- Jumps stand inside a loop and lead to where the innermost one is left or goes on. -/
def Jumps : Option LoopLabels → Outline → Prop
  | _, .done => True
  | around, .straight _ rest => rest.Jumps around
  | around, .when _ _ _ inside rest => inside.Jumps around ∧ rest.Jumps around
  | around, .either _ _ _ _ first second rest =>
      first.Jumps around ∧ second.Jumps around ∧ rest.Jumps around
  | around, .loop labels _ _ _ _ inside rest => inside.Jumps (some labels) ∧ rest.Jumps around
  | around, .leave target _ rest => around.map LoopLabels.post = some target ∧ rest.Jumps around
  | around, .next target _ rest => around.map LoopLabels.increment = some target ∧ rest.Jumps around

/-- Every instruction uses only what is known where it stands: what is known around the outline, and
what got its meaning before in the same branch or in a branch around it. What follows a jump cannot
run. -/
def Resolves : (Id → Prop) → Outline → Prop
  | _, .done => True
  | known, .straight code rest => Ordered known code ∧ rest.Resolves (Gained known code)
  | known, .when condition _ _ inside rest =>
      known condition ∧ inside.Resolves known ∧ rest.Resolves known
  | known, .either condition _ _ _ first second rest =>
      known condition ∧ first.Resolves known ∧ second.Resolves known ∧ rest.Resolves known
  | known, .loop _ setup test condition step inside rest =>
      Ordered known (setup ++ test) ∧ Gained known (setup ++ test) condition ∧
        inside.Resolves (Gained known (setup ++ test)) ∧
        Ordered (Gained known (setup ++ test)) step ∧ rest.Resolves (Gained known (setup ++ test))
  | _, .leave _ _ _ | _, .next _ _ _ => True

section Layout

variable {o : Outline} {blocks : List Block} {exit : Exit}

theorem Resolves.mono {known known' : Id → Prop} (resolves : o.Resolves known)
    (wider : ∀ id, known id → known' id) : o.Resolves known' := by
  induction o generalizing known known' with
  | done | leave | next => trivial
  | straight code rest ih =>
    exact ⟨resolves.1.mono wider, ih resolves.2 fun id gained => gained.mono wider⟩
  | when condition accept merge inside rest inner outer =>
    exact ⟨wider _ resolves.1, inner resolves.2.1 wider, outer resolves.2.2 wider⟩
  | either condition accept reject merge first second rest left right outer =>
    exact ⟨wider _ resolves.1, left resolves.2.1 wider, right resolves.2.2.1 wider,
      outer resolves.2.2.2 wider⟩
  | loop l setup test condition step inside rest inner outer =>
    obtain ⟨before, tested, inside', stepped, rest'⟩ := resolves
    have wider' := fun id (gained : Gained known (setup ++ test) id) => gained.mono wider
    exact ⟨before.mono wider, wider' _ tested, inner inside' wider', stepped.mono wider',
      outer rest' wider'⟩

variable (o) (label : Id) (code : List Instruction) (onward : Option Id)

theorem instructions_layout :
    (o.layout label code onward).flatMap Block.instructions =
      .label label :: (code ++ (o.code ++ (Exit.onward onward).instructions)) := by
  induction o generalizing label code onward with
  | done => simp [layout, Outline.code, Block.instructions]
  | _ => simp [layout, Outline.code, Block.instructions, Exit.instructions, Exit.onward, *]

/-- Only the first block depends on what was begun, and it is no header. -/
theorem head_layout :
    ∃ more exit rest, exit.isHeader = false ∧
      ∀ code, o.layout label code onward = ⟨label, code ++ more, exit⟩ :: rest := by
  induction o with
  | done => exact ⟨[], .onward onward, [], by cases onward <;> rfl, fun code => by simp [layout]⟩
  | straight more rest ih =>
    obtain ⟨further, exit, blocks, plain, same⟩ := ih
    exact ⟨more ++ further, exit, blocks, plain, fun code => by
      rw [layout, same, List.append_assoc]⟩
  | loop l setup => exact ⟨setup, .jump l.header, _, rfl, fun _ => rfl⟩
  | when | either | leave | next =>
    exact ⟨[], _, _, rfl, fun code => by rw [List.append_nil]; rfl⟩

def Ends (blocks : List Block) (exit : Exit) : Prop :=
  ∃ front last, blocks = front ++ [last] ∧ last.exit = exit ∧ ∀ b ∈ front, b.exit ≠ .finish

theorem Ends.after (ends : Ends blocks exit) (front : List Block)
    (before : ∀ b ∈ front, b.exit ≠ .finish) : Ends (front ++ blocks) exit := by
  obtain ⟨middle, last, rfl, same, inside⟩ := ends
  refine ⟨front ++ middle, last, by rw [List.append_assoc], same, fun b member => ?_⟩
  exact (List.mem_append.mp member).elim (before b) (inside b)

theorem Ends.goes_on {target : Id} (ends : Ends blocks (.jump target)) :
    ∀ b ∈ blocks, b.exit ≠ .finish := by
  obtain ⟨front, last, rfl, same, inside⟩ := ends
  intro b member
  rcases List.mem_append.mp member with before | final
  · exact inside b before
  · rw [List.mem_singleton.mp final, same]
    simp

theorem ends_layout : Ends (o.layout label code onward) (.onward onward) := by
  induction o generalizing label code onward with
  | done => exact ⟨[], _, rfl, rfl, by simp⟩
  | straight more rest ih => exact ih label (code ++ more) onward
  | when condition accept merge inside rest inner outer =>
    have inside' := (inner accept [] (some merge)).goes_on
    apply ((outer merge [] onward).after _ inside').after [_]
    simp
  | either condition accept reject merge first second rest left right outer =>
    have first' := (left accept [] (some merge)).goes_on
    have second' := (right reject [] (some merge)).goes_on
    apply (((outer merge [] onward).after _ second').after _ first').after [_]
    simp
  | loop l setup test condition step inside rest inner outer =>
    have inside' := (inner l.body [] (some l.increment)).goes_on
    have last := (outer l.post [] onward).after [⟨l.increment, step, .jump l.header⟩] (by simp)
    apply (last.after _ inside').after [_, _, _]
    simp
  | leave target after rest ih | next target after rest ih =>
    apply (ih after [] onward).after [_]
    simp

def AllPlain (blocks : List Block) : Prop := ∀ b ∈ blocks, ∀ i ∈ b.code, i.isPlain = true

variable {o}

theorem plain_layout (plain : o.Plain) (begun : ∀ i ∈ code, i.isPlain = true) :
    AllPlain (o.layout label code onward) := by
  induction o generalizing label code onward with
  | done =>
    intro b member
    rw [List.mem_singleton.mp member]
    exact begun
  | straight more rest ih =>
    refine ih label (code ++ more) onward plain.2 fun i member => ?_
    exact (List.mem_append.mp member).elim (begun i) (plain.1 i)
  | when condition accept merge inside rest inner outer =>
    have first := inner accept [] (some merge) plain.1 (by simp)
    have last := outer merge [] onward plain.2 (by simp)
    simp only [layout, AllPlain, List.forall_mem_cons, List.forall_mem_append]
    exact ⟨begun, first, last⟩
  | either condition accept reject merge first second rest left right outer =>
    have first := left accept [] (some merge) plain.1 (by simp)
    have second := right reject [] (some merge) plain.2.1 (by simp)
    have last := outer merge [] onward plain.2.2 (by simp)
    simp only [layout, AllPlain, List.forall_mem_cons, List.forall_mem_append]
    exact ⟨begun, first, second, last⟩
  | loop l setup test condition step inside rest inner outer =>
    obtain ⟨straight, inside', rest'⟩ := plain
    simp only [List.forall_mem_append] at straight
    have first := inner l.body [] (some l.increment) inside' (by simp)
    have last := outer l.post [] onward rest' (by simp)
    simp only [layout, AllPlain, List.forall_mem_cons, List.forall_mem_append]
    exact ⟨⟨begun, straight.1.1⟩, by simp, straight.1.2, first, straight.2, last⟩
  | leave target after rest ih | next target after rest ih =>
    have last := ih after [] onward plain (by simp)
    simp only [layout, AllPlain, List.forall_mem_cons]
    exact ⟨begun, last⟩

/-- The code of the blocks is straight code and what was begun. -/
theorem code_layout (plain : o.Plain) :
    ∀ b ∈ o.layout label code onward, ∀ i ∈ b.code, i ∈ code ∨ i.isPlain = true := by
  obtain ⟨more, exit, rest, _, same⟩ := o.head_layout label onward
  have straight := plain_layout label [] onward plain (by simp)
  rw [same, List.nil_append] at straight
  obtain ⟨first, others⟩ := List.forall_mem_cons.mp straight
  rw [same]
  refine List.forall_mem_cons.mpr ⟨fun i member => ?_, fun b member i inside => .inr ?_⟩
  · exact (List.mem_append.mp member).imp_right (first i)
  · exact others b member i inside

end Layout

end Outline

structure Site where
  block : Block
  known : Id → Prop

namespace Site

def after (s : Site) : Id → Prop := Gained s.known s.block.code

/-- A block can lead to a label: there is a block with it, and if that one is a header, it comes right
after the block or the block is the one where its loop goes on. If the block jumps there, no more is
known at its start than where the jump is. -/
def Leads (s : Site) (sites : List Site) (label : Id) : Prop :=
  ∃ s' ∈ sites, s'.block.label = label ∧
    (label ∈ s.block.exit.targets → ∀ id, s'.known id → s.after id) ∧
    ∀ merge continuing target, s'.block.exit = .enter merge continuing target →
      [s, s'] <:+: sites ∨ s.block.label = continuing

theorem Leads.mono {s : Site} {sites more : List Site} {label : Id} (leads : s.Leads sites label)
    (part : sites <:+: more) : s.Leads more label := by
  obtain ⟨s', member, same, wider, headed⟩ := leads
  refine ⟨s', part.subset member, same, wider, fun merge continuing target enters => ?_⟩
  exact (headed merge continuing target enters).imp_left fun adjacent => adjacent.trans part

theorem leads_plain {s s' : Site} {sites : List Site} {label : Id} (member : s' ∈ sites)
    (same : s'.block.label = label) (plain : s'.block.exit.isHeader = false)
    (wider : label ∈ s.block.exit.targets → ∀ id, s'.known id → s.after id) :
    s.Leads sites label := by
  refine ⟨s', member, same, wider, fun merge continuing target enters => ?_⟩
  rw [enters] at plain
  contradiction

end Site

namespace Outline

/-- A block can lead to a label: there is a block with it, and if that one is a header, it comes right
after the block or the block is the one where its loop goes on. -/
def Leads (blocks : List Block) (b : Block) (label : Id) : Prop :=
  ∃ b' ∈ blocks, b'.label = label ∧ ∀ merge continuing target,
    b'.exit = .enter merge continuing target → [b, b'] <:+: blocks ∨ b.label = continuing

/-- A header is entered from the block before it and from the block where its loop goes on. -/
def Entered (blocks : List Block) (b : Block) (continuing : Id) : Prop :=
  (∃ before, [before, b] <:+: blocks ∧ before.exit = .jump b.label) ∧
    ∃ back ∈ blocks, back.label = continuing ∧ back.exit = .jump b.label

theorem Entered.mono {blocks more : List Block} {b : Block} {continuing : Id}
    (entered : Entered blocks b continuing) (part : blocks <:+: more) :
    Entered more b continuing := by
  obtain ⟨⟨before, adjacent, jumps⟩, back, member, rest⟩ := entered
  exact ⟨⟨before, adjacent.trans part, jumps⟩, back, part.subset member, rest⟩

/-- The labels outside an outline that its blocks can lead to: where it goes on, and where the loop
around it is left or goes on. -/
def Outside (around : Option LoopLabels) (onward : Option Id) (label : Id) : Prop :=
  onward = some label ∨ around.map LoopLabels.post = some label ∨
    around.map LoopLabels.increment = some label

/-- The blocks of an outline, with what is known at their starts. What follows a jump cannot be
reached, so anything may be taken to be known there. -/
def sites : Outline → (Id → Prop) → Id → List Instruction → Option Id → List Site
  | .done, known, label, code, onward => [⟨⟨label, code, .onward onward⟩, known⟩]
  | .straight more rest, known, label, code, onward => rest.sites known label (code ++ more) onward
  | .when condition accept merge inside rest, known, label, code, onward =>
      ⟨⟨label, code, .select merge condition accept merge⟩, known⟩ ::
        (inside.sites (Gained known code) accept [] (some merge) ++
          rest.sites (Gained known code) merge [] onward)
  | .either condition accept reject merge first second rest, known, label, code, onward =>
      ⟨⟨label, code, .select merge condition accept reject⟩, known⟩ ::
        (first.sites (Gained known code) accept [] (some merge) ++
          (second.sites (Gained known code) reject [] (some merge) ++
            rest.sites (Gained known code) merge [] onward))
  | .loop l setup test condition step inside rest, known, label, code, onward =>
      ⟨⟨label, code ++ setup, .jump l.header⟩, known⟩ ::
        ⟨⟨l.header, [], .enter l.post l.increment l.check⟩, Gained known (code ++ setup)⟩ ::
        ⟨⟨l.check, test, .test condition l.body l.post⟩, Gained known (code ++ setup)⟩ ::
        (inside.sites (Gained known (code ++ setup ++ test)) l.body [] (some l.increment) ++
          ⟨⟨l.increment, step, .jump l.header⟩, Gained known (code ++ setup ++ test)⟩ ::
            rest.sites (Gained known (code ++ setup ++ test)) l.post [] onward)
  | .leave target after rest, known, label, code, onward
  | .next target after rest, known, label, code, onward =>
      ⟨⟨label, code, .jump target⟩, known⟩ :: rest.sites (fun _ => True) after [] onward

variable (o : Outline) (known : Id → Prop) (label : Id) (code : List Instruction) (onward : Option Id)
  {around : Option LoopLabels}

theorem blocks_sites :
    (o.sites known label code onward).map Site.block = o.layout label code onward := by
  induction o generalizing known label code onward with
  | done => rfl
  | straight more rest ih => exact ih known label (code ++ more) onward
  | _ => simp [sites, layout, *]

theorem head_sites :
    ∃ s rest, o.sites known label code onward = s :: rest ∧ s.block.label = label ∧
      s.known = known ∧ s.block.exit.isHeader = false := by
  induction o generalizing code with
  | straight more rest ih => exact ih (code ++ more)
  | done => exact ⟨_, _, rfl, rfl, rfl, by cases onward <;> rfl⟩
  | _ => exact ⟨_, _, rfl, rfl, rfl, rfl⟩

/-- What is known at the start of an outline stays known in it. -/
theorem known_sites :
    ∀ s ∈ o.sites known label code onward, ∀ id, Gained known code id → s.after id := by
  induction o generalizing known label code onward with
  | done =>
    intro s member id gained
    rw [List.mem_singleton.mp member]
    exact gained
  | straight more rest ih =>
    intro s member id gained
    exact ih known label (code ++ more) onward s member id (gained_append.mpr (.inl gained))
  | when condition accept merge inside rest inner outer =>
    have inner := inner (Gained known code) accept [] (some merge)
    have outer := outer (Gained known code) merge [] onward
    simp only [gained_nil] at inner outer
    simp only [sites, List.forall_mem_cons, List.forall_mem_append]
    exact ⟨fun _ => id, inner, outer⟩
  | either condition accept reject merge first second rest left right outer =>
    have left := left (Gained known code) accept [] (some merge)
    have right := right (Gained known code) reject [] (some merge)
    have outer := outer (Gained known code) merge [] onward
    simp only [gained_nil] at left right outer
    simp only [sites, List.forall_mem_cons, List.forall_mem_append]
    exact ⟨fun _ => id, left, right, outer⟩
  | loop l setup test condition step inside rest inner outer =>
    have inner := inner (Gained known (code ++ setup ++ test)) l.body [] (some l.increment)
    have outer := outer (Gained known (code ++ setup ++ test)) l.post [] onward
    simp only [gained_nil] at inner outer
    have entering : ∀ id, Gained known code id → Gained known (code ++ setup) id :=
      fun id gained => gained_append.mpr (.inl gained)
    have testing : ∀ id, Gained known code id → Gained known (code ++ setup ++ test) id :=
      fun id gained => gained_append.mpr (.inl (entering id gained))
    simp only [sites, List.forall_mem_cons, List.forall_mem_append]
    exact ⟨entering, fun id gained => .inl (entering id gained),
      fun id gained => .inl (entering id gained),
      fun s member id gained => inner s member id (testing id gained),
      fun id gained => .inl (testing id gained),
      fun s member id gained => outer s member id (testing id gained)⟩
  | leave target after rest ih | next target after rest ih =>
    have later := ih (fun _ => True) after [] onward
    simp only [sites, List.forall_mem_cons]
    exact ⟨fun _ => id, fun s member id _ => later s member id (.inl trivial)⟩

/-- Some of the blocks lead to blocks and to known labels outside only. -/
def Closed (sites some : List Site) (out : Id → Prop) : Prop :=
  ∀ s ∈ some, ∀ t ∈ s.block.exit.refers, s.Leads sites t ∨ out t

variable {sites part more : List Site} {s : Site} {out out' : Id → Prop}

theorem closed_cons :
    Closed sites (s :: part) out ↔
      (∀ t ∈ s.block.exit.refers, s.Leads sites t ∨ out t) ∧ Closed sites part out :=
  List.forall_mem_cons

theorem closed_append :
    Closed sites (part ++ more) out ↔ Closed sites part out ∧ Closed sites more out :=
  List.forall_mem_append

theorem Closed.widen (closed : Closed part part out) (within : part <:+: sites)
    (known : ∀ s ∈ part, ∀ t, out t → s.Leads sites t ∨ out' t) : Closed sites part out' := by
  intro s member t leads
  rcases closed s member t leads with inside | outside
  · exact .inl (inside.mono within)
  · exact known s member t outside

/-- A block can lead to an outline if it knows what is known at the start of the outline. -/
theorem leads_head {known : Id → Prop} (within : o.sites known label code onward <:+: sites)
    (wider : label ∈ s.block.exit.targets → ∀ id, known id → s.after id) :
    s.Leads sites label := by
  obtain ⟨s', rest, whole, same, starts, plain⟩ := o.head_sites known label code onward
  exact Site.leads_plain (within.subset (by simp [whole])) same plain (starts ▸ wider)

/-- A part of an outline is closed if every way out of it is one for a block that knows what is known
at its start. -/
theorem closed_part {o : Outline} {known : Id → Prop} {label : Id} {onward : Option Id}
    (closed : Closed (o.sites known label [] onward) (o.sites known label [] onward) out)
    (within : o.sites known label [] onward <:+: sites)
    (leaving : ∀ s : Site, (∀ id, known id → s.after id) → ∀ t, out t → s.Leads sites t ∨ out' t) :
    Closed sites (o.sites known label [] onward) out' :=
  closed.widen within fun s member =>
    leaving s fun id start => o.known_sites known label [] onward s member id (.inl start)

/-- The branches of a selection go on in its merge block. -/
theorem leaves_branch {rest : Outline} {known : Id → Prop} {merge : Id} {onward : Option Id}
    (within : rest.sites known merge [] onward <:+: sites) (s : Site)
    (wider : ∀ id, known id → s.after id) (t : Id) (out : Outside around (some merge) t) :
    s.Leads sites t ∨ Outside around onward t := by
  rcases out with onto | out
  · exact .inl (Option.some.inj onto ▸ rest.leads_head merge [] onward within fun _ => wider)
  · exact .inr (.inr out)

theorem closed_sites {o : Outline} (jumps : o.Jumps around) :
    Closed (o.sites known label code onward) (o.sites known label code onward)
      (Outside around onward) := by
  induction o generalizing around known label code onward with
  | done =>
    intro s member t leads
    obtain rfl := List.mem_singleton.mp member
    cases onward with
    | none => simp [Exit.onward, Exit.refers, Exit.targets, Exit.merges] at leads
    | some target => exact .inr (.inl (by rw [List.mem_singleton.mp leads]))
  | straight more rest ih => exact ih known label (code ++ more) onward jumps
  | when condition accept merge inside rest inner outer =>
    have inside' := inner (Gained known code) accept [] (some merge) jumps.1
    have rest' := outer (Gained known code) merge [] onward jumps.2
    rw [sites]
    generalize whole : Site.mk _ known :: (_ ++ _) = all
    have inFirst : inside.sites (Gained known code) accept [] (some merge) <:+: all :=
      whole ▸ List.infix_cons (List.prefix_append ..).isInfix
    have inLast : rest.sites (Gained known code) merge [] onward <:+: all :=
      whole ▸ List.infix_cons (List.suffix_append ..).isInfix
    nth_rewrite 2 [← whole]
    simp only [closed_cons, closed_append]
    refine ⟨fun t named => .inl ?_, closed_part inside' inFirst (leaves_branch inLast),
      rest'.widen inLast fun _ _ _ => .inr⟩
    have named : t = accept ∨ t = merge := by
      simpa [Exit.refers, Exit.targets, Exit.merges] using named
    rcases named with rfl | rfl
    · exact inside.leads_head t [] (some merge) inFirst fun _ _ => id
    · exact rest.leads_head t [] onward inLast fun _ _ => id
  | either condition accept reject merge first second rest left right outer =>
    have first' := left (Gained known code) accept [] (some merge) jumps.1
    have second' := right (Gained known code) reject [] (some merge) jumps.2.1
    have rest' := outer (Gained known code) merge [] onward jumps.2.2
    rw [sites]
    generalize whole : Site.mk _ known :: (_ ++ (_ ++ _)) = all
    have inFirst : first.sites (Gained known code) accept [] (some merge) <:+: all :=
      whole ▸ List.infix_cons (List.prefix_append ..).isInfix
    have inSecond : second.sites (Gained known code) reject [] (some merge) <:+: all :=
      whole ▸ List.infix_cons (List.infix_append' ..)
    have inLast : rest.sites (Gained known code) merge [] onward <:+: all := by
      rw [← whole, ← List.append_assoc]
      exact List.infix_cons (List.suffix_append ..).isInfix
    nth_rewrite 2 [← whole]
    simp only [closed_cons, closed_append]
    refine ⟨fun t named => .inl ?_, closed_part first' inFirst (leaves_branch inLast),
      closed_part second' inSecond (leaves_branch inLast), rest'.widen inLast fun _ _ _ => .inr⟩
    have named : t = accept ∨ t = reject ∨ t = merge := by
      simpa [Exit.refers, Exit.targets, Exit.merges] using named
    rcases named with rfl | rfl | rfl
    · exact first.leads_head t [] (some merge) inFirst fun _ _ => id
    · exact second.leads_head t [] (some merge) inSecond fun _ _ => id
    · exact rest.leads_head t [] onward inLast fun _ _ => id
  | loop l setup test condition step inside rest inner outer =>
    generalize tested : Gained known (code ++ setup ++ test) = testing
    generalize entered : Gained known (code ++ setup) = entering
    have testing_eq : testing = Gained entering test := by
      rw [← tested, ← entered]
      exact funext fun _ => propext gained_append
    have inside' := inner testing l.body [] (some l.increment) jumps.1
    have rest' := outer testing l.post [] onward jumps.2
    let first : Site := ⟨⟨label, code ++ setup, .jump l.header⟩, known⟩
    let header : Site := ⟨⟨l.header, [], .enter l.post l.increment l.check⟩, entering⟩
    let check : Site := ⟨⟨l.check, test, .test condition l.body l.post⟩, entering⟩
    let back : Site := ⟨⟨l.increment, step, .jump l.header⟩, testing⟩
    rw [sites, tested, entered]
    generalize whole : first :: header :: check :: (_ ++ back :: _) = all
    have inBody : inside.sites testing l.body [] (some l.increment) <:+: all := whole ▸
      List.infix_cons (List.infix_cons (List.infix_cons (List.prefix_append ..).isInfix))
    have inLast : rest.sites testing l.post [] onward <:+: all := whole ▸
      List.infix_cons (List.infix_cons (List.infix_cons
        ((List.suffix_cons ..).trans (List.suffix_append ..)).isInfix))
    have toPost {s : Site} := @leads_head rest l.post [] onward all s testing inLast
    -- Only two blocks may lead to the header.
    have toHeader : ∀ s : Site, [s, header] <:+: all ∨ s.block.label = l.increment →
        (∀ id, entering id → s.after id) → s.Leads all l.header := by
      intro s allowed wider
      refine ⟨header, by simp [← whole], rfl, fun _ => wider, ?_⟩
      rintro _ _ _ ⟨⟩
      exact allowed
    have hasCheck : check ∈ all := by simp [← whole]
    have hasBack : back ∈ all := by simp [← whole]
    have toIncrement : ∀ s : Site, (l.increment ∈ s.block.exit.targets → ∀ id, testing id →
        s.after id) → s.Leads all l.increment :=
      fun s => Site.leads_plain hasBack rfl rfl
    nth_rewrite 2 [← whole]
    simp only [closed_cons, closed_append]
    refine ⟨?_, ?_, ?_, closed_part inside' inBody fun s wider t out => ?_, ?_,
      rest'.widen inLast fun _ _ _ => .inr⟩
    · have wider : ∀ id, entering id → first.after id := by simp [Site.after, first, entered]
      simp [first, Exit.refers, Exit.targets, Exit.merges,
        toHeader first (.inl ⟨[], _, whole⟩) wider]
    · -- The blocks that a header names and does not lead to may know more.
      intro t named
      by_cases onto : t = l.check
      · exact .inl (onto ▸ Site.leads_plain hasCheck rfl rfl fun _ _ => .inl)
      · have merges : t = l.post ∨ t = l.increment := by
          simpa [header, Exit.refers, Exit.targets, Exit.merges, onto] using named
        rcases merges with rfl | rfl
        · exact .inl (toPost fun leads => absurd (List.mem_singleton.mp leads) onto)
        · exact .inl (toIncrement header fun leads => absurd (List.mem_singleton.mp leads) onto)
    · have wider : ∀ id, testing id → check.after id := by simp [Site.after, check, testing_eq]
      simp [check, Exit.refers, Exit.targets, Exit.merges,
        inside.leads_head l.body [] (some l.increment) inBody fun _ => wider,
        toPost fun _ => wider]
    · rcases out with onto | onto | onto
      · exact .inl (Option.some.inj onto ▸ toIncrement s fun _ => wider)
      · exact .inl (Option.some.inj onto ▸ toPost fun _ => wider)
      · exact .inl (Option.some.inj onto ▸ toIncrement s fun _ => wider)
    · have wider : ∀ id, entering id → back.after id := by
        intro id known
        refine .inl (?_ : testing id)
        rw [testing_eq]
        exact .inl known
      simp [back, Exit.refers, Exit.targets, Exit.merges, toHeader back (.inr rfl) wider]
  | leave target after rest ih | next target after rest ih =>
    have rest' := ih (fun _ => True) after [] onward jumps.2
    rw [sites, closed_cons]
    refine ⟨?_, rest'.widen (List.suffix_cons ..).isInfix fun _ _ _ => .inr⟩
    simp [Exit.refers, Exit.targets, Exit.merges, Outside, jumps.1]

theorem closed_layout {o : Outline} (jumps : o.Jumps around) :
    ∀ b ∈ o.layout label code onward, ∀ t ∈ b.exit.refers,
      Leads (o.layout label code onward) b t ∨ Outside around onward t := by
  rw [← o.blocks_sites fun _ => True]
  intro b member t refers
  obtain ⟨s, inside, rfl⟩ := List.mem_map.mp member
  refine (closed_sites _ label code onward jumps s inside t refers).imp_left ?_
  rintro ⟨s', member', same, _, headed⟩
  refine ⟨s'.block, List.mem_map_of_mem member', same, fun merge continuing target enters => ?_⟩
  exact (headed merge continuing target enters).imp_left (·.map Site.block)

/-- The headers among some of the blocks are entered from the block before them and from the block
where their loop goes on. -/
def AllEntered (blocks some : List Block) : Prop :=
  ∀ b ∈ some, ∀ merge continuing target, b.exit = .enter merge continuing target →
    Entered blocks b continuing

theorem AllEntered.mono {blocks more some : List Block} (entered : AllEntered blocks some)
    (part : blocks <:+: more) : AllEntered more some :=
  fun b member merge continuing target enters =>
    (entered b member merge continuing target enters).mono part

theorem entered_layout :
    AllEntered (o.layout label code onward) (o.layout label code onward) := by
  induction o generalizing label code onward with
  | done =>
    intro b member merge continuing target enters
    obtain rfl := List.mem_singleton.mp member
    cases onward <;> simp [Exit.onward] at enters
  | straight more rest ih => exact ih label (code ++ more) onward
  | when condition accept merge inside rest inner outer =>
    have inner := inner accept [] (some merge)
    have outer := outer merge [] onward
    refine List.forall_mem_cons.mpr ⟨by simp, List.forall_mem_append.mpr ⟨?_, ?_⟩⟩
    · exact inner.mono (List.infix_cons (List.prefix_append ..).isInfix)
    · exact outer.mono (List.infix_cons (List.suffix_append ..).isInfix)
  | either condition accept reject merge first second rest left right outer =>
    have left := left accept [] (some merge)
    have right := right reject [] (some merge)
    have outer := outer merge [] onward
    refine List.forall_mem_cons.mpr ⟨by simp, List.forall_mem_append.mpr ⟨?_,
      List.forall_mem_append.mpr ⟨?_, ?_⟩⟩⟩
    · exact left.mono (List.infix_cons (List.prefix_append ..).isInfix)
    · exact right.mono (List.infix_cons (List.infix_append' ..))
    · rw [layout, ← List.append_assoc]
      exact outer.mono (List.infix_cons (List.suffix_append ..).isInfix)
  | loop l setup test condition step inside rest inner outer =>
    have inner := inner l.body [] (some l.increment)
    have outer := outer l.post [] onward
    simp only [AllEntered, layout, List.forall_mem_cons, List.forall_mem_append]
    refine ⟨by simp, ?_, by simp, ?_, by simp, ?_⟩
    · rintro _ _ _ ⟨⟩
      exact ⟨⟨_, ⟨[], _, rfl⟩, rfl⟩, ⟨l.increment, step, .jump l.header⟩, by simp, rfl, rfl⟩
    · exact inner.mono
        (List.infix_cons (List.infix_cons (List.infix_cons (List.prefix_append ..).isInfix)))
    · exact outer.mono (List.infix_cons (List.infix_cons (List.infix_cons
        ((List.suffix_cons ..).trans (List.suffix_append ..)).isInfix)))
  | leave target after rest ih | next target after rest ih =>
    refine List.forall_mem_cons.mpr ⟨by simp, ?_⟩
    exact (ih after [] onward).mono (List.suffix_cons ..).isInfix

end Outline

section Distinct

variable {blocks : List Block} (distinct : (blocks.map Block.label).Nodup) {b b' : Block}

include distinct

theorem block_unique (member : b ∈ blocks) (member' : b' ∈ blocks) (same : b.label = b'.label) :
    b = b' :=
  List.inj_on_of_nodup_map distinct member member' same

theorem before_unique {next : Block} (adjacent : [b, next] <:+: blocks)
    (adjacent' : [b', next] <:+: blocks) : b = b' := by
  obtain ⟨front, rest, whole⟩ := adjacent
  obtain ⟨front', rest', whole'⟩ := adjacent'
  have nodup := List.Nodup.of_map _ distinct
  have place : blocks[front.length + 1]? = some next := by simp [← whole]
  have place' : blocks[front'.length + 1]? = some next := by simp [← whole']
  have same : front.length = front'.length :=
    Nat.succ.inj ((List.getElem?_inj (List.getElem?_eq_some_iff.mp place).1 nodup).mp
      (place.trans place'.symm))
  have one : blocks[front.length]? = some b := by simp [← whole]
  have two : blocks[front'.length]? = some b' := by simp [← whole']
  rw [same, two] at one
  exact (Option.some.inj one).symm

/-- The only branches to the header of a loop are the one from the block before it and the one from
the block where the loop goes on. -/
theorem header_branches {o : Outline} (jumps : o.Jumps none) {label : Id} {code : List Instruction}
    (whole : blocks = o.layout label code none) (member : b ∈ blocks) {merge continuing target : Id}
    (enters : b.exit = .enter merge continuing target) :
    ∃ before back, [before, b] <:+: blocks ∧ back ∈ blocks ∧ back.label = continuing ∧
      ∀ b' ∈ blocks, b.label ∈ b'.exit.targets ↔ b' = before ∨ b' = back := by
  have closed := Outline.closed_layout label code none jumps
  have entered := o.entered_layout label code none
  rw [← whole] at closed entered
  obtain ⟨⟨before, adjacent, jumps⟩, back, backMember, returns, jumps'⟩ :=
    entered b member merge continuing target enters
  refine ⟨before, back, adjacent, backMember, returns, fun b' member' => ⟨fun leads => ?_, ?_⟩⟩
  · rcases closed b' member' b.label (List.mem_append_left _ leads) with inside | outside
    · obtain ⟨header, headerMember, same, headed⟩ := inside
      obtain rfl := block_unique distinct headerMember member same
      rcases headed merge continuing target enters with adjacent' | continues
      · exact .inl (before_unique distinct adjacent' adjacent)
      · exact .inr (block_unique distinct member' backMember (continues.trans returns.symm))
    · simp [Outline.Outside] at outside
  · rintro (rfl | rfl)
    · simp [jumps, Exit.targets]
    · simp [jumps', Exit.targets]

end Distinct

theorem refers_layout {o : Outline} (jumps : o.Jumps none) {label : Id} {code : List Instruction} :
    ∀ b ∈ o.layout label code none, ∀ t ∈ b.exit.refers,
      t ∈ (o.layout label code none).map Block.label := by
  intro b member t refers
  rcases Outline.closed_layout label code none jumps b member t refers with inside | outside
  · obtain ⟨b', member', same, _⟩ := inside
    exact List.mem_map.mpr ⟨b', member', same⟩
  · simp [Outline.Outside] at outside

end ShaderIR
