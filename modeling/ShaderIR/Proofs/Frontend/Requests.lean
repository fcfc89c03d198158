import ShaderIR.Frontend.Command
import ShaderIR.Proofs.Session

/-! What front-end operations ask of shaders. Every operation has the same shape: it brings its
arguments into one shader, and if none of them is empty it makes one call on the draft there. -/
namespace ShaderIR

variable {reply : Reply} {fault : Fault} {d : Draft} {m : ShaderId} {arguments : List Argument}

def Reply.value? : Reply → Option Handle
  | .value h => some h
  | _ => none

def Reply.place? : Reply → Option Place
  | .place p => some p
  | _ => none

namespace Frontend

inductive Ask where
  | nothing
  | call (c : Call)
  /-- A member, which has to be of the given type. -/
  | member (place : Place) (index : Word) (ty : Ty)

namespace Ask

def build : Ask → Build Reply
  | .nothing => pure .done
  | .call c => c.run
  | .member place index ty => do
      let part ← Draft.member place index
      let found ← Draft.pointee part
      if found ≠ ty then throw (.typeMismatch ty found)
      return .place part

/-! Calls on as many handles as there are arguments. -/

def one (call : Handle → Call) : List Handle → Ask
  | [a] => .call (call a)
  | _ => .nothing

def two (call : Handle → Handle → Call) : List Handle → Ask
  | [a, b] => .call (call a b)
  | _ => .nothing

def three (call : Handle → Handle → Handle → Call) : List Handle → Ask
  | [a, b, c] => .call (call a b c)
  | _ => .nothing

def calls : Ask → List Call
  | .nothing => []
  | .call c => [c]
  | .member place index _ => [.member place index]

variable {ask : Ask} {d' : Draft}

/-- A member that is found is left there, whatever its type is. -/
theorem build_member {place : Place} {index : Word} {ty : Ty} :
    (Ask.member place index ty).build d = match Draft.member place index d with
      | .ok part d' =>
          match Draft.pointee part d' with
          | .ok found d'' =>
              if found = ty then .ok (.place part) d'' else .error (.typeMismatch ty found) d''
          | .error fault d'' => .error fault d''
      | .error fault d' => .error fault d' := by
  simp only [build, bind, EStateM.bind]
  cases Draft.member place index d with
  | error fault d' => rfl
  | ok part d' =>
    dsimp only
    cases Draft.pointee part d' with
    | error fault d'' => rfl
    | ok found d'' =>
      dsimp only
      by_cases same : found = ty
      · rw [if_neg (not_not.mpr same), if_pos same]
        rfl
      · rw [if_pos same, if_neg same]
        rfl

theorem pointee_same (place : Place) (d : Draft) :
    ShaderIR.Outcome (Draft.pointee place) d (fun _ d' => d' = d) fun _ d' => d' = d := by
  simp [Draft.pointee]

theorem leaves_build (ask : Ask) (d : Draft) :
    (match ask.build d with
      | .ok _ d' => d'
      | .error _ d' => d') = d.after ask.calls := by
  cases ask with
  | nothing => rfl
  | call c => rfl
  | member place index ty =>
    have leaves : d.after (calls (.member place index ty)) = (match Draft.member place index d with
        | .ok _ d' => d'
        | .error _ d' => d') := by
      show (match (Reply.place <$> Draft.member place index) d with
        | .ok _ d' => d'
        | .error _ d' => d') = _
      cases run : Draft.member place index d <;> simp only [Functor.map, EStateM.map, run]
    rw [leaves, build_member]
    cases Draft.member place index d with
    | error fault d' => rfl
    | ok part d' =>
      dsimp only
      have same := pointee_same part d'
      cases run : Draft.pointee part d' with
      | error fault d'' => exact same.error run
      | ok found d'' =>
        dsimp only
        obtain rfl := same.ok run
        by_cases fits : found = ty
        · rw [if_pos fits]
        · rw [if_neg fits]

/-- A value or a location that is replied was the answer to a call. -/
theorem build_answers (run : ask.build d = .ok reply d') :
    reply = .done ∨ .ok reply ∈ d.answers ask.calls := by
  cases ask with
  | nothing => exact .inl (EStateM.Result.ok.inj run).1.symm
  | call c =>
    right
    have answer : c.answer d = .ok reply := by
      have run : c.run d = .ok reply d' := run
      simp only [Call.answer, run]
    simp [calls, Draft.answers, answer]
  | member place index ty =>
    right
    rw [build_member] at run
    cases found : Draft.member place index d with
    | error fault d₁ =>
      rw [found] at run
      contradiction
    | ok part d₁ =>
      have answer : (Call.member place index).answer d = .ok (.place part) := by
        simp only [Call.answer, Call.run, Functor.map, EStateM.map, found]
      rw [found] at run
      dsimp only at run
      split at run
      · split at run
        · rw [← (EStateM.Result.ok.inj run).1]
          simp [calls, Draft.answers, answer]
        · contradiction
      · contradiction

end Ask

structure Request where
  shader : ShaderId
  /-- Whether the pointer that the operation starts from, if there is one, is not empty. -/
  ready : Bool := true
  arguments : List Argument := []
  ask : List Handle → Ask

namespace Request

def plain (m : ShaderId) (c : Call) : Request := { shader := m, ask := fun _ => .call c }

def bring (m : ShaderId) (a : Argument) : Request :=
  { shader := m, arguments := [a], ask := fun _ => .nothing }

def unary (m : ShaderId) (a : Argument) (call : Handle → Call) : Request :=
  { shader := m, arguments := [a], ask := .one call }

def binary (m : ShaderId) (op : BinaryOp) (a b : Argument) : Request :=
  { shader := m, arguments := [a, b], ask := .two (.binary op) }

def select (condition : Value) (accept reject : Argument) : Request :=
  { shader := condition.shader
    arguments := [.value condition, accept, reject]
    ask := .three .select }

def construct (m : ShaderId) (ty : Ty) (parts : List Argument) : Request :=
  { shader := m, arguments := parts, ask := fun handles => .call (.construct ty handles) }

def through (p : Pointer) (arguments : List Argument) (ask : Place → List Handle → Ask) : Request :=
  { shader := p.shader
    ready := p.place.isSome
    arguments
    ask := fun handles => p.place.elim .nothing fun place => ask place handles }

def member (p : Pointer) (index : Word) (ty : Ty) : Request :=
  through p [] fun place _ => .member place index ty

def index (p : Pointer) (a : Argument) : Request := through p [a] fun place => .one (.index place)

def load (p : Pointer) : Request := through p [] fun place _ => .call (.load place)

def store (p : Pointer) (a : Argument) : Request := through p [a] fun place => .one (.store place)

def perform (r : Request) : Front (Option Reply) := do
  let handles ← r.arguments.mapM (Argument.bring r.shader)
  match handles.mapM id with
  | some handles =>
      if r.ready then Front.attempt r.shader (r.ask handles).build else return none
  | none => return none

def make (r : Request) : Front Unit := do
  let _ ← r.perform

def value (r : Request) (kind : Kind) : Front Value := do
  return { kind, shader := r.shader, handle := (← r.perform).bind Reply.value? }

def pointer (r : Request) (target : Target) : Front Pointer := do
  return { target, shader := r.shader, place := (← r.perform).bind Reply.place? }

end Request

/-! Worlds in which one shader is replaced. -/

namespace World

def put (w : World) (m : ShaderId) (s : Shader) : World :=
  { w with shaders := w.shaders.setIfInBounds m s }

variable {w : World} {s : Shader}

theorem put_found (found : w.shaders[m]? = some s) (s' : Shader) :
    (w.put m s').shaders[m]? = some s' := by
  obtain ⟨bound, _⟩ := Array.getElem?_eq_some_iff.mp found
  simp [put, bound]

theorem put_other {n : ShaderId} (other : n ≠ m) (s' : Shader) :
    (w.put m s').shaders[n]? = w.shaders[n]? := by
  simp [put, Ne.symm other]

theorem put_self (found : w.shaders[m]? = some s) : w.put m s = w := by
  have same : w.shaders.setIfInBounds m s = w.shaders := by
    apply Array.ext_getElem?
    intro n
    by_cases other : n = m
    · subst other
      exact (put_found found s).trans found.symm
    · exact put_other other s
  rw [put, same]

@[simp] theorem put_put (w : World) (m : ShaderId) (s s' : Shader) :
    (w.put m s).put m s' = w.put m s' := by
  simp [put]

end World

namespace Front

variable {α β : Type} {w : World} {s : Shader}

theorem bind_apply (x : Front α) (f : α → Front β) (w : World) :
    (x >>= f) w = f (x w).1 (x w).2 := rfl

theorem get_apply (f : World → Front α) (w : World) : (get >>= f) w = f w w := rfl

theorem attempt_apply (m : ShaderId) (call : Build α) (w : World) :
    attempt m call w = match w.shaders[m]? with
      | none => (none, w)
      | some s =>
          match call s.draft with
          | .ok a draft => (some a, w.put m { s with draft })
          | .error fault draft => (none, w.put m ({ s with draft }.record fault)) := by
  rw [attempt, get_apply]
  cases w.shaders[m]? with
  | none => rfl
  | some s =>
    dsimp only
    cases call s.draft <;> rfl

theorem attempt_missing (missing : w.shaders[m]? = none) (call : Build α) :
    attempt m call w = (none, w) := by
  rw [attempt_apply, missing]

theorem attempt_ok (found : w.shaders[m]? = some s) {call : Build α} {a : α} {d : Draft}
    (run : call s.draft = .ok a d) :
    attempt m call w = (some a, w.put m { s with draft := d }) := by
  rw [attempt_apply, found]
  simp only [run]

theorem attempt_error (found : w.shaders[m]? = some s) {call : Build α}
    (run : call s.draft = .error fault d) :
    attempt m call w = (none, w.put m ({ s with draft := d }.record fault)) := by
  rw [attempt_apply, found]
  simp only [run]

theorem attempt_map (m : ShaderId) (f : α → β) (call : Build α) :
    attempt m (f <$> call) = Option.map f <$> attempt m call := by
  funext w
  show attempt m (f <$> call) w = ((attempt m call w).1.map f, (attempt m call w).2)
  cases found : w.shaders[m]? with
  | none => simp only [attempt_missing found, Option.map_none]
  | some s =>
    cases run : call s.draft with
    | ok a d =>
      rw [attempt_ok found run, attempt_ok (a := f a) (d := d) found]
      · rfl
      · simp only [Functor.map, EStateM.map, run]
    | error fault d =>
      rw [attempt_error found run, attempt_error (d := d) found]
      · rfl
      · simp only [Functor.map, EStateM.map, run]

end Front

/-! What requests come to. -/

namespace Argument

def isForeign (m : ShaderId) : Argument → Bool
  | .value v => v.shader != m
  | .literal _ => false

def call? : Argument → Option Call
  | .value _ => none
  | .literal l => some (.constant l)

def handleIn (m : ShaderId) (d : Draft) : Argument → Option Handle
  | .value v => if v.shader = m then v.handle else none
  | .literal _ => some d.graph.nextHandle

def handlesIn (m : ShaderId) (d : Draft) : List Argument → List (Option Handle)
  | [] => []
  | a :: rest => a.handleIn m d :: handlesIn m (d.after a.call?.toList) rest

def calls (arguments : List Argument) : List Call := arguments.filterMap call?

end Argument

inductive Fate where
  | done (reply : Reply)
  | refused (fault : Fault)
  /-- An operand was empty, and what was asked for was left out. -/
  | skipped
deriving DecidableEq, Inhabited

namespace Fate

def reply? : Fate → Option Reply
  | .done reply => some reply
  | _ => none

def fault? : Fate → Option Fault
  | .refused fault => some fault
  | _ => none

theorem reply?_eq_some {fate : Fate} : fate.reply? = some reply ↔ fate = .done reply := by
  cases fate <;> simp [reply?]

theorem fault?_eq_some {fate : Fate} : fate.fault? = some fault ↔ fate = .refused fault := by
  cases fate <;> simp [fault?]

def of : EStateM.Result Fault Draft Reply → Fate
  | .ok reply _ => .done reply
  | .error fault _ => .refused fault

end Fate

namespace Request

def ground (r : Request) (d : Draft) : Draft := d.after (Argument.calls r.arguments)

def asked (r : Request) (d : Draft) : Option Ask :=
  if r.ready then ((Argument.handlesIn r.shader d r.arguments).mapM id).map r.ask else none

def fate (r : Request) (d : Draft) : Fate :=
  if r.arguments.any (Argument.isForeign r.shader) then .refused .foreignValue
  else
    match r.asked d with
    | some ask => .of (ask.build (r.ground d))
    | none => .skipped

def leaves (r : Request) (d : Draft) : Draft :=
  match r.asked d with
  | some ask =>
      match ask.build (r.ground d) with
      | .ok _ d' => d'
      | .error _ d' => d'
  | none => r.ground d

end Request

/-- A shader after a request. The first fault stays. -/
def Shader.serving (s : Shader) (draft : Draft) (fault : Option Fault) : Shader :=
  { draft, fault := s.fault.or fault }

namespace Front

variable {w : World} {s : Shader}

theorem record_apply (m : ShaderId) (fault : Fault) (w : World) :
    record m fault w = ((), w.shaders[m]?.elim w fun s => w.put m (s.record fault)) := by
  rw [record, get_apply]
  cases w.shaders[m]? <;> rfl

end Front

@[simp] theorem Shader.serving_none (s : Shader) : s.serving s.draft none = s := by
  simp [serving]

theorem Shader.serving_serving (s : Shader) (d d' : Draft) (fault fault' : Option Fault) :
    (s.serving d fault).serving d' fault' = s.serving d' (fault.or fault') := by
  simp [serving, Option.or_assoc]

theorem Shader.record_eq (s : Shader) (fault : Fault) :
    s.record fault = s.serving s.draft (some fault) := by
  cases held : s.fault <;> simp [record, serving, held]

theorem constant_ok (d : Draft) (l : Literal) :
    Draft.constant l d = .ok d.graph.nextHandle ((Call.constant l).leaves d) := by
  have pushed : ShaderIR.Outcome (Draft.constant l) d
      (fun h d' => h = d.graph.nextHandle ∧ d' = d.withNode l.ty (.constant l) [])
      fun _ _ => False :=
    (Build.outcome_pushNode (by simp)).mpr ⟨rfl, rfl⟩
  obtain ⟨_, _, run, rfl, _⟩ := pushed.exists_ok
  simp only [Call.leaves, Call.run, Functor.map, EStateM.map, run]

namespace Front

variable {α β : Type} {w : World} {s : Shader}

theorem bring_apply (found : w.shaders[m]? = some s) (a : Argument) :
    a.bring m w = (a.handleIn m s.draft, w.put m (s.serving (s.draft.after a.call?.toList)
      (if a.isForeign m then some .foreignValue else none))) := by
  cases a with
  | literal l =>
    rw [Argument.bring, attempt_ok found (constant_ok s.draft l)]
    simp [Argument.handleIn, Argument.call?, Argument.isForeign, Shader.serving, Draft.after]
  | value v =>
    by_cases own : v.shader = m
    · have same : (Argument.value v).bring m = pure v.handle := if_pos own
      rw [same, Argument.handleIn, if_pos own]
      simp only [Argument.call?, Argument.isForeign, own, bne_self_eq_false, Bool.false_eq_true,
        if_false, Option.toList_none, Draft.after, Shader.serving_none, World.put_self found]
      rfl
    · have foreign : (Argument.value v).bring m = (do
          record m .foreignValue
          return none) := if_neg own
      have recorded : (Argument.value v).bring m w = (none, (record m .foreignValue w).2) := by
        rw [foreign]
        rfl
      rw [recorded, record_apply, found, Argument.handleIn, if_neg own]
      simp [Argument.call?, Argument.isForeign, own, Shader.record_eq, Draft.after]

theorem mapM_bring_apply (found : w.shaders[m]? = some s) (arguments : List Argument) :
    (arguments.mapM (Argument.bring m)) w =
      (Argument.handlesIn m s.draft arguments,
        w.put m (s.serving (s.draft.after (Argument.calls arguments))
          (if arguments.any (Argument.isForeign m) then some .foreignValue else none))) := by
  induction arguments generalizing w s with
  | nil =>
    simp only [Argument.handlesIn, Argument.calls, List.filterMap_nil, Draft.after, List.any_nil,
      Bool.false_eq_true, if_false, Shader.serving_none, World.put_self found]
    rfl
  | cons a rest ih =>
    have unfolded : ((a :: rest).mapM (Argument.bring m)) w =
        let first := a.bring m w
        let others := (rest.mapM (Argument.bring m)) first.2
        (first.1 :: others.1, others.2) := by
      rw [List.mapM_cons]
      rfl
    rw [unfolded, bring_apply found a]
    dsimp only
    have calls : Argument.calls (a :: rest) = a.call?.toList ++ Argument.calls rest := by
      cases a <;> rfl
    rw [ih (World.put_found found _), World.put_put, Shader.serving_serving, calls,
      Draft.after_append, List.any_cons]
    cases a.isForeign m <;> simp [Argument.handlesIn, Shader.serving]

theorem mapM_bring_missing (missing : w.shaders[m]? = none) (arguments : List Argument) :
    ((arguments.mapM (Argument.bring m)) w).2 = w := by
  induction arguments with
  | nil => rfl
  | cons a rest ih =>
    have kept : (a.bring m w).2 = w := by
      cases a with
      | literal l => rw [Argument.bring, attempt_missing missing]
      | value v =>
        by_cases own : v.shader = m
        · rw [Argument.bring, if_pos own]
          rfl
        · have recorded : ((Argument.value v).bring m w).2 = (record m .foreignValue w).2 := by
            rw [Argument.bring, if_neg own]
            rfl
          rw [recorded, record_apply, missing]
          rfl
    have unfolded : ((a :: rest).mapM (Argument.bring m) w).2 =
        (rest.mapM (Argument.bring m) (a.bring m w).2).2 := by
      rw [List.mapM_cons]
      rfl
    rw [unfolded, kept, ih]

end Front

namespace Request

variable {w : World} {s : Shader}

theorem perform_apply (r : Request) (w : World) :
    r.perform w =
      let brought := r.arguments.mapM (Argument.bring r.shader) w
      match brought.1.mapM id with
      | some handles =>
          if r.ready then Front.attempt r.shader (r.ask handles).build brought.2
          else (none, brought.2)
      | none => (none, brought.2) := by
  rw [perform, Front.bind_apply]
  dsimp only
  cases (r.arguments.mapM (Argument.bring r.shader) w).1.mapM id with
  | none => rfl
  | some handles => cases r.ready <;> rfl

/-- A value of another shader is as good as none. -/
theorem handlesIn_foreign (foreign : arguments.any (Argument.isForeign m) = true) (d : Draft) :
    (Argument.handlesIn m d arguments).mapM id = none := by
  induction arguments generalizing d with
  | nil => contradiction
  | cons a rest ih =>
    rw [Argument.handlesIn, List.mapM_cons]
    rw [List.any_cons, Bool.or_eq_true] at foreign
    rcases foreign with here | there
    · cases a with
      | literal l => contradiction
      | value v => simp [Argument.handleIn, bne_iff_ne.mp here]
    · cases a.handleIn m d <;> simp [ih there]

theorem own_of_full {handles : List Handle}
    (full : (Argument.handlesIn m d arguments).mapM id = some handles) :
    arguments.any (Argument.isForeign m) = false := by
  rw [Bool.eq_false_iff]
  intro foreign
  rw [handlesIn_foreign foreign] at full
  contradiction

theorem asked_iff {r : Request} {ask : Ask} :
    r.asked d = some ask ↔ r.ready = true ∧ ∃ handles,
      (Argument.handlesIn r.shader d r.arguments).mapM id = some handles ∧ r.ask handles = ask := by
  simp only [asked, Option.ite_none_right_eq_some, Option.map_eq_some_iff]

/-- A request to a shader gives what its fate is, and leaves the shader with it. -/
theorem perform_eq (r : Request) (found : w.shaders[r.shader]? = some s) :
    r.perform w = ((r.fate s.draft).reply?,
      w.put r.shader (s.serving (r.leaves s.draft) (r.fate s.draft).fault?)) := by
  rw [perform_apply, Front.mapM_bring_apply found]
  dsimp only
  unfold fate leaves asked
  cases foreign : r.arguments.any (Argument.isForeign r.shader) with
  | true =>
    simp [handlesIn_foreign foreign, Fate.reply?, Fate.fault?, ground]
  | false =>
    simp only [Bool.false_eq_true, if_false]
    cases (Argument.handlesIn r.shader s.draft r.arguments).mapM id with
    | none => simp [Fate.reply?, Fate.fault?, ground]
    | some handles =>
      cases r.ready with
      | false => simp [Fate.reply?, Fate.fault?, ground]
      | true =>
        simp only [if_true, Option.map_some]
        have there := World.put_found found (s.serving (r.ground s.draft) none)
        cases run : (r.ask handles).build (r.ground s.draft) with
        | ok reply d =>
          rw [ground] at there run
          rw [Front.attempt_ok there run]
          simp [Fate.of, Fate.reply?, Fate.fault?, Shader.serving]
        | error fault d =>
          rw [ground] at there run
          rw [Front.attempt_error there run]
          simp [Fate.of, Fate.reply?, Fate.fault?, Shader.record_eq, Shader.serving]

def calls (r : Request) (d : Draft) : List Call :=
  Argument.calls r.arguments ++ (r.asked d).elim [] Ask.calls

theorem leaves_eq (r : Request) (d : Draft) : r.leaves d = d.after (r.calls d) := by
  rw [leaves, calls, Draft.after_append]
  cases r.asked d with
  | none => rfl
  | some ask => exact ask.leaves_build _

/-- A request that is carried out asked for something, and the answer is its reply. -/
theorem done_iff {r : Request} :
    r.fate d = .done reply ↔
      ∃ ask d', r.asked d = some ask ∧ ask.build (r.ground d) = .ok reply d' := by
  unfold fate
  cases foreign : r.arguments.any (Argument.isForeign r.shader) with
  | true => simp [asked, handlesIn_foreign foreign]
  | false =>
    cases r.asked d with
    | none => simp
    | some ask => cases run : ask.build (r.ground d) <;> simp [Fate.of, run]

/-- A request is refused for a value of another shader, or by the draft. -/
theorem refused_cases {r : Request} (refused : r.fate d = .refused fault) :
    fault = .foreignValue ∨
      ∃ ask d', r.asked d = some ask ∧ ask.build (r.ground d) = .error fault d' := by
  unfold fate at refused
  split at refused
  · exact .inl (Fate.refused.inj refused).symm
  · cases asks : r.asked d with
    | none =>
      rw [asks] at refused
      contradiction
    | some ask =>
      rw [asks] at refused
      dsimp only at refused
      cases run : ask.build (r.ground d) with
      | ok reply d' =>
        rw [run] at refused
        contradiction
      | error fault' d' =>
        rw [run] at refused
        obtain rfl := Fate.refused.inj refused
        exact .inr ⟨ask, d', rfl, run⟩

theorem handlesIn_full (own : arguments.any (Argument.isForeign m) = false)
    (full : ∀ v, .value v ∈ arguments → v.handle.isSome) (d : Draft) :
    ((Argument.handlesIn m d arguments).mapM id).isSome := by
  induction arguments generalizing d with
  | nil => rfl
  | cons a rest ih =>
    rw [List.any_cons, Bool.or_eq_false_iff] at own
    obtain ⟨handles, others⟩ := Option.isSome_iff_exists.mp
      (ih own.2 (fun v member => full v (List.mem_cons_of_mem a member)) (d.after a.call?.toList))
    have first : (a.handleIn m d).isSome := by
      cases a with
      | literal l => rfl
      | value v =>
        have same : v.shader = m := by simpa [Argument.isForeign] using own.1
        rw [Argument.handleIn, if_pos same]
        exact full v (List.mem_cons_self ..)
    obtain ⟨h, first⟩ := Option.isSome_iff_exists.mp first
    simp [Argument.handlesIn, List.mapM_cons, first, others]

/-- A request is skipped only if the pointer or an argument is empty. -/
theorem skipped_lacks {r : Request} (skipped : r.fate d = .skipped) :
    r.ready = false ∨ ∃ v, .value v ∈ r.arguments ∧ v.shader = r.shader ∧ v.handle = none := by
  unfold fate at skipped
  split at skipped
  · contradiction
  · rename_i own
    rw [Bool.not_eq_true] at own
    by_contra neither
    rw [not_or] at neither
    have full : ∀ v, .value v ∈ r.arguments → v.handle.isSome := by
      intro v member
      rw [Option.isSome_iff_ne_none]
      intro empty
      have same : v.shader = r.shader := by
        simpa [Argument.isForeign] using List.any_eq_false.mp own _ member
      exact neither.2 ⟨v, member, same, empty⟩
    obtain ⟨handles, all⟩ := Option.isSome_iff_exists.mp (handlesIn_full own full d)
    rw [asked, if_pos (by simpa using neither.1), all] at skipped
    cases run : (r.ask handles).build (r.ground d) <;> simp [Fate.of, run] at skipped

theorem perform_missing (r : Request) (missing : w.shaders[r.shader]? = none) :
    r.perform w = (none, w) := by
  rw [perform_apply]
  dsimp only
  rw [Front.mapM_bring_missing missing]
  cases (r.arguments.mapM (Argument.bring r.shader) w).1.mapM id with
  | none => rfl
  | some handles => cases r.ready <;> simp [Front.attempt_missing missing]

end Request

end Frontend

end ShaderIR
