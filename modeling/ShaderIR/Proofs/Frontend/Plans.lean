import ShaderIR.Proofs.Frontend.Operations

/-! What actions plan to do. Once the names of an action are resolved and its types are found in the
tables, all that is left to do is one request; an action that does not get that far changes
nothing. -/
namespace ShaderIR.Frontend

variable {v : Value} {w : World} {name : String} {a : Action} {m : ShaderId}

inductive Gift where
  | value (kind : Kind)
  | pointer (target : Target)
  | done
  | stored
deriving DecidableEq, Inhabited

structure Plan where
  request : Request
  gift : Gift

namespace Plan

def outcome (p : Plan) (reply : Option Reply) (faulty : Bool) : Outcome :=
  match p.gift with
  | .value kind =>
      .value { kind, shader := p.request.shader, handle := reply.bind Reply.value? } faulty
  | .pointer target =>
      .pointer { target, shader := p.request.shader, place := reply.bind Reply.place? }
  | .done => .done faulty
  | .stored => .stored

def carry (p : Plan) : Front Outcome := do
  let reply ← p.request.perform
  return p.outcome reply (← Front.hasFault p.request.shader)

end Plan

def World.isFaulty (w : World) (m : ShaderId) : Bool :=
  w.shaders[m]?.elim false fun s => s.fault.isSome

theorem Front.hasFault_apply (m : ShaderId) (w : World) : hasFault m w = (w.isFaulty m, w) := by
  rw [hasFault, get_apply, World.isFaulty]
  cases w.shaders[m]? <;> rfl

theorem Plan.carry_apply (p : Plan) (w : World) :
    p.carry w = (p.outcome (p.request.perform w).1
      ((p.request.perform w).2.isFaulty p.request.shader),
      (p.request.perform w).2) := by
  have unfolded : p.carry w = (p.outcome (p.request.perform w).1
      (Front.hasFault p.request.shader (p.request.perform w).2).1,
      (Front.hasFault p.request.shader (p.request.perform w).2).2) := rfl
  rw [unfolded, Front.hasFault_apply]

def Operand.argument? (w : World) : Operand → Option Argument
  | .name n => (w.values.find? n).map .value
  | .literal l => some (.literal l)

/-- What an action plans to do in a world, if its names are bound and its types fit. -/
def Action.plan? (w : World) : Action → Option Plan
  | .input m kind => some ⟨.plain m (.addInput kind.ty), .value kind⟩
  | .output m a => do
      let a ← a.argument? w
      some ⟨.unary m a .output, .done⟩
  | .anyBuiltin m role a => do
      let a ← a.argument? w
      some ⟨.unary m a (.builtin role), .done⟩
  | .builtin m role a => do
      let a ← a.argument? w
      if fitsBuiltin role a.kind then some ⟨.unary m a (.builtin role), .done⟩ else none
  | .uniform m set binding members =>
      some ⟨.plain m (.uniform set binding (.struct members)), .pointer .block⟩
  | .storage m set binding members =>
      some ⟨.plain m (.storage set binding (.struct members)), .pointer .block⟩
  | .texture m dim set binding => some ⟨.plain m (.texture set binding dim), .value (.sampler dim)⟩
  | .localVariable m kind => some ⟨.plain m (.localVariable kind.ty), .pointer (.kind kind)⟩
  | .constant m a => do
      match ← a.argument? w with
      | .literal l => some ⟨.plain m (.constant l), .value (.ofLiteral l)⟩
      | .value v => if v.shader = m then none else some ⟨.bring m (.value v), .value v.kind⟩
  | .vector m arity parts => do
      let parts ← parts.mapM (Operand.argument? w)
      if parts.length == arity.toNat && parts.all fun a => a.kind == .float then
        some ⟨.construct m (Kind.vec arity).ty parts, .value (.vec arity)⟩
      else none
  | .array m element length parts => do
      let parts ← parts.mapM w.values.find?
      if parts.all fun v => v.kind == element then
        some ⟨.construct m (Kind.array element length).ty (parts.map .value),
          .value (.array element length)⟩
      else none
  | .arithmetic op a b => do
      let a ← a.argument? w
      let b ← b.argument? w
      let (op, kind) ← Kind.arithmetic? op a.kind b.kind
      match a, b with
      | .value v, _ => some ⟨.binary v.shader op (.value v) b, .value kind⟩
      | .literal l, .value v => some ⟨.binary v.shader op (.literal l) (.value v), .value kind⟩
      | .literal _, .literal _ => none
  | .negate a => do
      let a ← w.values.find? a
      if a.kind.isSigned then some ⟨.unary a.shader (.value a) .negate, .value a.kind⟩ else none
  | .dot a b => do
      let a ← w.values.find? a
      let b ← b.argument? w
      let kind ← Kind.dot? a.kind b.kind
      some ⟨.binary a.shader .dot (.value a) b, .value kind⟩
  | .compare op a b => do
      let a ← w.values.find? a
      let b ← b.argument? w
      if Kind.comparable op a.kind b.kind then
        some ⟨.binary a.shader op (.value a) b, .value .bool⟩
      else none
  | .select c a b => do
      let c ← w.values.find? c
      let a ← a.argument? w
      let b ← b.argument? w
      if c.kind == .bool && a.kind == b.kind then some ⟨.select c a b, .value a.kind⟩ else none
  | .sample a b => do
      let a ← w.values.find? a
      let b ← b.argument? w
      let coordinates ← a.kind.coordinates?
      if b.kind == coordinates then
        some ⟨.binary a.shader .lookup (.value a) b, .value (.vec .four)⟩
      else none
  | .component a b => do
      let a ← w.values.find? a
      let b ← b.argument? w
      match a.kind with
      | .vec _ =>
          if b.kind == .int then some ⟨.binary a.shader .lookup (.value a) b, .value .float⟩
          else none
      | _ => none
  | .column a i => do
      let a ← w.values.find? a
      match a.kind with
      | .mat arity =>
          some ⟨.binary a.shader .lookup (.value a) (.literal (.int i)), .value (.vec arity)⟩
      | _ => none
  | .member p kind i => do
      let p ← w.pointers.find? p
      some ⟨.member p i kind.ty, .pointer (.kind kind)⟩
  | .index p a => do
      let p ← w.pointers.find? p
      let a ← a.argument? w
      match p.target with
      | .kind kind => do
          let element ← kind.element?
          if a.kind == .int then some ⟨.index p a, .pointer (.kind element)⟩ else none
      | .block => none
  | .load p => do
      let p ← w.pointers.find? p
      match p.target with
      | .kind kind => some ⟨.load p, .value kind⟩
      | .block => none
  | .store p a => do
      let p ← w.pointers.find? p
      let a ← a.argument? w
      if p.target == .kind a.kind then some ⟨.store p a, .stored⟩ else none
  | .breakLoop m => some ⟨.plain m .breakLoop, .done⟩
  | .continueLoop m => some ⟨.plain m .continueLoop, .done⟩
  | .copy _ | .hasFault _ | .describe _ | .compile _ => none

section Names

variable {P P' : Value → Prop} {Q Q' : Pointer → Prop} {outcome : Outcome}

structure World.Each (P : Value → Prop) (Q : Pointer → Prop) (w : World) : Prop where
  values : ∀ name v, w.values.find? name = some v → P v
  pointers : ∀ name p, w.pointers.find? name = some p → Q p

def Outcome.Each (P : Value → Prop) (Q : Pointer → Prop) : Outcome → Prop
  | .value v _ => P v
  | .pointer p => Q p
  | _ => True

theorem Outcome.Each.imp (each : outcome.Each P Q) (values : ∀ v, P v → P' v)
    (pointers : ∀ p, Q p → Q' p) : outcome.Each P' Q' := by
  cases outcome with
  | value v => exact values v each
  | pointer p => exact pointers p each
  | _ => trivial

theorem World.Each.imp (each : w.Each P Q) (values : ∀ v, P v → P' v)
    (pointers : ∀ p, Q p → Q' p) : w.Each P' Q' :=
  ⟨fun name v bound => values v (each.values name v bound),
    fun name p bound => pointers p (each.pointers name p bound)⟩

theorem Assoc.each_insert {α : Type} {m : Assoc String α} {P : α → Prop} {value : α}
    (each : ∀ name v, m.find? name = some v → P v) (given : P value) (name name' : String) (v : α)
    (bound : (m.insert name value).find? name' = some v) : P v := by
  rw [Assoc.find?_insert] at bound
  split at bound
  · obtain rfl := Option.some.inj bound
    exact given
  · exact each name' v bound

theorem World.Each.bind (each : w.Each P Q) (given : outcome.Each P Q) (binder : Option String) :
    (w.bind binder outcome).Each P Q := by
  cases binder with
  | none => cases outcome <;> exact each
  | some name =>
    cases outcome with
    | value => exact ⟨Assoc.each_insert each.values given name, each.pointers⟩
    | pointer => exact ⟨each.values, Assoc.each_insert each.pointers given name⟩
    | _ => exact each

def Outcome.Known (w : World) : Outcome → Prop :=
  Outcome.Each (fun v => ∃ name, w.values.find? name = some v)
    fun p => ∃ name, w.pointers.find? name = some p

theorem Outcome.Known.each (known : outcome.Known w) (each : w.Each P Q) : outcome.Each P Q :=
  Outcome.Each.imp known (fun v ⟨name, bound⟩ => each.values name v bound)
    fun p ⟨name, bound⟩ => each.pointers name p bound

end Names

namespace Acting

variable {α β : Type}

/-- A part of an action that only reads the world, and what it reads. If there is nothing to read,
it ends the action. -/
def Reads (x : Acting α) (w : World) : Option α → Prop
  | some a => x.run w = (.ok a, w)
  | none => ∃ outcome : Outcome, x.run w = (.error outcome, w) ∧ outcome.Known w

/-- What a part of an action comes to: it carries out a plan, or it changes nothing and gives
nothing new. -/
def Follows (x : Acting Outcome) (w : World) : Option Plan → Prop
  | some plan => x.run w = (.ok (plan.carry w).1, (plan.carry w).2)
  | none => ∃ result : Except Outcome Outcome, x.run w = (result, w) ∧
      (match result with
        | .ok outcome => outcome
        | .error outcome => outcome).Known w

theorem bind_apply (x : Acting α) (f : α → Acting β) (w : World) :
    (x >>= f).run w = match x.run w with
      | (.ok a, w') => (f a).run w'
      | (.error outcome, w') => (.error outcome, w') := by
  have unfolded : (x >>= f).run w = ExceptT.bindCont f (x.run w).1 (x.run w).2 := rfl
  rw [unfolded]
  rcases x.run w with ⟨result, w'⟩
  cases result <;> rfl

theorem bind_read {x : Acting α} {a : α} (run : x.run w = (.ok a, w)) (f : α → Acting β) :
    (x >>= f).run w = (f a).run w := by
  rw [bind_apply, run]

theorem Reads.bind {x : Acting α} {answer : Option α} (reads : Reads x w answer)
    {f : α → Acting β} {g : α → Option β} (rest : ∀ a, answer = some a → Reads (f a) w (g a)) :
    Reads (x >>= f) w (answer >>= g) := by
  cases answer with
  | none =>
    obtain ⟨outcome, run, known⟩ := reads
    exact ⟨outcome, by rw [bind_apply, run], known⟩
  | some a =>
    simpa only [Reads, bind_read reads, Option.bind_eq_bind, Option.bind_some] using rest a rfl

theorem Follows.bind {x : Acting α} {answer : Option α} (reads : Reads x w answer)
    {f : α → Acting Outcome} {g : α → Option Plan}
    (rest : ∀ a, answer = some a → Follows (f a) w (g a)) :
    Follows (x >>= f) w (answer >>= g) := by
  cases answer with
  | none =>
    obtain ⟨outcome, run, known⟩ := reads
    exact ⟨.error outcome, by rw [bind_apply, run], known⟩
  | some a =>
    simpa only [Follows, bind_read reads, Option.bind_eq_bind, Option.bind_some] using rest a rfl

theorem get_apply (f : World → Acting α) (w : World) : (get >>= f).run w = (f w).run w := rfl

theorem reads_value (name : String) (w : World) : Reads (value name) w (w.values.find? name) := by
  unfold value
  cases found : w.values.find? name with
  | none => exact ⟨.unbound name, by rw [get_apply, found]; rfl, trivial⟩
  | some v => exact (get_apply ..).trans (by rw [found]; rfl)

theorem reads_pointer (name : String) (w : World) :
    Reads (pointer name) w (w.pointers.find? name) := by
  unfold pointer
  cases found : w.pointers.find? name with
  | none => exact ⟨.unbound name, by rw [get_apply, found]; rfl, trivial⟩
  | some p => exact (get_apply ..).trans (by rw [found]; rfl)

theorem reads_argument (a : Operand) (w : World) : Reads (argument a) w (a.argument? w) := by
  cases a with
  | literal l => rfl
  | name name =>
    have both : (Operand.name name).argument? w =
        w.values.find? name >>= fun v => some (.value v) := by
      cases found : w.values.find? name <;> simp [Operand.argument?, found]
    rw [both]
    exact (reads_value name w).bind fun v _ => rfl

theorem reads_entry (answer : Option α) (w : World) : Reads (entry answer) w answer := by
  cases answer with
  | none => exact ⟨.illTyped, rfl, trivial⟩
  | some a => rfl

theorem reads_mapM {x : α → Acting β} {f : α → Option β} (each : ∀ a, Reads (x a) w (f a))
    (items : List α) : Reads (items.mapM x) w (items.mapM f) := by
  induction items with
  | nil => rfl
  | cons a rest ih =>
    rw [List.mapM_cons, List.mapM_cons]
    exact (each a).bind fun b _ => ih.bind fun bs _ => rfl

/-- An action that has nothing to do with what it reads. -/
theorem Follows.quit {x : Acting α} {answer : Option α} (reads : Reads x w answer)
    {f : α → Acting Outcome} (rest : ∀ a, answer = some a → Follows (f a) w none) :
    Follows (x >>= f) w none := by
  have follows := Follows.bind reads rest
  cases answer <;> exact follows

theorem bound_of_argument {a : Operand} (found : a.argument? w = some (.value v)) :
    ∃ name, w.values.find? name = some v := by
  cases a with
  | literal l => simp [Operand.argument?] at found
  | name n =>
    refine ⟨n, ?_⟩
    simpa [Operand.argument?] using found

theorem Follows.ensure {wellTyped : Bool} {f : Unit → Acting Outcome} {plan : Option Plan}
    (rest : wellTyped = true → Follows (f ()) w plan) :
    Follows (Acting.ensure wellTyped >>= f) w (if wellTyped then plan else none) := by
  cases wellTyped with
  | false => exact ⟨.error .illTyped, rfl, trivial⟩
  | true => exact rest rfl

theorem follows_illTyped (w : World) : Follows (throw .illTyped) w none :=
  ⟨.error .illTyped, rfl, trivial⟩

/-! What is left to do when everything is read. -/

theorem follows_value (r : Request) (kind : Kind) (w : World) :
    Follows (do gives (← r.value kind)) w (some ⟨r, .value kind⟩) := rfl

theorem follows_pointer (r : Request) (target : Target) (w : World) :
    Follows (do return .pointer (← r.pointer target)) w (some ⟨r, .pointer target⟩) := by
  simp only [Follows, Plan.carry_apply]
  rfl

theorem follows_done (r : Request) (w : World) :
    Follows (do r.make; finishes r.shader) w (some ⟨r, .done⟩) := rfl

theorem follows_stored (r : Request) (w : World) :
    Follows (do r.make; return .stored) w (some ⟨r, .stored⟩) := by
  simp only [Follows, Plan.carry_apply]
  rfl

end Acting

open Acting in
/-- An action carries out its plan; one that has none, and is not a compilation, changes nothing. -/
theorem Action.run_follows (a : Action) (w : World) (other : ∀ m, a ≠ .compile m) :
    Follows a.run w (a.plan? w) := by
  cases a with
  | compile m => exact absurd rfl (other m)
  | input | texture =>
    simp only [run, Front.input_eq, Front.texture_eq]
    exact follows_value ..
  | uniform | storage | localVariable =>
    simp only [run, Front.uniform_eq, Front.storage_eq, Front.localVariable_eq]
    exact follows_pointer ..
  | breakLoop | continueLoop =>
    simp only [run, Front.breakLoop_eq, Front.continueLoop_eq]
    exact follows_done ..
  | output _ a | anyBuiltin _ _ a =>
    refine Follows.bind (reads_argument a w) fun a _ => ?_
    simp only [Front.output_eq, Front.builtin_eq]
    exact follows_done ..
  | builtin m role a =>
    refine Follows.bind (reads_argument a w) fun a _ => Follows.ensure fun _ => ?_
    rw [Front.builtin_eq]
    exact follows_done ..
  | constant m a =>
    refine Follows.bind (reads_argument a w) fun b found => ?_
    cases b with
    | literal l =>
      rw [Front.constant_literal_eq]
      exact follows_value ..
    | value v =>
      by_cases own : v.shader = m
      · dsimp only
        rw [if_pos own]
        refine ⟨.ok (.value v (w.isFaulty m)), ?_, bound_of_argument found⟩
        have given : (do gives (← Front.constant m (.value v)) : Acting Outcome).run w =
            (.ok (.value { kind := v.kind, shader := m, handle := v.handle }
              (Front.hasFault m w).1), (Front.hasFault m w).2) := by
          simp only [Front.constant, Argument.bring, if_pos own]
          rfl
        rw [given, Front.hasFault_apply, ← own]
      · dsimp only
        rw [Front.constant_foreign_eq own, if_neg own]
        exact follows_value ..
  | vector m arity parts =>
    refine Follows.bind (reads_mapM (fun a => reads_argument a w) parts) fun parts _ =>
      Follows.ensure fun _ => ?_
    rw [Front.construct_eq]
    exact follows_value ..
  | array m element length parts =>
    refine Follows.bind (reads_mapM (fun a => reads_value a w) parts) fun parts _ =>
      Follows.ensure fun _ => ?_
    rw [Front.construct_eq]
    exact follows_value ..
  | arithmetic op a b =>
    refine Follows.bind (reads_argument a w) fun a _ =>
      Follows.bind (reads_argument b w) fun b _ =>
        Follows.bind (reads_entry _ w) fun lowered _ => ?_
    obtain ⟨op, kind⟩ := lowered
    cases a with
    | value v =>
      dsimp only
      rw [Front.binary_eq]
      exact follows_value ..
    | literal l =>
      cases b with
      | value v =>
        dsimp only
        rw [Front.binaryLiteral_eq]
        exact follows_value ..
      | literal => exact follows_illTyped w
  | negate a =>
    refine Follows.bind (reads_value a w) fun a _ => Follows.ensure fun _ => ?_
    rw [Front.negate_eq]
    exact follows_value ..
  | dot a b =>
    refine Follows.bind (reads_value a w) fun a _ =>
      Follows.bind (reads_argument b w) fun b _ =>
        Follows.bind (reads_entry _ w) fun kind _ => ?_
    rw [Front.binary_eq]
    exact follows_value ..
  | compare op a b =>
    refine Follows.bind (reads_value a w) fun a _ =>
      Follows.bind (reads_argument b w) fun b _ => Follows.ensure fun _ => ?_
    rw [Front.binary_eq]
    exact follows_value ..
  | select c a b =>
    refine Follows.bind (reads_value c w) fun c _ =>
      Follows.bind (reads_argument a w) fun a _ =>
        Follows.bind (reads_argument b w) fun b _ => Follows.ensure fun _ => ?_
    rw [Front.select_eq]
    exact follows_value ..
  | sample a b =>
    refine Follows.bind (reads_value a w) fun a _ =>
      Follows.bind (reads_argument b w) fun b _ =>
        Follows.bind (reads_entry _ w) fun coordinates _ => Follows.ensure fun _ => ?_
    rw [Front.binary_eq]
    exact follows_value ..
  | component a b =>
    refine Follows.bind (reads_value a w) fun a _ =>
      Follows.bind (reads_argument b w) fun b _ => ?_
    rcases a.kind <;> try exact follows_illTyped w
    refine Follows.ensure fun _ => ?_
    rw [Front.binary_eq]
    exact follows_value ..
  | column a i =>
    refine Follows.bind (reads_value a w) fun a _ => ?_
    rcases a.kind <;> try exact follows_illTyped w
    dsimp only
    rw [Front.binary_eq]
    exact follows_value ..
  | member p kind i =>
    refine Follows.bind (reads_pointer p w) fun p _ => ?_
    rw [Front.member_eq]
    exact follows_pointer ..
  | index p a =>
    refine Follows.bind (reads_pointer p w) fun p _ =>
      Follows.bind (reads_argument a w) fun a _ => ?_
    cases p.target with
    | block => exact follows_illTyped w
    | kind kind =>
      refine Follows.bind (reads_entry _ w) fun element _ => Follows.ensure fun _ => ?_
      rw [Front.index_eq]
      exact follows_pointer ..
  | load p =>
    refine Follows.bind (reads_pointer p w) fun p _ => ?_
    cases p.target with
    | block => exact follows_illTyped w
    | kind kind =>
      dsimp only
      rw [Front.load_eq]
      exact follows_value ..
  | store p a =>
    refine Follows.bind (reads_pointer p w) fun p _ =>
      Follows.bind (reads_argument a w) fun a _ => Follows.ensure fun _ => ?_
    rw [Front.store_eq]
    exact follows_stored ..
  | copy p =>
    refine Follows.quit (reads_pointer p w) fun q found => ?_
    exact ⟨.ok (.pointer q), rfl, p, found⟩
  | hasFault m =>
    refine ⟨.ok (.faulty (w.isFaulty m)), ?_, trivial⟩
    have given : (Action.run (.hasFault m)).run w =
        (.ok (.faulty (Front.hasFault m w).1), (Front.hasFault m w).2) := rfl
    rw [given, Front.hasFault_apply]
  | describe m => exact ⟨_, rfl, trivial⟩

/-! What a plan takes from the world. -/

def Argument.Bound (w : World) (a : Argument) : Prop :=
  ∀ v, a = .value v → ∃ name, w.values.find? name = some v

theorem Operand.argument_bound {operand : Operand} {a : Argument}
    (found : operand.argument? w = some a) : a.Bound w := by
  rintro v rfl
  exact Acting.bound_of_argument found

theorem Argument.bound_value (found : w.values.find? name = some v) :
    (Argument.value v).Bound w := by
  rintro v' ⟨⟩
  exact ⟨name, found⟩

theorem Argument.bound_literal (w : World) (l : Literal) : (Argument.literal l).Bound w := by
  intro v same
  contradiction

theorem mapM_each {α β : Type} {P : β → Prop} {f : α → Option β}
    (each : ∀ a b, f a = some b → P b) {items : List α} {results : List β}
    (mapped : items.mapM f = some results) : ∀ b ∈ results, P b := by
  induction items generalizing results with
  | nil =>
    obtain rfl := Option.some.inj mapped
    simp
  | cons a rest ih =>
    simp only [List.mapM_cons, Option.bind_eq_bind, Option.bind_eq_some_iff, Option.pure_def,
      Option.some.injEq] at mapped
    obtain ⟨b, first, others, later, rfl⟩ := mapped
    simp only [List.mem_cons, forall_eq_or_imp]
    exact ⟨each a b first, ih later⟩

structure Plan.Bound (w : World) (plan : Plan) : Prop where
  arguments : ∀ a ∈ plan.request.arguments, a.Bound w
  ready : plan.request.ready = false → ∃ name p, w.pointers.find? name = some p ∧
    p.shader = plan.request.shader ∧ p.place = none

theorem Plan.bound_through {p : Pointer} (found : w.pointers.find? name = some p)
    {arguments : List Argument} {ask : Place → List Handle → Ask} {gift : Gift}
    (bound : ∀ a ∈ arguments, a.Bound w) : Plan.Bound w ⟨.through p arguments ask, gift⟩ :=
  ⟨bound, fun empty => ⟨name, p, found, rfl, by simpa [Request.through] using empty⟩⟩

theorem Plan.bound_ready {request : Request} {gift : Gift} (ready : request.ready = true)
    (bound : ∀ a ∈ request.arguments, a.Bound w) : Plan.Bound w ⟨request, gift⟩ :=
  ⟨bound, fun empty => by simp [ready] at empty⟩

/-! The outcomes of actions. -/

theorem Action.outcome_apply (a : Action) (w : World) :
    a.outcome w = ((match (a.run.run w).1 with
      | .ok outcome => outcome
      | .error outcome => outcome), (a.run.run w).2) := by
  rw [outcome, Front.bind_apply]
  rcases a.run.run w with ⟨result, w'⟩
  cases result <;> rfl

theorem Action.outcome_planned {plan : Plan} (planned : a.plan? w = some plan) :
    a.outcome w = plan.carry w := by
  have follows : Acting.Follows a.run w (some plan) := by
    rw [← planned]
    apply run_follows
    rintro m rfl
    contradiction
  rw [outcome_apply, show a.run.run w = _ from follows]
  rfl

theorem Action.outcome_idle (idle : a.plan? w = none) (other : ∀ m, a ≠ .compile m) :
    ∃ outcome, a.outcome w = (outcome, w) ∧ outcome.Known w := by
  have follows := a.run_follows w other
  rw [idle] at follows
  obtain ⟨result, run, known⟩ := follows
  exact ⟨_, by rw [outcome_apply, run], known⟩

theorem Front.compile_apply (m : ShaderId) (w : World) :
    Front.compile m w = (w.shaders[m]?.map fun s => s.compiled.result,
      (w.shaders[m]?.map fun s => w.put m s.compiled.shader).getD w) := by
  rw [Front.compile, Front.get_apply]
  cases w.shaders[m]? <;> rfl

theorem Acting.compile_apply (m : ShaderId) (w : World) : (Front.compile m : Acting _).run w =
    (.ok (Front.compile m w).1, (Front.compile m w).2) := rfl

theorem Action.outcome_compile {s : Shader} (found : w.shaders[m]? = some s) :
    (Action.compile m).outcome w = ((match s.compiled.result with
      | .ok compiled => .module compiled
      | .error fault => .fault fault), w.put m s.compiled.shader) := by
  rw [outcome_apply, Action.run, Acting.bind_apply, Acting.compile_apply, Front.compile_apply,
    found, Option.map_some, Option.map_some]
  cases s.compiled.result <;> rfl

theorem Action.outcome_compile_missing (missing : w.shaders[m]? = none) :
    (Action.compile m).outcome w = (.illTyped, w) := by
  rw [outcome_apply, Action.run, Acting.bind_apply, Acting.compile_apply, Front.compile_apply,
    missing]
  rfl

end ShaderIR.Frontend
