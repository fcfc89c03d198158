import ShaderIR.Proofs.Frontend.Requests

/-! The operations of the front end as requests, with one equation for each. -/
namespace ShaderIR.Frontend.Front

theorem build_eq (m : ShaderId) (kind : Kind) (call : Build Handle) :
    build m kind call = do
      return { kind, shader := m
               handle := (← attempt m (Reply.value <$> call)).bind Reply.value? } := by
  simp only [build, attempt_map, bind_map_left]
  congr 1
  funext h
  cases h <;> rfl

theorem buildPointer_eq (m : ShaderId) (target : Target) (call : Build Place) :
    buildPointer m target call = do
      return { target, shader := m
               place := (← attempt m (Reply.place <$> call)).bind Reply.place? } := by
  simp only [buildPointer, attempt_map, bind_map_left]
  congr 1
  funext p
  cases p <;> rfl

theorem perform_plain (m : ShaderId) (c : Call) :
    (Request.plain m c).perform = attempt m c.run := by
  simp [Request.perform, Request.plain, Ask.build]

theorem perform_unary (m : ShaderId) (a : Argument) (call : Handle → Call) :
    (Request.unary m a call).perform = do
      match ← a.bring m with
      | some h => attempt m (call h).run
      | none => return none := by
  simp only [Request.perform, Request.unary, List.mapM_cons, List.mapM_nil, bind_assoc, pure_bind,
    if_true]
  congr 1
  funext h
  cases h <;> rfl

theorem perform_binary (m : ShaderId) (op : BinaryOp) (a b : Argument) :
    (Request.binary m op a b).perform = do
      match ← a.bring m, ← b.bring m with
      | some x, some y => attempt m (Call.binary op x y).run
      | _, _ => return none := by
  simp only [Request.perform, Request.binary, List.mapM_cons, List.mapM_nil, bind_assoc, pure_bind,
    if_true]
  congr 1
  funext x
  congr 1
  funext y
  cases x <;> cases y <;> rfl

/-- A request through an empty pointer brings its arguments and ends there. -/
theorem perform_through_empty {p : Pointer} (empty : p.place = none) (arguments : List Argument)
    (ask : Place → List Handle → Ask) :
    (Request.through p arguments ask).perform = do
      let _ ← arguments.mapM (Argument.bring p.shader)
      return none := by
  simp only [Request.perform, Request.through, empty, Option.isSome_none, Bool.false_eq_true,
    if_false]
  congr 1
  funext handles
  cases handles.mapM id <;> rfl

theorem input_eq (m : ShaderId) (kind : Kind) :
    input m kind = (Request.plain m (.addInput kind.ty)).value kind := by
  simp only [input, build_eq, Request.value, perform_plain]
  rfl

theorem texture_eq (m : ShaderId) (dim : Dim) (set binding : Word) :
    texture m dim set binding =
      (Request.plain m (.texture set binding dim)).value (.sampler dim) := by
  simp only [texture, build_eq, Request.value, perform_plain]
  rfl

theorem uniform_eq (m : ShaderId) (set binding : Word) (members : List Ty) :
    uniform m set binding members =
      (Request.plain m (.uniform set binding (.struct members))).pointer .block := by
  simp only [uniform, buildPointer_eq, Request.pointer, perform_plain]
  rfl

theorem storage_eq (m : ShaderId) (set binding : Word) (members : List Ty) :
    storage m set binding members =
      (Request.plain m (.storage set binding (.struct members))).pointer .block := by
  simp only [storage, buildPointer_eq, Request.pointer, perform_plain]
  rfl

theorem localVariable_eq (m : ShaderId) (kind : Kind) :
    localVariable m kind = (Request.plain m (.localVariable kind.ty)).pointer (.kind kind) := by
  simp only [localVariable, buildPointer_eq, Request.pointer, perform_plain]
  rfl

theorem breakLoop_eq (m : ShaderId) :
    breakLoop m = (Request.plain m .breakLoop).make := by
  simp only [breakLoop, Request.make, perform_plain, Call.run, attempt_map, bind_map_left]

theorem continueLoop_eq (m : ShaderId) :
    continueLoop m = (Request.plain m .continueLoop).make := by
  simp only [continueLoop, Request.make, perform_plain, Call.run, attempt_map, bind_map_left]

theorem output_eq (m : ShaderId) (a : Argument) :
    output m a = (Request.unary m a .output).make := by
  simp only [output, Request.make, perform_unary, bind_assoc]
  congr 1
  funext h
  cases h with
  | none => rfl
  | some h => simp only [Call.run, attempt_map, bind_map_left]

theorem builtin_eq (m : ShaderId) (role : Builtin) (a : Argument) :
    builtin m role a = (Request.unary m a (.builtin role)).make := by
  simp only [builtin, Request.make, perform_unary, bind_assoc]
  congr 1
  funext h
  cases h with
  | none => rfl
  | some h => simp only [Call.run, attempt_map, bind_map_left]

theorem constant_literal_eq (m : ShaderId) (l : Literal) :
    constant m (.literal l) = (Request.plain m (.constant l)).value (.ofLiteral l) := by
  simp only [constant, Argument.bring, Argument.kind, Request.value, perform_plain, Call.run,
    attempt_map, bind_map_left]
  congr 1
  funext h
  cases h <;> rfl

/-- A value of another shader is brought in, as far as that goes. -/
theorem constant_foreign_eq {m : ShaderId} {v : Value} (foreign : v.shader ≠ m) :
    constant m (.value v) = (Request.bring m (.value v)).value v.kind := by
  have brought : (Argument.value v).bring m = (do
      record m .foreignValue
      return none) := if_neg foreign
  simp only [constant, Argument.kind, Request.value, Request.perform, Request.bring, brought,
    List.mapM_cons, List.mapM_nil, bind_assoc, pure_bind]
  rfl

theorem construct_eq (m : ShaderId) (kind : Kind) (parts : List Argument) :
    construct m kind parts = (Request.construct m kind.ty parts).value kind := by
  simp only [construct, Request.value, Request.perform, Request.construct, bind_assoc, if_true,
    build_eq]
  congr 1
  funext handles
  cases handles.mapM id <;> rfl

theorem bring_own (v : Value) : (Argument.value v).bring v.shader = pure v.handle := if_pos rfl

theorem binary_eq (op : BinaryOp) (kind : Kind) (lhs : Value) (rhs : Argument) :
    binary op kind lhs rhs = (Request.binary lhs.shader op (.value lhs) rhs).value kind := by
  simp only [binary, combine, Request.value, perform_binary, bring_own, pure_bind, bind_assoc,
    build_eq]
  congr 1
  funext b
  cases lhs.handle <;> cases b <;> rfl

theorem binaryLiteral_eq (op : BinaryOp) (kind : Kind) (lhs : Literal) (rhs : Value) :
    binaryLiteral op kind lhs rhs =
      (Request.binary rhs.shader op (.literal lhs) (.value rhs)).value kind := by
  simp only [binaryLiteral, constant, binary, combine, Request.value, perform_binary, bring_own,
    pure_bind, bind_assoc, build_eq]
  congr 1
  funext a
  cases a <;> cases rhs.handle <;> rfl

theorem negate_eq (a : Value) :
    negate a = (Request.unary a.shader (.value a) .negate).value a.kind := by
  simp only [negate, Request.value, perform_unary, bring_own, pure_bind, build_eq]
  cases empty : a.handle with
  | none =>
    have same : a = { kind := a.kind, shader := a.shader, handle := none } := by rw [← empty]
    rw [same]
    rfl
  | some h => rfl

theorem select_eq (condition : Value) (kind : Kind) (accept reject : Argument) :
    select condition kind accept reject = (Request.select condition accept reject).value kind := by
  simp only [select, Request.value, Request.perform, Request.select, List.mapM_cons, List.mapM_nil,
    bring_own, bind_assoc, pure_bind, if_true, build_eq]
  congr 1
  funext a
  congr 1
  funext b
  cases condition.handle <;> cases a <;> cases b <;> rfl

theorem member_eq (p : Pointer) (kind : Kind) (index : Word) :
    member p kind index = (Request.member p index kind.ty).pointer (.kind kind) := by
  cases found : p.place with
  | none =>
    simp only [member, found, Request.pointer, Request.member, perform_through_empty found]
    rfl
  | some place =>
    have checked : Reply.place <$> (do
        let part ← Draft.member place index
        let found ← Draft.pointee part
        if found ≠ kind.ty then throw (.typeMismatch kind.ty found)
        return part) = (Ask.member place index kind.ty).build := by
      simp only [Ask.build, map_bind]
      congr 1
      funext part
      congr 1
      funext found
      split <;> rfl
    simp only [member, found, buildPointer_eq, checked, Request.pointer, Request.member,
      Request.perform, Request.through]
    rfl

theorem index_eq (p : Pointer) (kind : Kind) (a : Argument) :
    index p kind a = (Request.index p a).pointer (.kind kind) := by
  cases found : p.place with
  | none =>
    simp only [index, found, Request.pointer, Request.index, perform_through_empty found,
      List.mapM_cons, List.mapM_nil, bind_assoc, pure_bind]
    rfl
  | some place =>
    simp only [index, found, Request.pointer, Request.index, Request.perform, Request.through,
      List.mapM_cons, List.mapM_nil, bind_assoc, pure_bind, buildPointer_eq]
    congr 1
    funext h
    cases h <;> rfl

theorem load_eq (p : Pointer) (kind : Kind) : load p kind = (Request.load p).value kind := by
  cases found : p.place with
  | none =>
    simp only [load, found, Request.value, Request.load, perform_through_empty found]
    rfl
  | some place =>
    simp [load, found, Request.value, Request.load, Request.perform, Request.through, Ask.build,
      build_eq, Call.run]

theorem store_eq (p : Pointer) (a : Argument) :
    store p a = (Request.store p a).make := by
  cases found : p.place with
  | none => simp [store, found, Request.make, Request.store, perform_through_empty found]
  | some place =>
    simp only [store, found, Request.make, Request.store, Request.perform, Request.through,
      List.mapM_cons, List.mapM_nil, bind_assoc, pure_bind]
    congr 1
    funext h
    cases h with
    | none => rfl
    | some h => simp [Ask.one, Ask.build, Call.run, attempt_map]

/-! Blocks. -/

section Blocks

variable {α : Type} (m : ShaderId)

theorem ifThen_eq (condition : Argument) (body : Front α) :
    ifThen m condition body = do
      match ← (Request.unary m condition .beginIf).perform with
      | none => return none
      | some _ =>
          let a ← body
          (Request.plain m .endIf).make
          return some a := by
  simp only [ifThen, Request.make, perform_unary, perform_plain, bind_assoc, Call.run, attempt_map,
    bind_map_left]
  congr 1
  funext h
  cases h with
  | none => rfl
  | some h =>
    simp only [bind_map_left]
    congr 1
    funext opened
    cases opened <;> rfl

theorem ifThenElse_eq (condition : Argument) (body otherwise : Front α) :
    ifThenElse m condition body otherwise = ifThen m condition do
      let a ← body
      (Request.plain m .beginElse).make
      let b ← otherwise
      return (a, b) := by
  simp only [ifThenElse, Request.make, perform_plain, Call.run, attempt_map, bind_map_left,
    bind_assoc, pure_bind]

theorem forRange_eq (first last : Int32) (body : Value → Front α) :
    forRange m first last body = do
      match (← (Request.plain m (.beginFor first last)).perform).bind Reply.value? with
      | none => return none
      | some counter =>
          let a ← body { kind := .int, shader := m, handle := some counter }
          (Request.plain m .endFor).make
          return some a := by
  simp only [forRange, Request.make, perform_plain, bind_assoc, pure_bind, Call.run, attempt_map,
    bind_map_left]
  congr 1
  funext counter
  cases counter <;> rfl

end Blocks

end ShaderIR.Frontend.Front
