import ShaderIR.Draft.Expression
import ShaderIR.Instruction.Basic
import ShaderIR.Proofs.Fitting
import ShaderIR.Proofs.Declarable

/-! When an instruction is well typed. The rules speak of ids: of the types they stand for, of the
types of the values they hold, and of the literals they are constants of. They are stated on their
own; the checks that calls make while a draft is built are then shown to imply them. -/
namespace ShaderIR

variable {component part ty whole : Ty} {indices : List Id}

namespace Ty

def IsOf (ty component : Ty) : Prop := ty = component ∨ ∃ rows, ty = .vector component rows

inductive MadeOf : Ty → Nat → Ty → Prop where
  | vector (component : Ty) (rows : Word) : MadeOf (.vector component rows) rows.toNat component
  | matrix (component : Ty) (rows columns : Word) : 1 < columns →
      MadeOf (.matrix component rows columns) columns.toNat (.vector component rows)
  | array (element : Ty) (length : Word) : MadeOf (.array element length) length.toNat element

inductive Indexed : Ty → Ty → Prop where
  | array (element : Ty) (length : Word) : Indexed (.array element length) element
  | runtimeArray (element : Ty) : Indexed (.runtimeArray element) element
  | vector (component : Ty) (rows : Word) : Indexed (.vector component rows) component
  | matrix (component : Ty) (rows columns : Word) : 1 < columns →
      Indexed (.matrix component rows columns) (.vector component rows)

end Ty

/-- The types of the operands of an operation, in order, and of its result. -/
inductive Operation.Types : Operation → List Ty → Ty → Prop where
  | negateSigned {ty : Ty} {width : Word} : ty.IsOf (.int width true) → Types .sNegate [ty] ty
  | negateFloat {ty : Ty} {width : Word} : ty.IsOf (.float width) → Types .fNegate [ty] ty
  | integers {operation : Operation} {ty : Ty} {width : Word} {signed : Bool} :
      operation ∈ [iAdd, iSub, iMul] → ty.IsOf (.int width signed) → Types operation [ty, ty] ty
  | divideUnsigned {ty : Ty} {width : Word} : ty.IsOf (.int width false) → Types .uDiv [ty, ty] ty
  | divideSigned {ty : Ty} {width : Word} : ty.IsOf (.int width true) → Types .sDiv [ty, ty] ty
  | floats {operation : Operation} {ty : Ty} {width : Word} :
      operation ∈ [fAdd, fSub, fMul, fDiv] → ty.IsOf (.float width) → Types operation [ty, ty] ty
  | vectorTimesScalar (width rows : Word) :
      Types .vectorTimesScalar [.vector (.float width) rows, .float width]
        (.vector (.float width) rows)
  | matrixTimesScalar {width rows columns : Word} : 1 < columns →
      Types .matrixTimesScalar [.matrix (.float width) rows columns, .float width]
        (.matrix (.float width) rows columns)
  | dot (width rows : Word) :
      Types .dot [.vector (.float width) rows, .vector (.float width) rows] (.float width)
  | vectorTimesMatrix {width rows columns : Word} : 1 < columns →
      Types .vectorTimesMatrix [.vector (.float width) rows, .matrix (.float width) rows columns]
        (.vector (.float width) columns)
  | matrixTimesMatrix {width rows inner columns : Word} : 1 < inner → 1 < columns →
      Types .matrixTimesMatrix
        [.matrix (.float width) rows inner, .matrix (.float width) inner columns]
        (.matrix (.float width) rows columns)
  | compareBooleans {operation : Operation} {ty : Ty} :
      operation ∈ [logicalEqual, logicalNotEqual] → ty.IsOf .bool →
      Types operation [ty, ty] ty.toBool
  | compareIntegers {operation : Operation} {ty : Ty} {width : Word} {signed : Bool} :
      operation ∈ [iEqual, iNotEqual] → ty.IsOf (.int width signed) →
      Types operation [ty, ty] ty.toBool
  | compareUnsigned {operation : Operation} {ty : Ty} {width : Word} :
      operation ∈ [uGreaterThan, uGreaterThanEqual, uLessThan, uLessThanEqual] →
      ty.IsOf (.int width false) → Types operation [ty, ty] ty.toBool
  | compareSigned {operation : Operation} {ty : Ty} {width : Word} :
      operation ∈ [sGreaterThan, sGreaterThanEqual, sLessThan, sLessThanEqual] →
      ty.IsOf (.int width true) → Types operation [ty, ty] ty.toBool
  | compareFloats {operation : Operation} {ty : Ty} {width : Word} :
      operation ∈ [fOrdEqual, fOrdNotEqual, fOrdLessThan, fOrdGreaterThan, fOrdLessThanEqual,
        fOrdGreaterThanEqual] →
      ty.IsOf (.float width) → Types operation [ty, ty] ty.toBool

structure Typing where
  /-- The type that an id stands for. -/
  type : Id → Ty → Prop
  /-- The type of the value that an id holds. -/
  value : Id → Ty → Prop
  /-- The literal that an id is the constant of. -/
  literal : Id → Literal → Prop

namespace Typing

variable (t : Typing)

/-- The type that indices lead to. A member of a struct is named by a constant. -/
inductive Walks : Ty → List Id → Ty → Prop where
  | here (ty : Ty) : Walks ty [] ty
  | member {members : List Ty} {index : Id} {literal : Literal} {ty part : Ty} {rest : List Id} :
      t.literal index literal → literal.ty.isInteger = true →
      members[literal.word.toNat]? = some ty → Walks ty rest part →
      Walks (.struct members) (index :: rest) part
  | element {whole ty part : Ty} {index : Id} {integer : Ty} {rest : List Id} :
      whole.Indexed ty → t.value index integer → integer.isInteger = true → Walks ty rest part →
      Walks whole (index :: rest) part

inductive WellTyped : Instruction → Prop where
  | label (result : Id) : WellTyped (.label result)
  | variableDecl {type result : Id} {storage : Storage} {ty : Ty} :
      t.type type (.pointer storage ty) → WellTyped (.variableDecl type result storage)
  | load {type result source : Id} {storage : Storage} {ty : Ty} :
      t.value source (.pointer storage ty) → t.type type ty → WellTyped (.load type result source)
  | store {target value : Id} {storage : Storage} {ty : Ty} :
      t.value target (.pointer storage ty) → t.value value ty → WellTyped (.store target value)
  | accessChain {type result base : Id} {indices : List Id} {storage : Storage} {whole part : Ty} :
      t.value base (.pointer storage whole) → t.Walks whole indices part →
      t.type type (.pointer storage part) → WellTyped (.accessChain type result base indices)
  | compute {operation : Operation} {type result : Id} {operands : List Id} {tys : List Ty} {ty : Ty} :
      operation.Types tys ty → List.Forall₂ t.value operands tys → t.type type ty →
      WellTyped (.compute operation type result operands)
  | select {type result condition accept reject : Id} {ty choice : Ty} :
      t.value condition choice → t.value accept ty → t.value reject ty → t.type type ty →
      (choice = .bool ∨
        ∃ component rows, ty = .vector component rows ∧ choice = .vector .bool rows) →
      WellTyped (.select type result condition accept reject)
  | construct {type result : Id} {parts : List Id} {ty part : Ty} :
      t.type type ty → ty.MadeOf parts.length part → (∀ id ∈ parts, t.value id part) →
      WellTyped (.construct type result parts)
  | extract {type result composite : Id} {component : Ty} {rows columns index : Word} :
      t.value composite (.matrix component rows columns) → 1 < columns → index < columns →
      t.type type (.vector component rows) → WellTyped (.extract type result composite index)
  | extractDynamic {type result vector index : Id} {component integer : Ty} {rows : Word} :
      t.value vector (.vector component rows) → t.value index integer →
      integer.isInteger = true → t.type type component →
      WellTyped (.extractDynamic type result vector index)
  | sample {type result image coordinates lod : Id} {dim : Dim} {depth arrayed : Bool} :
      t.value image (.texture (.image dim depth arrayed)) →
      t.value coordinates (.vec dim.coordinates) → t.value lod .single → t.type type (.vec 4) →
      WellTyped (.sample type result image coordinates lod)
  | selectionMerge (merge : Id) : WellTyped (.selectionMerge merge)
  | loopMerge (merge continuing : Id) : WellTyped (.loopMerge merge continuing)
  | branch (target : Id) : WellTyped (.branch target)
  | branchConditional {condition : Id} (accept reject : Id) : t.value condition .bool →
      WellTyped (.branchConditional condition accept reject)
  | returnVoid : WellTyped .returnVoid

structure Within (t' : Typing) : Prop where
  types : ∀ id ty, t.type id ty → t'.type id ty
  values : ∀ id ty, t.value id ty → t'.value id ty
  literals : ∀ id literal, t.literal id literal → t'.literal id literal

variable {t} {t' : Typing}

theorem Walks.mono (walks : t.Walks whole indices part) (within : t.Within t') :
    t'.Walks whole indices part := by
  induction walks with
  | here ty => exact .here ty
  | member literal integer selected _ ih =>
    exact .member (within.literals _ _ literal) integer selected ih
  | element indexed value integer _ ih => exact .element indexed (within.values _ _ value) integer ih

theorem Walks.append {middle : Ty} {more : List Id} (walks : t.Walks whole indices middle)
    (onward : t.Walks middle more part) : t.Walks whole (indices ++ more) part := by
  induction walks with
  | here => exact onward
  | member literal integer selected _ ih => exact .member literal integer selected (ih onward)
  | element indexed value integer _ ih => exact .element indexed value integer (ih onward)

theorem WellTyped.mono {i : Instruction} (typed : t.WellTyped i) (within : t.Within t') :
    t'.WellTyped i := by
  have types := within.types
  have values := within.values
  cases typed with
  | label result => exact .label result
  | variableDecl type => exact .variableDecl (types _ _ type)
  | load source type => exact .load (values _ _ source) (types _ _ type)
  | store target value => exact .store (values _ _ target) (values _ _ value)
  | accessChain base walks type =>
    exact .accessChain (values _ _ base) (walks.mono within) (types _ _ type)
  | compute fits operands type => exact .compute fits (operands.imp values) (types _ _ type)
  | select condition accept reject type chooses =>
    exact .select (values _ _ condition) (values _ _ accept) (values _ _ reject) (types _ _ type)
      chooses
  | construct type made parts =>
    exact .construct (types _ _ type) made fun id member => values _ _ (parts id member)
  | extract composite several bound type =>
    exact .extract (values _ _ composite) several bound (types _ _ type)
  | extractDynamic vector index integer type =>
    exact .extractDynamic (values _ _ vector) (values _ _ index) integer (types _ _ type)
  | sample image coordinates lod type =>
    exact .sample (values _ _ image) (values _ _ coordinates) (values _ _ lod) (types _ _ type)
  | selectionMerge merge => exact .selectionMerge merge
  | loopMerge merge continuing => exact .loopMerge merge continuing
  | branch target => exact .branch target
  | branchConditional accept reject condition =>
    exact .branchConditional accept reject (values _ _ condition)
  | returnVoid => exact .returnVoid

end Typing

/-! The operation that is selected for operand types fits them. -/

namespace Ty

theorem isOf_scalar (elementwise : ty.isElementwise = true) (scalar : ty.scalar? = some component) :
    ty.IsOf component := by
  cases ty with
  | matrix inner rows columns =>
    have single : columns = 1 := by
      simpa [isElementwise, isScalar, isBool, isInteger, isFloat, isVector] using elementwise
    obtain rfl := Option.some.inj scalar
    exact .inr ⟨rows, by rw [single]; rfl⟩
  | _ =>
    rw [scalar?] at scalar
    · split at scalar
      · exact .inl (Option.some.inj scalar)
      · contradiction
    · simp

theorem exists_of_isVector (vector : ty.isVector = true) :
    ∃ component rows, ty = .vector component rows := by
  cases ty with
  | matrix component rows columns => exact ⟨component, rows, by rw [eq_of_beq vector]; rfl⟩
  | _ => contradiction

/-- A matrix that can be declared and is no vector has several columns of floats. -/
theorem several_columns {rows columns : Word}
    (accepted : (Ty.matrix component rows columns).isRefused = false) (single : columns ≠ 1) :
    1 < columns ∧ ∃ width, component = .float width := by
  obtain ⟨_, _, _, low, _, float⟩ := isRefused_matrix.mp accepted
  have several : 1 < columns := UInt32.lt_of_le_of_ne low (Ne.symm single)
  refine ⟨several, ?_⟩
  have isFloat := float several
  cases component with
  | float width => exact ⟨width, rfl⟩
  | _ => contradiction

end Ty

namespace BinaryOp

variable {op : BinaryOp} {a b : Ty} {operation : Operation} {lowering : Lowering}

theorem elementwise?_types (selected : op.elementwise? component = some operation)
    (of : a.IsOf component) : operation.Types [a, a] a := by
  unfold elementwise? at selected
  split at selected
  · exact Option.some.inj selected ▸ .integers (by simp) of
  · exact Option.some.inj selected ▸ .integers (by simp) of
  · exact Option.some.inj selected ▸ .integers (by simp) of
  · exact Option.some.inj selected ▸ .divideSigned of
  · exact Option.some.inj selected ▸ .divideUnsigned of
  · exact Option.some.inj selected ▸ .floats (by simp) of
  · exact Option.some.inj selected ▸ .floats (by simp) of
  · exact Option.some.inj selected ▸ .floats (by simp) of
  · exact Option.some.inj selected ▸ .floats (by simp) of
  · contradiction

theorem comparison?_types (selected : op.comparison? component = some operation)
    (of : a.IsOf component) : operation.Types [a, a] a.toBool := by
  cases component with
  | bool =>
    cases op with
    | equal | notEqual => exact Option.some.inj selected ▸ .compareBooleans (by simp) of
    | _ => contradiction
  | int width signed =>
    cases op with
    | equal | notEqual => exact Option.some.inj selected ▸ .compareIntegers (by simp) of
    | less | greater | lessEqual | greaterEqual =>
      cases signed with
      | false => exact Option.some.inj selected ▸ .compareUnsigned (by simp) of
      | true => exact Option.some.inj selected ▸ .compareSigned (by simp) of
    | _ => contradiction
  | float width =>
    cases op with
    | equal | notEqual | less | greater | lessEqual | greaterEqual =>
      exact Option.some.inj selected ▸ .compareFloats (by simp) of
    | _ => contradiction
  | _ => cases op <;> contradiction

theorem scaling?_types (selected : scaling? b a = some operation) (accepted : a.isRefused = false) :
    operation.Types [a, b] a := by
  cases a with
  | matrix component rows columns =>
    simp only [scaling?] at selected
    split at selected
    · rename_i fits
      obtain ⟨float, same⟩ := Bool.and_eq_true_iff.mp fits
      obtain rfl := beq_iff_eq.mp same
      obtain rfl := Option.some.inj selected
      cases component with
      | float width =>
        split
        · rename_i single
          subst single
          exact .vectorTimesScalar width rows
        · rename_i several
          exact .matrixTimesScalar (Ty.several_columns accepted several).1
      | _ => contradiction
    · contradiction
  | _ => contradiction

theorem arithmetic_types (lowered : op.arithmetic a b = .ok lowering) (left : a.isRefused = false)
    (right : b.isRefused = false) :
    lowering.operation.Types (if lowering.swap then [b, a] else [a, b]) lowering.result := by
  unfold arithmetic at lowered
  split at lowered
  · contradiction
  split at lowered
  · rename_i elementwise
    obtain ⟨rfl, elementwise⟩ := elementwise
    split at lowered
    · rename_i operation selected
      obtain rfl := Except.ok.inj lowered
      obtain ⟨component, scalar, selected⟩ := Option.bind_eq_some_iff.mp selected
      exact elementwise?_types selected (Ty.isOf_scalar elementwise scalar)
    · contradiction
  split at lowered
  · split at lowered
    · rename_i operation _ selected
      obtain rfl := Except.ok.inj lowered
      exact scaling?_types selected left
    · rename_i operation _ selected
      obtain rfl := Except.ok.inj lowered
      exact scaling?_types selected right
    · contradiction
  · contradiction

theorem product_types (lowered : product a b = .ok lowering) (left : a.isRefused = false)
    (right : b.isRefused = false) :
    lowering.operation.Types (if lowering.swap then [b, a] else [a, b]) lowering.result := by
  unfold product at lowered
  split at lowered
  · rename_i component rows columns component' rows' columns'
    split at lowered
    · contradiction
    rename_i same
    obtain rfl := Decidable.not_not.mp same
    split at lowered
    · rename_i vector
      subst vector
      split at lowered
      · rename_i vector
        subst vector
        split at lowered
        · contradiction
        · rename_i fits
          obtain ⟨rows, float⟩ := not_or.mp fits
          obtain rfl := Decidable.not_not.mp rows
          obtain rfl := Except.ok.inj lowered
          cases component with
          | float width => exact .dot width _
          | _ => simp [Ty.isFloat] at float
      · rename_i several
        split at lowered
        · contradiction
        · rename_i rows
          obtain rfl := Decidable.not_not.mp rows
          obtain rfl := Except.ok.inj lowered
          obtain ⟨several, width, rfl⟩ := Ty.several_columns right several
          exact .vectorTimesMatrix several
    · rename_i several
      split at lowered
      · contradiction
      rename_i several'
      split at lowered
      · contradiction
      · rename_i inner
        obtain rfl := Decidable.not_not.mp inner
        obtain rfl := Except.ok.inj lowered
        obtain ⟨several, width, rfl⟩ := Ty.several_columns left several
        exact .matrixTimesMatrix several (Ty.several_columns right several').1
  · contradiction

theorem comparison_types (lowered : op.comparison a b = .ok lowering) :
    lowering.operation.Types (if lowering.swap then [b, a] else [a, b]) lowering.result := by
  unfold comparison at lowered
  split at lowered
  · contradiction
  rename_i fits
  obtain ⟨same, elementwise⟩ := not_or.mp fits
  obtain rfl := Decidable.not_not.mp same
  split at lowered
  · rename_i operation selected
    obtain rfl := Except.ok.inj lowered
    obtain ⟨component, scalar, selected⟩ := Option.bind_eq_some_iff.mp selected
    exact comparison?_types selected (Ty.isOf_scalar (by simpa using elementwise) scalar)
  · contradiction

/-- The operation of an operator fits its operands in the order in which they are written. -/
theorem lower_types (lowered : op.lower a b = .ok lowering) (left : a.isRefused = false)
    (right : b.isRefused = false) :
    lowering.operation.Types (if lowering.swap then [b, a] else [a, b]) lowering.result := by
  cases op with
  | add | sub | mul | div => exact arithmetic_types lowered left right
  | dot => exact product_types lowered left right
  | equal | notEqual | less | greater | lessEqual | greaterEqual => exact comparison_types lowered
  | lookup => contradiction

end BinaryOp

theorem UnaryOp.lower_types {op : UnaryOp} {a : Ty} {operation : Operation}
    (lowered : op.lower a = .ok (operation, ty)) : operation.Types [a] ty := by
  unfold UnaryOp.lower at lowered
  split at lowered
  · rename_i width selected
    obtain ⟨rfl, rfl⟩ := Prod.mk.inj (Except.ok.inj lowered)
    split at selected
    · exact .negateFloat (Ty.isOf_scalar ‹_› selected)
    · contradiction
  · rename_i width selected
    obtain ⟨rfl, rfl⟩ := Prod.mk.inj (Except.ok.inj lowered)
    split at selected
    · exact .negateSigned (Ty.isOf_scalar ‹_› selected)
    · contradiction
  · contradiction

theorem Draft.madeOf_constructParts {count : Nat}
    (shape : Draft.constructParts ty = .ok (count, part)) : ty.MadeOf count part := by
  unfold constructParts at shape
  split at shape
  · rename_i number part' parts
    obtain ⟨rfl, rfl⟩ := Prod.mk.inj (Except.ok.inj shape)
    unfold Ty.parts? at parts
    split at parts
    · split at parts
      · rename_i single
        subst single
        obtain ⟨rfl, rfl⟩ := Prod.mk.inj (Option.some.inj parts)
        exact .vector _ _
      · split at parts
        · obtain ⟨rfl, rfl⟩ := Prod.mk.inj (Option.some.inj parts)
          exact .matrix _ _ _ ‹_›
        · contradiction
    · obtain ⟨rfl, rfl⟩ := Prod.mk.inj (Option.some.inj parts)
      exact .array _ _
    · contradiction
  · split at shape <;> contradiction

theorem Ty.indexed_element {element : Ty} (selected : ty.element = .ok element) :
    ty.Indexed element := by
  unfold Ty.element at selected
  split at selected
  · rename_i element' found
    obtain rfl := Except.ok.inj selected
    unfold Ty.element? at found
    split at found
    · exact Option.some.inj found ▸ .array _ _
    · exact Option.some.inj found ▸ .runtimeArray _
    · split at found
      · rename_i single
        subst single
        exact Option.some.inj found ▸ .vector _ _
      · rw [Ty.column?] at found
        split at found
        · exact Option.some.inj found ▸ .matrix _ _ _ ‹_›
        · contradiction
    · contradiction
  · contradiction

theorem BinaryOp.lookupResult_cases {source index result : Ty}
    (found : BinaryOp.lookupResult source index = .ok result) :
    (∃ dim depth arrayed, source = .texture (.image dim depth arrayed) ∧
        index = .vec dim.coordinates ∧ result = .vec 4) ∨
      (∃ rows, source = .vector result rows ∧ index.isInteger = true) ∨
      ∃ component rows columns, source = .matrix component rows columns ∧ 1 < columns ∧
        result = .vector component rows := by
  unfold BinaryOp.lookupResult at found
  split at found
  · split at found
    · exact .inl ⟨_, _, _, rfl, ‹_›, (Except.ok.inj found).symm⟩
    · contradiction
  · split at found
    · contradiction
    rename_i integer
    split at found
    · rename_i single
      subst single
      obtain rfl := Except.ok.inj found
      exact .inr (.inl ⟨_, rfl, by simpa using integer⟩)
    · split at found
      · rename_i column selected
        obtain rfl := Except.ok.inj found
        rw [Ty.column?] at selected
        split at selected
        · exact .inr (.inr ⟨_, _, _, rfl, ‹_›, (Option.some.inj selected).symm⟩)
        · contradiction
      · contradiction
  · contradiction

end ShaderIR
