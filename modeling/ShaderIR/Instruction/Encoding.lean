import ShaderIR.Encoder
import ShaderIR.Instruction.Basic

/-! The binary form of instructions: their opcodes and operand words, and how they are written. -/
namespace ShaderIR

def Word.ofId (id : Id) : Word := UInt32.ofNat id

theorem Word.ofId_inj {a b : Id} (small : a < UInt32.size) (small' : b < UInt32.size)
    (same : Word.ofId a = Word.ofId b) : a = b := by
  have values := congrArg UInt32.toNat same
  rwa [ofId, ofId, UInt32.toNat_ofNat_of_lt' small, UInt32.toNat_ofNat_of_lt' small'] at values

def Word.ofBool (flag : Bool) : Word := if flag then 1 else 0

def Storage.word : Storage → Word
  | .uniformConstant => 0
  | .input => 1
  | .uniform => 2
  | .output => 3
  | .function => 7

def Dim.word : Dim → Word
  | .plane => 1
  | .volume => 2
  | .cube => 3

def TypeForm.opcode : TypeForm → Word
  | .void => 19
  | .bool => 20
  | .int _ _ => 21
  | .float _ => 22
  | .vector _ _ => 23
  | .matrix _ _ => 24
  | .image _ _ _ _ => 25
  | .sampledImage _ => 27
  | .array _ _ => 28
  | .runtimeArray _ => 29
  | .struct _ => 30
  | .pointer _ _ => 32
  | .function _ => 33

/-- The operands that follow the result id of a type declaration. Images are single-sampled, used
with a sampler, and of unknown format. -/
def TypeForm.operands : TypeForm → List Word
  | .void | .bool => []
  | .int width signed => [width, .ofBool signed]
  | .float width => [width]
  | .vector component size => [.ofId component, size]
  | .matrix column count => [.ofId column, count]
  | .image sampled dim depth arrayed =>
      [.ofId sampled, dim.word, .ofBool depth, .ofBool arrayed, 0, 1, 0]
  | .sampledImage inner => [.ofId inner]
  | .array element length => [.ofId element, .ofId length]
  | .runtimeArray element => [.ofId element]
  | .struct members => members.map .ofId
  | .pointer storage pointee => [storage.word, .ofId pointee]
  | .function result => [.ofId result]

def Decoration.words : Decoration → List Word
  | .block => [2]
  | .bufferBlock => [3]
  | .colMajor => [5]
  | .arrayStride bytes => [6, bytes]
  | .matrixStride bytes => [7, bytes]
  | .builtIn builtin => [11, builtin.word]
  | .location index => [30, UInt32.ofNat index]
  | .binding index => [33, index]
  | .descriptorSet index => [34, index]
  | .offset bytes => [35, bytes]

namespace Instruction

def opcode : Instruction → Word
  | .importSet _ _ => 11
  | .memoryModel => 14
  | .entryPoint _ _ _ _ => 15
  | .originUpperLeft _ | .localSize _ _ => 16
  | .capability _ => 17
  | .typeDecl _ form => form.opcode
  | .constant _ _ _ => 43
  | .functionBegin _ _ _ => 54
  | .functionEnd => 56
  | .variableDecl _ _ _ => 59
  | .load _ _ _ => 61
  | .store _ _ => 62
  | .accessChain _ _ _ _ => 65
  | .decorate _ _ => 71
  | .decorateMember _ _ _ => 72
  | .extractDynamic _ _ _ _ => 77
  | .construct _ _ _ => 80
  | .extract _ _ _ _ => 81
  | .sample _ _ _ _ _ => 88
  | .compute operation _ _ _ => operation.opcode
  | .select _ _ _ _ _ => 169
  | .loopMerge _ _ => 246
  | .selectionMerge _ => 247
  | .label _ => 248
  | .branch _ => 249
  | .branchConditional _ _ _ => 250
  | .returnVoid => 253

/-- The operand words. The memory model is logical addressing with GLSL rules, a sample states its
level of detail, and merges and functions carry no control hints. -/
def operands : Instruction → List Word
  | .capability feature => [feature.word]
  | .importSet result name => .ofId result :: textWords name
  | .memoryModel => [0, 1]
  | .entryPoint stage function name interface =>
      stage.word :: .ofId function :: (textWords name ++ interface.map .ofId)
  | .originUpperLeft function => [.ofId function, 7]
  | .localSize function size => [.ofId function, 17, size.x, size.y, size.z]
  | .decorate target decoration => .ofId target :: decoration.words
  | .decorateMember target member decoration =>
      .ofId target :: UInt32.ofNat member :: decoration.words
  | .typeDecl result form => .ofId result :: form.operands
  | .constant type result literal => [.ofId type, .ofId result, literal.word]
  | .variableDecl type result storage => [.ofId type, .ofId result, storage.word]
  | .functionBegin type result signature => [.ofId type, .ofId result, 0, .ofId signature]
  | .functionEnd => []
  | .label result => [.ofId result]
  | .load type result source => [.ofId type, .ofId result, .ofId source]
  | .store target value => [.ofId target, .ofId value]
  | .accessChain type result base indices =>
      .ofId type :: .ofId result :: .ofId base :: indices.map .ofId
  | .compute _ type result operands => .ofId type :: .ofId result :: operands.map .ofId
  | .select type result condition accept reject =>
      [.ofId type, .ofId result, .ofId condition, .ofId accept, .ofId reject]
  | .construct type result parts => .ofId type :: .ofId result :: parts.map .ofId
  | .extract type result composite index => [.ofId type, .ofId result, .ofId composite, index]
  | .extractDynamic type result vector index =>
      [.ofId type, .ofId result, .ofId vector, .ofId index]
  | .sample type result image coordinates lod =>
      [.ofId type, .ofId result, .ofId image, .ofId coordinates, 2, .ofId lod]
  | .selectionMerge merge => [.ofId merge, 0]
  | .loopMerge merge continuing => [.ofId merge, .ofId continuing, 0]
  | .branch target => [.ofId target]
  | .branchConditional condition accept reject =>
      [.ofId condition, .ofId accept, .ofId reject]
  | .returnVoid => []

def wordCount (instruction : Instruction) : Nat := instruction.operands.length + 1

/-- Writes an instruction behind what a buffer holds. One with a text gets its length once the text
is written, and the declaration of a type is written without the list of its operands. -/
def write (out : Encoder) : Instruction → Encoder
  | .importSet result name =>
      let opened := out.start 11
      ((opened.1.extend [.ofId result]).text name).finish opened.2
  | .entryPoint stage function name interface =>
      let opened := out.start 15
      ((((opened.1.push stage.word).push (.ofId function)).text name).extend
        (interface.map .ofId)).finish opened.2
  | .typeDecl result (.function type) => out.instruction 33 [.ofId result, .ofId type]
  | .typeDecl result form =>
      ((out.push (Encoder.header (form.operands.length + 2) form.opcode)).push (.ofId result)).extend
        form.operands
  | instruction => out.instruction instruction.opcode instruction.operands

end Instruction

end ShaderIR
