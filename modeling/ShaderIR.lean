import ShaderIR.Word
import ShaderIR.Encoder
import ShaderIR.Ty.Basic
import ShaderIR.Ty.Text
import ShaderIR.Literal
import ShaderIR.Settings
import ShaderIR.Interface
import ShaderIR.Operator
import ShaderIR.Fault
import ShaderIR.Operator.Lowering
import ShaderIR.Instruction.Basic
import ShaderIR.Instruction.Encoding
import ShaderIR.ShaderModule
import ShaderIR.Assoc
import ShaderIR.Handle
import ShaderIR.Graph.Basic
import ShaderIR.Graph.Release
import ShaderIR.Place.Basic
import ShaderIR.Trace.Basic
import ShaderIR.Block
import ShaderIR.Table.Types
import ShaderIR.Table.Constants
import ShaderIR.Draft.Basic
import ShaderIR.Draft.Expression
import ShaderIR.Draft.Memory
import ShaderIR.Draft.Flow
import ShaderIR.Draft.Roots
import ShaderIR.Emission.Basic
import ShaderIR.Emission.Declaration
import ShaderIR.Emission.Layout
import ShaderIR.Emission.Demand
import ShaderIR.Emission.Assembly
import ShaderIR.Notice
import ShaderIR.Draft.Compile
import ShaderIR.Emission.Overflow
import ShaderIR.Draft.Call
import ShaderIR.Text.Visible
import ShaderIR.Text.Quoted
import ShaderIR.Frontend.Kind
import ShaderIR.Frontend.World
import ShaderIR.Frontend.Operation
import ShaderIR.Frontend.Describe
import ShaderIR.Frontend.Command
import ShaderIR.Proofs.Places
import ShaderIR.Proofs.Effect
import ShaderIR.Proofs.CallEffect
import ShaderIR.Proofs.Meaning
import ShaderIR.Proofs.Sequence
import ShaderIR.Proofs.Reuse
import ShaderIR.Proofs.Dominance
import ShaderIR.Proofs.Refusals
import ShaderIR.Proofs.Typing
import ShaderIR.Proofs.Catalogue
import ShaderIR.Proofs.Constants
import ShaderIR.Proofs.Counting
import ShaderIR.Proofs.Overdraft
import ShaderIR.Proofs.Carried
import ShaderIR.Proofs.Unchanged
import ShaderIR.Proofs.Exposure
import ShaderIR.Proofs.Addresses
import ShaderIR.Proofs.Frontend.Soundness
import ShaderIR.Proofs.Frontend.Losses
import ShaderIR.Proofs.Frontend.Blocks
import ShaderIR.Proofs.LayoutNotes
import ShaderIR.Proofs.Pointers
import ShaderIR.Proofs.CountedLoops
import ShaderIR.Proofs.Decoding
import ShaderIR.Proofs.IdWords
import ShaderIR.Proofs.Regions
import ShaderIR.Proofs.Descent
import ShaderIR.Proofs.Appending
import ShaderIR.Proofs.LastStores
import ShaderIR.Proofs.Texts
