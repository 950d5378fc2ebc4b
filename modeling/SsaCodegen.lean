import SsaCodegen.Compile
import SsaCodegen.ConstProp.Fold
import SsaCodegen.ConstProp.Potential
import SsaCodegen.ConstProp.Solver
import SsaCodegen.ConstProp.Transfer
import SsaCodegen.Constness
import SsaCodegen.Copies
import SsaCodegen.Fault
import SsaCodegen.Flow.Dominators
import SsaCodegen.Flow.Graph
import SsaCodegen.Flow.Loops
import SsaCodegen.Id
import SsaCodegen.Module.Basic
import SsaCodegen.Module.Builder
import SsaCodegen.Module.Chain
import SsaCodegen.Module.Edit
import SsaCodegen.Module.Printer
import SsaCodegen.Module.UseDef
import SsaCodegen.Module.Value
import SsaCodegen.Module.Verify
import SsaCodegen.Op
import SsaCodegen.Pass
import SsaCodegen.Proofs.ConstProp.FoldedRun
import SsaCodegen.Proofs.ConstProp.FoldedWord
import SsaCodegen.Proofs.ConstProp.Folding
import SsaCodegen.Proofs.ConstProp.Greatest
import SsaCodegen.Proofs.ConstProp.Learning
import SsaCodegen.Proofs.ConstProp.Locality
import SsaCodegen.Proofs.ConstProp.MachineNumbers
import SsaCodegen.Proofs.ConstProp.Monotone
import SsaCodegen.Proofs.ConstProp.Narrow
import SsaCodegen.Proofs.ConstProp.Optimized
import SsaCodegen.Proofs.ConstProp.Propagate
import SsaCodegen.Proofs.ConstProp.Reference
import SsaCodegen.Proofs.ConstProp.Rest
import SsaCodegen.Proofs.ConstProp.Soundness
import SsaCodegen.Proofs.ConstProp.Transfer
import SsaCodegen.Proofs.ConstProp.Worklist
import SsaCodegen.Proofs.Copies
import SsaCodegen.Proofs.Copies.Cycles
import SsaCodegen.Proofs.Flow.Chain
import SsaCodegen.Proofs.Flow.DepthFirst
import SsaCodegen.Proofs.Flow.Dominators
import SsaCodegen.Proofs.Flow.Loops
import SsaCodegen.Proofs.Flow.Nesting
import SsaCodegen.Proofs.Flow.Order
import SsaCodegen.Proofs.Module.Accepted
import SsaCodegen.Proofs.Module.Bare
import SsaCodegen.Proofs.Module.Built
import SsaCodegen.Proofs.Module.Cascade
import SsaCodegen.Proofs.Module.Declared
import SsaCodegen.Proofs.Module.Effects
import SsaCodegen.Proofs.Module.Fields
import SsaCodegen.Proofs.Module.Lists
import SsaCodegen.Proofs.Module.Owners
import SsaCodegen.Proofs.Module.Replace
import SsaCodegen.Proofs.Module.Sequences
import SsaCodegen.Proofs.Module.Step
import SsaCodegen.Proofs.Module.Termination
import SsaCodegen.Proofs.Module.Uses
import SsaCodegen.Proofs.Module.Verdict
import SsaCodegen.Proofs.Module.WellFormed
import SsaCodegen.Proofs.Select.Addressing
import SsaCodegen.Proofs.Select.Arguments
import SsaCodegen.Proofs.Select.Assembly
import SsaCodegen.Proofs.Select.Blocks
import SsaCodegen.Proofs.Select.Body
import SsaCodegen.Proofs.Select.CalleeSaved
import SsaCodegen.Proofs.Select.Comparison
import SsaCodegen.Proofs.Select.Control
import SsaCodegen.Proofs.Select.Convention
import SsaCodegen.Proofs.Select.Crossing
import SsaCodegen.Proofs.Select.Drafts
import SsaCodegen.Proofs.Select.EdgeCopies
import SsaCodegen.Proofs.Select.Edges
import SsaCodegen.Proofs.Select.Emitted
import SsaCodegen.Proofs.Select.Encodable
import SsaCodegen.Proofs.Select.Exhaustion
import SsaCodegen.Proofs.Select.Faultless
import SsaCodegen.Proofs.Select.Faults
import SsaCodegen.Proofs.Select.FoldedCode
import SsaCodegen.Proofs.Select.FrameLayout
import SsaCodegen.Proofs.Select.Immediate
import SsaCodegen.Proofs.Select.Matching
import SsaCodegen.Proofs.Select.Materialize
import SsaCodegen.Proofs.Select.Operand
import SsaCodegen.Proofs.Select.Preservation
import SsaCodegen.Proofs.Select.Registers
import SsaCodegen.Proofs.Select.Shape
import SsaCodegen.Proofs.Select.Simulation
import SsaCodegen.Proofs.Select.Spared
import SsaCodegen.Proofs.Semantics.Graph
import SsaCodegen.Proofs.Semantics.Machine
import SsaCodegen.Proofs.Semantics.Run
import SsaCodegen.Proofs.Semantics.Ssa
import SsaCodegen.Proofs.Semantics.Thinned
import SsaCodegen.Proofs.Semantics.Word
import SsaCodegen.Proofs.Target.RegisterNames
import SsaCodegen.Proofs.Ty.Alignment
import SsaCodegen.Proofs.Ty.Layout
import SsaCodegen.Proofs.Ty.Packing
import SsaCodegen.Select.Address
import SsaCodegen.Select.Body
import SsaCodegen.Select.Control
import SsaCodegen.Select.Convention
import SsaCodegen.Select.Edges
import SsaCodegen.Select.Error
import SsaCodegen.Select.Frame
import SsaCodegen.Select.Immediate
import SsaCodegen.Select.Program
import SsaCodegen.Select.Registers
import SsaCodegen.Select.Scope
import SsaCodegen.Size
import SsaCodegen.Target.Listing
import SsaCodegen.Target.Program
import SsaCodegen.Target.Register
import SsaCodegen.Text.GraphemeExtend
import SsaCodegen.Text.Quoted
import SsaCodegen.Text.Unprintable
import SsaCodegen.Total
import SsaCodegen.Ty.Basic
import SsaCodegen.Ty.Layout
import SsaCodegen.Ty.Table
