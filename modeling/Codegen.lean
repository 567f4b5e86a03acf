import Codegen.A64.Address
import Codegen.A64.BitmaskImm
import Codegen.A64.Branch
import Codegen.A64.Control
import Codegen.A64.Emission
import Codegen.A64.Immediate
import Codegen.A64.Inst
import Codegen.A64.Listing
import Codegen.A64.Operands
import Codegen.A64.Operation
import Codegen.A64.Register
import Codegen.A64.Word
import Codegen.Allocation.Assignment
import Codegen.Allocation.Graph
import Codegen.Allocation.Interval
import Codegen.Allocation.Liveness
import Codegen.Allocation.Marks
import Codegen.Catalogue
import Codegen.CodeBuffer
import Codegen.CommandLine
import Codegen.Compile
import Codegen.Config
import Codegen.ConstantPool
import Codegen.Failure
import Codegen.HexWords
import Codegen.Main
import Codegen.Program.Basic
import Codegen.Program.Builder
import Codegen.Program.Layout
import Codegen.Program.Listing
import Codegen.Program.Passes
import Codegen.Program.Session
import Codegen.Proofs.A64.Access
import Codegen.Proofs.A64.BitRuns
import Codegen.Proofs.A64.Bitmask
import Codegen.Proofs.A64.Bounds
import Codegen.Proofs.A64.Control
import Codegen.Proofs.A64.Decoding
import Codegen.Proofs.A64.Disassembly
import Codegen.Proofs.A64.Emission
import Codegen.Proofs.A64.Execution
import Codegen.Proofs.A64.Expansion
import Codegen.Proofs.A64.Form
import Codegen.Proofs.A64.Listing
import Codegen.Proofs.A64.Machine
import Codegen.Proofs.A64.Operands
import Codegen.Proofs.A64.Replacement
import Codegen.Proofs.A64.Spelling
import Codegen.Proofs.A64.StackPointer
import Codegen.Proofs.A64.Synonyms
import Codegen.Proofs.A64.Words
import Codegen.Proofs.Allocation.Bounds
import Codegen.Proofs.Allocation.Confluence
import Codegen.Proofs.Allocation.Delivery
import Codegen.Proofs.Allocation.Hull
import Codegen.Proofs.Allocation.LiveInterval
import Codegen.Proofs.Allocation.Liveness
import Codegen.Proofs.Allocation.Passes
import Codegen.Proofs.Allocation.Pressure
import Codegen.Proofs.Allocation.Scan
import Codegen.Proofs.Allocation.Separation
import Codegen.Proofs.Allocation.Simulation
import Codegen.Proofs.Bounds
import Codegen.Proofs.Catalogue
import Codegen.Proofs.Checked
import Codegen.Proofs.Compile
import Codegen.Proofs.Emit
import Codegen.Proofs.Program.Bounds
import Codegen.Proofs.Program.Construction
import Codegen.Proofs.Program.ControlFlow
import Codegen.Proofs.Program.Emission
import Codegen.Proofs.Program.Invariant
import Codegen.Proofs.Program.Layout
import Codegen.Proofs.Program.Literals
import Codegen.Proofs.Program.Lowering
import Codegen.Proofs.Program.Placement
import Codegen.Proofs.Program.Rewriting
import Codegen.Proofs.Program.Session
import Codegen.Proofs.Universe
import Codegen.Record
import Codegen.RegMap
import Codegen.RegSet
import Codegen.Register
import Codegen.Stage
import Codegen.Terminator
import Codegen.Text.Hex
import Codegen.Text.Printable
import Codegen.Text.Quoted
import Codegen.Universe
import Codegen.Uses
import Codegen.ValueType
import Codegen.Proofs.Program.Allocated
import Codegen.Proofs.A64.LogicalImm
import Codegen.Proofs.A64.EncodingTable
import Codegen.Proofs.A64.AllocatedWords
import Codegen.Proofs.A64.Bitfield
import Codegen.Proofs.A64.Immediate
import Codegen.Proofs.Program.SideRecords
import Codegen.Proofs.A64.ListedExpansion
import Codegen.Proofs.Allocation.Marks
import Codegen.Proofs.Universe.Check
import Codegen.Proofs.Universe.Partition
import Codegen.Proofs.Allocation.LiveSets
import Codegen.Proofs.HexWords
import Codegen.Proofs.Allocation.Validation
