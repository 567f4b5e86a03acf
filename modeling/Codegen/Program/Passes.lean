import Codegen.A64.Emission
import Codegen.Allocation.Assignment
import Codegen.Program.Basic

/-!
The passes of a program: register allocation, branch lowering, offset resolution and emission.
-/
namespace Codegen.Program

open A64 (Inst)

/-- The program as the register allocator sees it. -/
def graph (p : Program) : Checked Allocation.Graph :=
  p.blocks.mapM fun b => do
    let insts ← b.insts.mapM fun i => do return Allocation.Operands.ofUses (← i.uses) i.move?
    return { insts, succs := b.succs }

/-- No instruction mentions a virtual register. -/
def checkAllocated : List Inst → Checked Unit
  | [] => .ok ()
  | i :: rest => do
    let uses ← i.uses
    match (uses.reads ++ uses.writes).find? (·.isVirtual) with
    | some r => broken (.survivingVirtual r i.embedded)
    | none => checkAllocated rest

/-- Says that registers were being allocated when a request was refused. -/
def allocationFailure : Failure → Failure
  | .refusal r => .within "regalloc" (.refusal r)
  | f => f

/-- Replaces every virtual register by a physical one. -/
def allocate (p : Program) : Checked Program := do
  p.require .allocate
  let result ← (Allocation.allocate A64.registers (← p.graph)).mapError allocationFailure
  let blocks ← p.blocks.mapM fun b => do
    return { b with insts := ← b.insts.mapM (·.mapRegs result.assignment result.assignment) }
  let p := { p with blocks, clobbered := result.clobbered, stage := .allocated }
  checkAllocated p.insts
  return p

/-- Lowers the last instruction of a block that is followed by `next`. -/
def lowerLast (next : Option Nat) (insts : List Inst) : List Inst :=
  insts.dropLast ++ (insts.getLast?.map (·.lower next)).toList

def lowerFrom : Nat → List Block → List Block
  | _, [] => []
  | b, block :: rest =>
    let next := if rest.isEmpty then none else some (b + 1)
    { block with insts := lowerLast next block.insts } :: lowerFrom (b + 1) rest

/-- Lowers the terminator of every block, given the block laid out after it. -/
def lowerBranches (p : Program) : Checked Program := do
  p.require .lowerBranches
  return { p with blocks := lowerFrom 0 p.blocks, stage := .lowered }

def sizeOf (insts : List Inst) : CodeOffset := insts.foldl (fun n i => n + i.size) 0

/-- The offsets of blocks, the first one at `off`, and the offset after the last one. -/
def layOut : CodeOffset → List Block → List CodeOffset × CodeOffset
  | off, [] => ([], off)
  | off, b :: rest =>
    let (offsets, last) := layOut (off + sizeOf b.insts) rest
    (off :: offsets, last)

def resolveInsts (offsets : List CodeOffset) : CodeOffset → List Inst → Checked (List Inst)
  | _, [] => .ok []
  | off, i :: rest => do
    let j ← i.resolve off offsets
    return j :: (← resolveInsts offsets (off + i.size) rest)

/-- Resolves blocks, the first one at `off`. -/
def resolveBlocks (offsets : List CodeOffset) : CodeOffset → List Block → Checked (List Block)
  | _, [] => .ok []
  | off, b :: rest => do
    let insts ← resolveInsts offsets off b.insts
    return { b with insts } :: (← resolveBlocks offsets (off + sizeOf b.insts) rest)

/-- Gives every block its offset and resolves the branches. -/
def resolveOffsets (p : Program) : Checked Program := do
  p.require .resolveOffsets
  let (offsets, codeSize) := layOut 0 p.blocks
  return { p with
    blocks := ← resolveBlocks offsets 0 p.blocks
    offsets
    codeSize
    stage := .resolved }

/-- Emits instructions, the first one with number `index` at the offset `want`. -/
def emitInsts : Nat → CodeOffset → List Inst → Emit Unit
  | _, _, [] => pure ()
  | index, want, i :: rest => do
    let got := (← get).buffer.offset
    if got ≠ want then
      Emit.ofChecked (broken (.misplacedInst index i.embedded got.toNat want.toNat))
    i.emit
    emitInsts (index + 1) (want + i.size) rest

/-- Appends the pool to code that begins at `start`, after zeros up to its base. -/
def emitPool (start : CodeOffset) : Emit Unit := do
  let s ← get
  if !s.pool.data.isEmpty then
    let written := s.buffer.offset - start
    let missing := if written < s.pool.base then (s.pool.base - written).toNat else 0
    Emit.onBuffer (·.put (List.replicate missing 0 ++ s.pool.data.toList))

/-- Emits the code and then its constants; gives the constants. -/
def emitCode (p : Program) : Emit ConstantPool := do
  let start := (← get).buffer.offset
  emitInsts 0 start p.insts
  emitPool start
  return (← get).pool

/-- Emits the program after what the buffer holds. -/
def emit (p : Program) (buffer : CodeBuffer) : Checked ConstantPool × CodeBuffer :=
  match p.require .emit with
  | .error f => (.error f, buffer)
  | .ok () =>
    let (result, s) := p.emitCode.exec { buffer, pool := .after p.codeSize }
    (result, s.buffer)

end Codegen.Program
