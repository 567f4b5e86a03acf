import Codegen.ConstantPool
import Codegen.Record

/-!
Code buffers: the bytes of emitted code with its side records.

`Emit` is the setting in which instructions are emitted. What was written before a failure stays
written.
-/
namespace Codegen

/-- Bytes in the order in which they were written, and the records about them. -/
structure CodeBuffer where
  bytes : Array UInt8 := #[]
  records : Records := {}
  deriving DecidableEq, Repr, Inhabited

namespace CodeBuffer

def offset (b : CodeBuffer) : CodeOffset := UInt32.ofNat b.bytes.size

def put (b : CodeBuffer) (bytes : List UInt8) : CodeBuffer := { b with bytes := b.bytes ++ bytes }

/-- Writes the low bytes of a number, the least significant first. -/
def putNat (b : CodeBuffer) (count n : Nat) : CodeBuffer := b.put (littleEndian count n)

def reloc (b : CodeBuffer) (kind : RelocKind) (name : ExternalName) (addend : Int64) :
    CodeBuffer :=
  { b with records := { b.records with
      relocs := b.records.relocs ++ [⟨b.offset, kind, name, addend⟩] } }

def trap (b : CodeBuffer) (code : TrapCode) : CodeBuffer :=
  { b with records := { b.records with traps := b.records.traps ++ [⟨b.offset, code⟩] } }

/-- Records the reference slots after what was written last. -/
def safepoint (b : CodeBuffer) (stackmap : Stackmap) : CodeBuffer :=
  { b with records := { b.records with
      safepoints := b.records.safepoints ++ [⟨b.offset, stackmap⟩] } }

/-- The same bytes with every record forgotten. -/
def withoutRecords (b : CodeBuffer) : CodeBuffer := { b with records := {} }

end CodeBuffer

/-- Code being emitted and the constants that it refers to. -/
structure Emitter where
  buffer : CodeBuffer := {}
  pool : ConstantPool
  deriving DecidableEq, Repr

abbrev Emit (α : Type) := ExceptT Failure (StateM Emitter) α

namespace Emit

/-- Runs a step; the state is there also if the step fails. -/
def exec {α : Type} (step : Emit α) (s : Emitter) : Checked α × Emitter := step.run.run s

def ofChecked {α : Type} (c : Checked α) : Emit α := ExceptT.mk (pure c)

def onBuffer (f : CodeBuffer → CodeBuffer) : Emit Unit :=
  modify fun s => { s with buffer := f s.buffer }

def word (w : UInt32) : Emit Unit := onBuffer (·.putNat 4 w.toNat)

def checkedWord (w : Checked UInt32) : Emit Unit := do
  word (← ofChecked w)

end Emit

end Codegen
