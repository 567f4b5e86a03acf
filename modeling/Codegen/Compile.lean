import Codegen.Catalogue
import Codegen.Config
import Codegen.HexWords
import Codegen.Program.Layout
import Codegen.Program.Listing
import Codegen.Program.Passes

/-!
Compilation: all passes on one function.

A failure says which function was being compiled. The reports that the configuration asks for do
not change the code.
-/
namespace Codegen

structure Compiled where
  name : String
  /-- The machine code, followed by its constants if there are any. -/
  code : List UInt8
  /-- The size of the machine code without constants. -/
  codeSize : CodeOffset
  records : Records
  listing : String := ""
  disassembly : String := ""
  /-- The passes that ran, in order. -/
  passes : List String := []
  deriving DecidableEq, Repr

namespace Compiled

def words (c : Compiled) : String := hexWords c.code

end Compiled

/-- One line for every record. -/
def Records.text (r : Records) : String :=
  String.join ((r.relocs.map (·.text) ++ r.traps.map (·.text) ++ r.safepoints.map (·.text)).map
    (· ++ "\n"))

/-- The listing with offsets, followed by the records. -/
def disassemble (p : Program) (records : Records) : Checked String :=
  return (← p.textWithOffsets A64.registers.name) ++ records.text

/-- The passes that run with the given block order. -/
def passNames (order : BlockOrder) : List String :=
  ["build", "regalloc"] ++ (if order = .fallthrough then ["reorder"] else []) ++
    ["lower branches", "compute offsets", "emit"]

/-- Runs the passes on a function of the supported target. -/
def compilePasses (cfg : Config) (f : Routine) : Checked Compiled := do
  let p ← f.build
  let p ← p.allocate
  let p ← if cfg.order = .fallthrough then p.reorder p.fallthroughOrder else pure p
  let p ← p.lowerBranches
  let listing ← if cfg.listing then p.text A64.registers.name else pure ""
  let p ← p.resolveOffsets
  let (pool, buffer) := p.emit {}
  let _ ← pool
  let disassembly ← if cfg.disassembly then disassemble p buffer.records else pure ""
  if cfg.executable then refuse .notExecutable
  return {
    name := f.name
    code := buffer.bytes.toList
    codeSize := p.codeSize
    records := buffer.records
    listing
    disassembly
    passes := if cfg.passes then passNames cfg.order else [] }

def compile (cfg : Config) (f : Routine) : Checked Compiled :=
  if cfg.isa = "" then refuse .noTarget
  else if cfg.isa = A64.targetName then
    (compilePasses cfg f).mapError (Failure.during ("compile " ++ f.name))
  else refuse (.unsupportedTarget cfg.isa)

end Codegen
