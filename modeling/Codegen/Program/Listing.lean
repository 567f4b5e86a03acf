import Codegen.Program.Basic

/-!
The listing of a program: a label for every block and a line for every instruction that has a text,
with or without its offset.
-/
namespace Codegen.Program

open A64 (Inst Naming)

/-- The line of an instruction, at an offset if offsets are shown. -/
def line (off : Option CodeOffset) (text : String) : String :=
  if text.isEmpty then ""
  else match off with
    | some off => "\t" ++ Text.hex 4 off.toNat ++ ": " ++ text ++ "\n"
    | none => "\t" ++ text ++ "\n"

/-- The lines of instructions, and the offset after them. -/
def instLines (name : Naming) : Option CodeOffset → List Inst → Checked (String × Option CodeOffset)
  | off, [] => .ok ("", off)
  | off, i :: rest => do
    let first := line off (← i.text name)
    let (others, last) ← instLines name (off.map (· + i.size)) rest
    return (first ++ others, last)

/-- The lines of the blocks numbered from `b` on. -/
def blockLines (name : Naming) : Nat → Option CodeOffset → List Block → Checked String
  | _, _, [] => .ok ""
  | b, off, block :: rest => do
    let (lines, last) ← instLines name off block.insts
    return s!"block{b}:\n" ++ lines ++ (← blockLines name (b + 1) last rest)

def text (p : Program) (name : Naming) : Checked String := blockLines name 0 none p.blocks

def textWithOffsets (p : Program) (name : Naming) : Checked String := do
  p.require .listOffsets
  blockLines name 0 (some 0) p.blocks

end Codegen.Program
