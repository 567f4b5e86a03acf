import Codegen.A64.Immediate
import Codegen.Record

/-!
Branches: where they go and on what condition.

A target is a block until the offsets of the blocks are known, and then a byte offset from the
branch itself.
-/
namespace Codegen.A64

inductive BranchTarget where
  | block (b : Nat)
  | resolved (offset : Int64)
  deriving DecidableEq, Repr

namespace BranchTarget

/-- The block of a target that is not resolved yet. -/
def block? : BranchTarget → Option Nat
  | block b => some b
  | resolved _ => none

/-- Renumbers a block. Resolved targets stay. -/
def relabel (labels : List Nat) : BranchTarget → Checked BranchTarget
  | block b => return block (← entry labels b)
  | resolved off => return resolved off

/-- Resolves a block for a branch at `here`, given the offset of every block. -/
def resolve (offsets : List CodeOffset) (here : CodeOffset) : BranchTarget → Checked BranchTarget
  | block b => return resolved (Int64.ofInt ((← entry offsets b).toNat - here.toNat))
  | resolved off => return resolved off

/-- The signed distance in words, in a field of the given width. -/
def wordField (width : Nat) : BranchTarget → Checked Nat
  | block b => broken (.unresolvedBranch b)
  | resolved off =>
    let off := off.toInt
    if off % 4 ≠ 0 then broken (.misalignedBranch off)
    else match signedField? width (off / 4) with
      | some bits => .ok bits
      | none => broken (.branchTooFar off width)

def text : BranchTarget → String
  | block b => s!"block{b}"
  | resolved off => toString off.toInt

end BranchTarget

/-- The condition of a branch: a register compared with zero, or a condition code. -/
inductive BranchCond where
  | unset
  | zero (r : Reg)
  | notZero (r : Reg)
  | flag (c : Cond)
  deriving DecidableEq, Repr

namespace BranchCond

def invert : BranchCond → Checked BranchCond
  | unset => broken .unsetCondition
  | zero r => .ok (notZero r)
  | notZero r => .ok (zero r)
  | flag c => .ok (flag c.invert)

def invertIf (inverted : Bool) (c : BranchCond) : Checked BranchCond :=
  if inverted then c.invert else .ok c

/-- The register that is tested. -/
def reg? : BranchCond → Option Reg
  | zero r => some r
  | notZero r => some r
  | unset => none
  | flag _ => none

def text (name : Reg → String) (target : String) : BranchCond → Checked String
  | unset => broken .unsetCondition
  | zero r => .ok ("cbz " ++ name r ++ ", " ++ target)
  | notZero r => .ok ("cbnz " ++ name r ++ ", " ++ target)
  | flag c => .ok ("b." ++ embed c.text ++ " " ++ target)

end BranchCond

end Codegen.A64
