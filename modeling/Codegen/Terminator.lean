import Codegen.Failure

/-!
Terminators: how control leaves a block.
-/
namespace Codegen

/-- The control flow out of an instruction. -/
inductive Terminator where
  /-- Control goes on with the next instruction. -/
  | none
  | jump (taken : Nat)
  | branch (taken notTaken : Nat)
  | ret
  | undeclared (code : UInt8)
  deriving DecidableEq, Repr

namespace Terminator

/-- The terminator of a kind number and two targets. -/
def ofCode (code : UInt8) (taken notTaken : Nat) : Terminator :=
  if code = 0 then .none
  else if code = 1 then .jump taken
  else if code = 2 then .branch taken notTaken
  else if code = 3 then .ret
  else .undeclared code

/-- The blocks that control may go to, the taken one first. -/
def succs : Terminator → List Nat
  | jump t => [t]
  | branch t n => [t, n]
  | none | ret | undeclared _ => []

def text : Terminator → Checked String
  | none => .ok "none"
  | jump t => .ok s!"uncond(block{t})"
  | branch t n => .ok s!"cond(block{t}, block{n})"
  | ret => .ok "ret"
  | undeclared c => broken (.undeclaredTerminator c)

end Terminator

end Codegen
