import Codegen.Program.Builder

/-!
A catalogue of functions whose instructions are already selected, with virtual registers left to
the register allocator. No virtual register is live across a call, since calls do not say which
registers they clobber.
-/
namespace Codegen

open A64

/-- A function given by the steps that build its program, each with its operands made or failing to
be made. -/
structure Routine where
  name : String
  /-- What the function computes, in one line. -/
  doc : String := ""
  steps : List (Checked BuildStep)

namespace Routine

def build (f : Routine) : Checked Program := do (← Builder.run f.steps).build

/-- The steps that build the given blocks. -/
def ofBlocks (blocks : List (List Inst)) : List (Checked BuildStep) :=
  blocks.flatMap fun insts => [.ok .start, .ok (.push insts)]

end Routine

namespace Catalogue

def x0 : Reg := gpr 0

def x1 : Reg := gpr 1

def v (n : UInt32) : Reg := .virtual .i64 n

def add64 : AluOp := .op .add .w64

def sub64 : AluOp := .op .sub .w64

def subs64 : AluOp := .op .subs .w64

/-- The pair access that saves or restores the frame pointer and the link register. -/
def frameSlot (mode : PairMode) (offset : Int16) : PairMem := .access mode sp ⟨offset, .i64⟩

/-- Saves the frame pointer and the link register, and sets the frame pointer. -/
def prologue : List Inst :=
  [.storePair fp lr (frameSlot .preIndexed (-16)), .aluImm add64 fp sp { bits := 0 }]

/-- Restores the frame pointer and the link register, and returns. -/
def epilogue : List Inst := [.loadPair fp lr (frameSlot .postIndexed 16), .ret]

def onlyReturn : Routine where
  name := "only_return"
  doc := "returns immediately"
  steps := Routine.ofBlocks [[.ret]]

def addConsts : Routine where
  name := "add_consts"
  doc := "returns 40 + 2"
  steps := Routine.ofBlocks [
    [.movZ (v 0) { bits := 40 }, .movZ (v 1) { bits := 2 }, .alu add64 (v 2) (v 0) (v 1),
      .mov x0 (v 2), .ret]]

def select : Routine where
  name := "select"
  doc := "returns x0+1 if x0 is not zero, x0-1 otherwise"
  steps := Routine.ofBlocks [
    [.mov (v 0) x0, .branch (.block 1) (.block 2) (.notZero (v 0))],
    [.aluImm add64 x0 (v 0) { bits := 1 }, .jump (.block 3)],
    [.aluImm sub64 x0 (v 0) { bits := 1 }, .jump (.block 3)],
    [.ret]]

def maximum : Routine where
  name := "max"
  doc := "returns the signed maximum of x0 and x1"
  steps := Routine.ofBlocks [
    [.mov (v 0) x0, .mov (v 1) x1, .alu subs64 xzr (v 0) (v 1),
      .branch (.block 1) (.block 2) (.flag .ge)],
    [.mov x0 (v 0), .jump (.block 3)],
    [.mov x0 (v 1), .jump (.block 3)],
    [.ret]]

def sumLoop : Routine where
  name := "sum_loop"
  doc := "returns the sum of 1..x0"
  steps := Routine.ofBlocks [
    [.movZ (v 0) { bits := 0 }, .mov (v 1) x0, .jump (.block 1)],
    [.branch (.block 3) (.block 2) (.zero (v 1))],
    [.alu add64 (v 0) (v 0) (v 1), .aluImm sub64 (v 1) (v 1) { bits := 1 }, .jump (.block 1)],
    [.mov x0 (v 0), .ret]]

def forwardJumps : Routine where
  name := "forward_jumps"
  doc := "jumps over a block which is laid out last by the fallthrough order"
  steps := Routine.ofBlocks [
    [.jump (.block 2)],
    [.ret],
    [.movZ x0 { bits := 7 }, .jump (.block 1)]]

def memory : Routine where
  name := "memory"
  doc := "loads and stores with every addressing mode"
  steps := Routine.ofBlocks [
    prologue ++ [
      .load .u64 (v 0) (.stack 16),
      .load .u64 (v 1) (.direct (.scaled x0 ⟨8, .i64⟩)),
      .load .s32 (v 2) (.direct (.indexScaled x0 x1 .i32)),
      .load .u16 (v 3) (.direct (.indexExtended x0 x1 .i16 .uxtw)),
      .load .u64 (v 4) (.constant [0xef, 0xbe, 0xad, 0xde, 0, 0, 0, 0]),
      .load .u8 (v 5) (.direct (.unscaled x0 ⟨-1⟩)),
      .alu add64 (v 6) (v 0) (v 1),
      .alu add64 (v 6) (v 6) (v 2),
      .alu add64 (v 6) (v 6) (v 3),
      .alu add64 (v 6) (v 6) (v 4),
      .alu add64 (v 6) (v 6) (v 5),
      .store .b64 (v 6) (.stack 0x10000),
      .store .b32 (v 6) (.direct (.base x1)),
      .store .b8 (v 6) (.direct (.preIndexed x0 ⟨-1⟩)),
      .store .b64 (v 6) (.direct (.postIndexed x1 ⟨8⟩)),
      .mov x0 (v 6)] ++ epilogue]

def call : Routine where
  name := "call"
  doc := "calls a symbol, then a function pointer loaded from [x0]"
  steps := Routine.ofBlocks [
    prologue ++ [
      .store .b64 x0 (.stack (-8)),
      .call (.symbol "callee") (some ⟨[true, false]⟩),
      .load .u64 (v 0) (.stack (-8)),
      .load .u64 (v 1) (.direct (.base (v 0))),
      .callReg (v 1),
      .call (.user 0 1) none] ++ epilogue]

def trapIfZero : Routine where
  name := "trap_if_zero"
  doc := "traps with a division by zero if x1 is zero, returns x0 otherwise"
  steps := Routine.ofBlocks [
    [.branch (.block 1) (.block 2) (.zero x1)],
    [.udf .divisionByZero, .ret],
    [.ret]]

def all : List Routine :=
  [onlyReturn, addConsts, select, maximum, sumLoop, forwardJumps, memory, call, trapIfZero]

/-- The names of the functions, sorted. -/
def names : List String := (all.map (·.name)).mergeSort fun a b => !(b < a)

def find (name : String) : Checked Routine :=
  match all.find? (·.name == name) with
  | some f => .ok f
  | none => refuse (.unknownFunction name)

end Catalogue

end Codegen
