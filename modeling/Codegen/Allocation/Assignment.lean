import Codegen.Allocation.Interval
import Codegen.Allocation.Marks
import Codegen.RegMap

/-!
Assignment of physical registers: a linear scan over the intervals in order of their first
position. There is no spilling; when every register of a class is taken, allocation is refused.

A register is taken if an interval that holds it has not ended, or if its own hull meets the
interval. The registers on the other side of a move are tried first, then the universe in its
order.
-/
namespace Codegen.Allocation

/-- An interval and its register. -/
structure Assigned where
  interval : Interval
  phys : Reg
  deriving DecidableEq, Repr

/-- The physical register on the other side of a move, if there is one yet. -/
def partner (done : List Assigned) (r : Reg) : List Reg :=
  if r.isPhysical then [r]
  else ((done.find? (·.interval.reg = r)).map (·.phys)).toList

/-- The registers that would make a move of `v` do nothing, in program order. -/
def hints (moves : List (Reg × Reg)) (done : List Assigned) (v : Reg) : List Reg :=
  moves.flatMap fun (dst, src) =>
    if dst = v then partner done src else if src = v then partner done dst else []

/-- What the scan works with: the universe, the moves of the function in order, and the hulls of
the physical registers. -/
structure Setting where
  target : Universe
  moves : List (Reg × Reg)
  fixed : List Interval

/-- The registers held by intervals that have not ended before `pos`. -/
def inUse (done : List Assigned) (pos : Nat) : Checked Marks :=
  Marks.ofList ((done.filter fun a => pos ≤ a.interval.span.last).map (·.phys))

/-- The first candidate of the class of the interval that may be handed out and is not taken. -/
def pick (ctx : Setting) (taken : Marks) (it : Interval) : List Reg → Checked (Option Reg)
  | [] => .ok none
  | r :: rest =>
    if r.cls ≠ it.reg.cls ∨ !ctx.target.isAllocable r then pick ctx taken it rest
    else do
      if (← taken.has r) || (occupied? ctx.fixed r it.span).isSome then pick ctx taken it rest
      else return some r

/-- The names of the taken registers in the order of the universe. -/
def takenNames (u : Universe) (taken : Marks) : Checked (List String) := do
  let marked ← u.regs.mapM fun info => return (← taken.has info.reg, info.name)
  return (marked.filter (·.1)).map (·.2)

def assignNext (ctx : Setting) (done : List Assigned) (it : Interval) : Checked Reg := do
  if !it.reg.isValid then broken (.classlessRegister it.reg)
  let taken ← inUse done it.span.first
  let preferred ← ctx.target.allocableRegs it.reg.cls
  match ← pick ctx taken it (hints ctx.moves done it.reg ++ preferred) with
  | some r => return r
  | none =>
    refuse (.exhausted it.reg.cls it.reg it.span.first it.span.last
      (← takenNames ctx.target taken))

def assignAll (ctx : Setting) (done : List Assigned) : List Interval → Checked (List Assigned)
  | [] => .ok done
  | it :: rest => do
    let r ← assignNext ctx done it
    assignAll ctx (done ++ [⟨it, r⟩]) rest

/-- A later interval in conflict with `x`: it begins before `x` has ended and has its register. -/
def conflict? (x : Assigned) (later : List Assigned) : Option Assigned :=
  (later.takeWhile fun y => y.interval.span.first ≤ x.interval.span.last).find? fun y =>
    x.phys = y.phys && x.interval.span.meets y.interval.span

/-- No two intervals that meet share a register, and none has a register that is live as itself. -/
def validate (u : Universe) (fixed : List Interval) : List Assigned → Checked Unit
  | [] => .ok ()
  | x :: rest =>
    match conflict? x rest with
    | some y => broken (.sharedRegister x.interval.reg y.interval.reg (u.name x.phys))
    | none =>
      match occupied? fixed x.phys x.interval.span with
      | some h => broken (.occupiedRegister x.interval.reg (u.name x.phys) h.first h.last)
      | none => validate u fixed rest

structure Result where
  assignment : RegMap
  /-- The registers that may be handed out and that the function writes, in universe order. -/
  clobbered : List Reg
  deriving DecidableEq, Repr

/-- The physical registers written through an assignment. -/
def written (m : RegMap) (g : Graph) : List Reg :=
  g.insts.flatMap fun i => i.writes.filterMap fun r => if r.isPhysical then some r else m.get? r

/-- The registers of the universe that are written. -/
def clobbers (u : Universe) (m : RegMap) (g : Graph) : Checked (List Reg) := do
  let marks ← Marks.ofList ((written m g).filter u.isAllocable)
  let marked ← (← u.leading).mapM fun info => return (← marks.has info.reg, info.reg)
  return (marked.filter (·.1)).map (·.2)

/-- Assigns a physical register to every virtual register of the graph. -/
def allocate (u : Universe) (g : Graph) : Checked Result := do
  let entries ← liveness u g
  let hulls := hulls (occurrences u g entries)
  let fixed := fixedHulls hulls
  let assigned ← assignAll { target := u, moves := g.insts.filterMap (·.move), fixed } []
    (intervals hulls)
  validate u fixed assigned
  let assignment : RegMap := ⟨assigned.map fun a => (a.interval.reg, a.phys)⟩
  return { assignment, clobbered := ← clobbers u assignment g }

end Codegen.Allocation
