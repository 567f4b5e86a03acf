/-!
Registers: a virtual register is numbered within its class; a physical register has a class, a
hardware encoding and a position in the universe of its target.

Registers are ordered by `Reg.key`, which distinguishes them all.
-/
namespace Codegen

/-- The class of a register. Two codes are declared, every other one is a class of nothing. -/
structure RegClass where
  code : UInt8
  deriving DecidableEq, Repr, Inhabited

namespace RegClass

/-- General purpose registers, which hold integers and booleans. -/
def i64 : RegClass := ⟨1⟩

/-- Vector registers, which hold floats and 128-bit values. -/
def v128 : RegClass := ⟨2⟩

/-- The declared classes, in order of their codes. -/
def declared : List RegClass := [i64, v128]

def isDeclared (c : RegClass) : Bool := declared.contains c

def name (c : RegClass) : String :=
  if c = i64 then "I64" else if c = v128 then "V128" else "invalid"

end RegClass

inductive Reg where
  | virtual (cls : RegClass) (index : UInt32)
  | physical (cls : RegClass) (enc : UInt8) (index : UInt32)
  deriving DecidableEq, Repr, Inhabited

namespace Reg

def cls : Reg → RegClass
  | virtual c _ => c
  | physical c _ _ => c

/-- The number of a virtual register, the universe position of a physical one. -/
def index : Reg → UInt32
  | virtual _ i => i
  | physical _ _ i => i

def isVirtual : Reg → Bool
  | virtual _ _ => true
  | physical _ _ _ => false

def isPhysical (r : Reg) : Bool := !r.isVirtual

def isValid (r : Reg) : Bool := r.cls.isDeclared

/-- The order key: virtual before physical, then by class, encoding and index. -/
def key : Reg → Nat
  | virtual c i => (c.code.toNat <<< 40) + i.toNat
  | physical c e i => (1 <<< 48) + (c.code.toNat <<< 40) + (e.toNat <<< 32) + i.toNat

/-- The text of a register when no universe names it. -/
def text : Reg → String
  | virtual _ i => s!"v{i.toNat}?"
  | physical _ _ i => s!"r{i.toNat}"

theorem key_injective {a b : Reg} (h : a.key = b.key) : a = b := by
  cases a with
  | virtual ca ia =>
    cases b with
    | virtual cb ib =>
      simp only [key] at h
      have hi := ia.toNat_lt
      have hj := ib.toNat_lt
      have hc : ca.code.toNat = cb.code.toNat := by omega
      have hx : ia.toNat = ib.toNat := by omega
      cases ca; cases cb
      simp only [virtual.injEq, RegClass.mk.injEq]
      exact ⟨UInt8.toNat_inj.mp hc, UInt32.toNat_inj.mp hx⟩
    | physical cb eb ib =>
      simp only [key] at h
      have hc := ca.code.toNat_lt
      have hi := ia.toNat_lt
      omega
  | physical ca ea ia =>
    cases b with
    | virtual cb ib =>
      simp only [key] at h
      have hc := cb.code.toNat_lt
      have hi := ib.toNat_lt
      omega
    | physical cb eb ib =>
      simp only [key] at h
      have hi := ia.toNat_lt
      have hj := ib.toNat_lt
      have ei := ea.toNat_lt
      have ej := eb.toNat_lt
      have hc : ca.code.toNat = cb.code.toNat := by omega
      have he : ea.toNat = eb.toNat := by omega
      have hx : ia.toNat = ib.toNat := by omega
      cases ca; cases cb
      simp only [physical.injEq, RegClass.mk.injEq]
      exact ⟨UInt8.toNat_inj.mp hc, UInt8.toNat_inj.mp he, UInt32.toNat_inj.mp hx⟩

end Reg

end Codegen
