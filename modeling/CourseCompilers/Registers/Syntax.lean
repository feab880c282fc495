import Mathlib.Data.BitVec
import Mathlib.Logic.Function.Basic

/-! The register language of the first two tutorials: assignments of
expressions to `r0`..`r7`. Both tutorials share the grammar and the scanner, so
they share these trees; an immediate carries the `int` the scanner returned. -/

namespace CourseCompilers.Registers

inductive Expr where
  | immediate (n : BitVec 32)
  | reg (r : Fin 8)
  | plus (a b : Expr)
  | minus (a b : Expr)
  | paren (a : Expr)
  | neg (a : Expr)
  | load (a : Expr)
  deriving DecidableEq, Repr

/-- `program: REG ASSIGN expr SEMI | program REG ASSIGN expr SEMI`. -/
inductive Program where
  | first (r : Fin 8) (e : Expr)
  | next (p : Program) (r : Fin 8) (e : Expr)
  deriving DecidableEq, Repr

/-! ## Meaning: an eight-register machine with 32-bit words -/

abbrev Regs := Fin 8 → BitVec 32
abbrev Memory := BitVec 32 → BitVec 32

def Expr.eval (mem : Memory) (rf : Regs) : Expr → BitVec 32
  | .immediate n => n
  | .reg r => rf r
  | .plus a b => a.eval mem rf + b.eval mem rf
  | .minus a b => a.eval mem rf - b.eval mem rf
  | .paren a => a.eval mem rf
  | .neg a => -a.eval mem rf
  | .load a => mem (a.eval mem rf)

/-- Execute the assignments one after another. -/
def Program.exec (mem : Memory) (rf : Regs) : Program → Regs
  | .first r e => Function.update rf r (e.eval mem rf)
  | .next p r e => Function.update (p.exec mem rf) r (e.eval mem (p.exec mem rf))

def Program.lastReg : Program → Fin 8
  | .first r _ => r
  | .next _ r _ => r

/-! ## Which registers are read and assigned -/

def Expr.reads : Expr → List (Fin 8)
  | .immediate _ => []
  | .reg r => [r]
  | .plus a b | .minus a b => a.reads ++ b.reads
  | .paren a | .neg a | .load a => a.reads

def Program.assigned : Program → List (Fin 8)
  | .first r _ => [r]
  | .next p r _ => r :: p.assigned

/-- Every register read has been assigned by an earlier statement. -/
def Program.ReadsAssigned : Program → Prop
  | .first _ e => ∀ r ∈ e.reads, False
  | .next p _ e => p.ReadsAssigned ∧ ∀ r ∈ e.reads, r ∈ p.assigned

instance Program.decReadsAssigned : (p : Program) → Decidable p.ReadsAssigned
  | .first _ e => inferInstanceAs (Decidable (∀ r ∈ e.reads, False))
  | .next p _ e =>
      have := decReadsAssigned p
      inferInstanceAs (Decidable (p.ReadsAssigned ∧ ∀ r ∈ e.reads, r ∈ p.assigned))

theorem Program.lastReg_mem_assigned (p : Program) : p.lastReg ∈ p.assigned := by
  cases p <;> simp [lastReg, assigned]

end CourseCompilers.Registers
