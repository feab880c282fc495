import Mathlib.Data.BitVec

/-! The part of the LLVM IR that the translators emit: values, instructions,
basic blocks and functions. A function is the list of its blocks in the order
they were appended; a block reference is its position in that list. Value and
block names are only labels in the printed module and are left out. -/

namespace CourseCompilers.Ir

inductive Ty where
  | i1 | i32 | i64 | float | void
  | ptr (elem : Ty)
  deriving DecidableEq, Repr

/-- Run-time values. `slot n` is the address the `n`-th executed alloca gave,
`addr a` an address made from an integer. -/
inductive Val where
  | i1 (b : Bool)
  | i32 (n : BitVec 32)
  | i64 (n : BitVec 64)
  | slot (n : Nat)
  | addr (a : BitVec 64)
  deriving DecidableEq, Repr

/-- An `LLVMValueRef` that is not null: a constant or an instruction's result. -/
inductive Operand where
  | const (v : Val)
  | inst (id : Nat)
  deriving DecidableEq, Repr

/-- Instructions that read no memory; these are the ones a folder may replace. -/
inductive Op where
  | add (a b : Operand)
  | sub (a b : Operand)
  | mul (a b : Operand)
  | sdiv (a b : Operand)
  | icmpEq (a b : Operand)
  | icmpNe (a b : Operand)
  | zext (a : Operand) (ty : Ty)
  | intToPtr (a : Operand)
  deriving DecidableEq, Repr

inductive Instr where
  | op (o : Op)
  | alloca (ty : Ty)
  | load (p : Operand)
  | store (v p : Operand)
  | br (dest : Nat)
  | condBr (c : Operand) (ifTrue ifFalse : Nat)
  | ret (v : Option Operand)
  deriving DecidableEq, Repr

/-- An instruction together with the name other instructions use for it. -/
structure Inst where
  id : Nat
  instr : Instr
  deriving DecidableEq, Repr

abbrev Block := List Inst

structure Func where
  blocks : List Block
  deriving DecidableEq, Repr

/-- The instructions of block `b`; an unknown block has none. -/
def Func.block (f : Func) (b : Nat) : Block := f.blocks.getD b []

def Op.operands : Op → List Operand
  | .add a b | .sub a b | .mul a b | .sdiv a b | .icmpEq a b | .icmpNe a b => [a, b]
  | .zext a _ | .intToPtr a => [a]

def Instr.operands : Instr → List Operand
  | .op o => o.operands
  | .alloca _ | .br _ => []
  | .load p => [p]
  | .store v p => [v, p]
  | .condBr c _ _ => [c]
  | .ret v => v.toList

/-- The blocks control may go to next. -/
def Instr.targets : Instr → List Nat
  | .br d => [d]
  | .condBr _ t e => [t, e]
  | _ => []

def Instr.isTerminator : Instr → Bool
  | .br _ | .condBr _ _ _ | .ret _ => true
  | _ => false

/-- Whether other instructions may use the result. -/
def Instr.hasResult : Instr → Bool
  | .op _ | .alloca _ | .load _ => true
  | _ => false

theorem Instr.not_terminator_of_hasResult {i : Instr} (h : i.hasResult = true) :
    i.isTerminator = false := by
  cases i <;> simp_all [Instr.hasResult, Instr.isTerminator]

theorem Instr.targets_eq_nil {i : Instr} (h : i.isTerminator = false) : i.targets = [] := by
  cases i <;> simp_all [Instr.isTerminator, Instr.targets]

end CourseCompilers.Ir
