import CourseCompilers.Lib.Machine
import CourseCompilers.Ir.Syntax

/-! Execution of an IR function: SSA registers, the stack slots made by allocas
and a memory of 32-bit words at integer addresses. Whatever is undefined
behaviour in the IR (a division by zero or of the least integer by -1, a read
of a slot nothing was stored to, an ill-typed operand) leaves the machine stuck. -/

namespace CourseCompilers.Ir
open Lib

structure Mem where
  /-- Contents of the stack slots; `brk` of them have been allocated. -/
  slots : Nat → Option Val
  brk : Nat
  /-- The word at each integer address. -/
  words : BitVec 64 → BitVec 32

structure State where
  bb : Nat
  pc : Nat
  regs : Nat → Option Val
  mem : Mem

def evalOperand (regs : Nat → Option Val) : Operand → Option Val
  | .const v => some v
  | .inst id => regs id

@[simp] theorem evalOperand_const (regs : Nat → Option Val) (v : Val) :
    evalOperand regs (.const v) = some v := rfl

/-- Signed division that truncates towards zero, undefined where the IR's is. -/
def sdivChecked {w : Nat} (a b : BitVec w) : Option (BitVec w) :=
  if b = 0 ∨ (a = BitVec.intMin w ∧ b = -1) then none else some (a.sdiv b)

def evalBin (f32 : BitVec 32 → BitVec 32 → Option Val)
    (f64 : BitVec 64 → BitVec 64 → Option Val) : Val → Val → Option Val
  | .i32 a, .i32 b => f32 a b
  | .i64 a, .i64 b => f64 a b
  | _, _ => none

def evalZext : Val → Ty → Option Val
  | .i1 b, .i64 => some (.i64 (if b then 1 else 0))
  | .i1 b, .i32 => some (.i32 (if b then 1 else 0))
  | .i32 n, .i64 => some (.i64 (n.setWidth 64))
  | _, _ => none

def evalIntToPtr : Val → Option Val
  | .i32 n => some (.addr (n.setWidth 64))
  | .i64 n => some (.addr n)
  | _ => none

def evalOp (regs : Nat → Option Val) (o : Op) : Option Val :=
  let bin (a b : Operand) (f : Val → Val → Option Val) : Option Val :=
    (evalOperand regs a).bind fun x => (evalOperand regs b).bind (f x)
  match o with
  | .add a b => bin a b (evalBin (fun x y => some (.i32 (x + y))) fun x y => some (.i64 (x + y)))
  | .sub a b => bin a b (evalBin (fun x y => some (.i32 (x - y))) fun x y => some (.i64 (x - y)))
  | .mul a b => bin a b (evalBin (fun x y => some (.i32 (x * y))) fun x y => some (.i64 (x * y)))
  | .sdiv a b =>
      bin a b (evalBin (fun x y => (sdivChecked x y).map .i32)
        fun x y => (sdivChecked x y).map .i64)
  | .icmpEq a b => bin a b (evalBin (fun x y => some (.i1 (x == y))) fun x y => some (.i1 (x == y)))
  | .icmpNe a b => bin a b (evalBin (fun x y => some (.i1 (x != y))) fun x y => some (.i1 (x != y)))
  | .zext a ty => (evalOperand regs a).bind (evalZext · ty)
  | .intToPtr a => (evalOperand regs a).bind evalIntToPtr

def Mem.load (m : Mem) : Val → Option Val
  | .slot n => m.slots n
  | .addr a => some (.i32 (m.words a))
  | _ => none

def Mem.store (m : Mem) : Val → Val → Option Mem
  | .slot n, v => if n < m.brk then some { m with slots := Function.update m.slots n v } else none
  | .addr a, .i32 n => some { m with words := Function.update m.words a n }
  | _, _ => none

def State.write (s : State) (id : Nat) (v : Val) : State :=
  { s with pc := s.pc + 1, regs := Function.update s.regs id v }

def State.writeMem (s : State) (m : Mem) : State := { s with pc := s.pc + 1, mem := m }

/-- A new slot, its address in register `id`. -/
def State.alloca (s : State) (id : Nat) : State :=
  { s.write id (.slot s.mem.brk) with mem := { s.mem with brk := s.mem.brk + 1 } }

def State.goto (s : State) (b : Nat) : State := { s with bb := b, pc := 0 }

/-- Execute one instruction. The answer of `ret void` is `none`. -/
def exec (s : State) (i : Inst) : Outcome State (Option Val) :=
  match i.instr with
  | .op o =>
      match evalOp s.regs o with
      | some v => .next (s.write i.id v)
      | none => .stuck
  | .alloca _ => .next (s.alloca i.id)
  | .load p =>
      match (evalOperand s.regs p).bind s.mem.load with
      | some v => .next (s.write i.id v)
      | none => .stuck
  | .store v p =>
      match (evalOperand s.regs v).bind fun x => (evalOperand s.regs p).bind (s.mem.store · x) with
      | some m => .next (s.writeMem m)
      | none => .stuck
  | .br d => .next (s.goto d)
  | .condBr c t e =>
      match evalOperand s.regs c with
      | some (.i1 b) => .next (s.goto (if b then t else e))
      | _ => .stuck
  | .ret none => .halt none
  | .ret (some v) =>
      match evalOperand s.regs v with
      | some x => .halt (some x)
      | none => .stuck

def step (f : Func) (s : State) : Outcome State (Option Val) :=
  match (f.block s.bb)[s.pc]? with
  | some i => exec s i
  | none => .stuck

/-- The state in which a function without parameters is entered. -/
def start (words : BitVec 64 → BitVec 32) : State :=
  ⟨0, 0, fun _ => none, ⟨fun _ => none, 0, words⟩⟩

/-- Calling `f` on a memory holding `words` terminates and returns `v`. -/
def Func.Returns (f : Func) (words : BitVec 64 → BitVec 32) (v : Val) : Prop :=
  Lib.Returns (step f) (start words) (some v)

end CourseCompilers.Ir
