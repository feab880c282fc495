import CourseCompilers.Ir.Machine

/-! The IR builder: an insertion point into a function under construction.
`IRBuilder` is parameterised by a constant folder, which may answer a request
for an instruction with a constant instead of appending it. The folder is LLVM's
own code, so it is a parameter here; its fields say all that is used. Where the
operation is undefined (a quotient of constants with the divisor 0, or the one that
overflows) they promise nothing: LLVM answers with undef, which stands for any constant. -/

namespace CourseCompilers.Ir
open Lib

def Operand.IsConst : Operand → Prop
  | .const _ => True
  | .inst _ => False

/-- A constant folder answers for operations on constants only, with the value the
operation has if it has one. -/
structure Folder where
  fold : Op → Option Val
  constant : ∀ {o c}, fold o = some c → ∀ x ∈ o.operands, x.IsConst
  sound : ∀ {o c v}, fold o = some c → evalOp (fun _ => none) o = some v → v = c

/-- The folder leaves an instruction for every operation that is undefined. -/
def Folder.KeepsUndefined (F : Folder) : Prop :=
  ∀ {o c}, F.fold o = some c → (evalOp (fun _ => none) o).isSome

theorem Operand.IsConst.evalOperand_eq {x : Operand} (h : x.IsConst)
    (regs : Nat → Option Val) : evalOperand regs x = evalOperand (fun _ => none) x := by
  cases x with
  | const c => rfl
  | inst id => cases h

/-- On constants an operation does not look at the registers. -/
theorem evalOp_of_const {o : Op} (h : ∀ x ∈ o.operands, x.IsConst)
    (regs : Nat → Option Val) : evalOp regs o = evalOp (fun _ => none) o := by
  cases o <;> simp only [Op.operands, List.mem_cons, List.not_mem_nil,
    or_false, forall_eq_or_imp, forall_eq] at h
  case zext | intToPtr => simp only [evalOp, h.evalOperand_eq regs]
  all_goals simp only [evalOp, h.1.evalOperand_eq regs, h.2.evalOperand_eq regs]

/-- An operation without registers that has a value is on constants. -/
theorem const_of_evalOp {o : Op} {v : Val} (h : evalOp (fun _ => none) o = some v) :
    ∀ x ∈ o.operands, x.IsConst := by
  have hconst : ∀ {x : Operand} {w : Val}, evalOperand (fun _ => none) x = some w → x.IsConst := by
    intro x w hx
    cases x with
    | const c => trivial
    | inst id => cases hx
  cases o <;> simp only [evalOp, Option.bind_eq_some_iff] at h <;>
    simp only [Op.operands, List.mem_cons, List.not_mem_nil, or_false, forall_eq_or_imp, forall_eq]
  case zext | intToPtr =>
    obtain ⟨x, hx, _⟩ := h
    exact hconst hx
  all_goals
    obtain ⟨x, hx, y, hy, _⟩ := h
    exact ⟨hconst hx, hconst hy⟩

theorem Folder.KeepsUndefined.fold_eq_none {F : Folder} (h : F.KeepsUndefined) {o : Op}
    {regs : Nat → Option Val} (hv : evalOp regs o = none) : F.fold o = none := by
  cases hc : F.fold o with
  | none => rfl
  | some c =>
    have hsome := h hc
    rw [← evalOp_of_const (F.constant hc) regs, hv] at hsome
    cases hsome

/-- A folder that folds every operation on constants that has a value, and no other. -/
def Folder.constants : Folder where
  fold := evalOp fun _ => none
  constant := const_of_evalOp
  sound h hv := Option.some.inj (hv.symm.trans h)

theorem Folder.constants_keepsUndefined : Folder.constants.KeepsUndefined :=
  fun h => Option.isSome_iff_exists.mpr ⟨_, h⟩

structure Builder where
  func : Func
  cur : Nat
  nextId : Nat
  deriving DecidableEq, Repr

def Func.append (f : Func) (b : Nat) (i : Inst) : Func := ⟨f.blocks.modify b (· ++ [i])⟩

namespace Builder

/-- The builder every `main` starts the parser with: the block `entry` has been
appended to a new function and the builder stands at its end. -/
def entry : Builder := ⟨⟨[[]]⟩, 0, 0⟩

def insert (B : Builder) (i : Instr) : Operand × Builder :=
  (.inst B.nextId,
    { B with func := B.func.append B.cur ⟨B.nextId, i⟩, nextId := B.nextId + 1 })

def buildOp (F : Folder) (B : Builder) (o : Op) : Operand × Builder :=
  match F.fold o with
  | some c => (.const c, B)
  | none => B.insert (.op o)

/-- `LLVMAppendBasicBlock`, `BasicBlock::Create`. -/
def appendBlock (B : Builder) : Nat × Builder :=
  (B.func.blocks.length, { B with func := ⟨B.func.blocks ++ [[]]⟩ })

/-- `LLVMPositionBuilderAtEnd`, `SetInsertPoint`. -/
def positionAtEnd (B : Builder) (b : Nat) : Builder := { B with cur := b }

/-- The insertion point lies in a block of the function. -/
def Ok (B : Builder) : Prop := B.cur < B.func.blocks.length

end Builder

/-! ## Growth of a function under construction -/

/-- `f.Extends g`: `g` has `f`'s blocks, with code appended at their ends. -/
def Func.Extends (f g : Func) : Prop := ∀ b, f.block b <+: g.block b

theorem Func.Extends.refl (f : Func) : f.Extends f := fun _ => List.prefix_refl _

theorem Func.Extends.trans {f g h : Func} (hfg : f.Extends g) (hgh : g.Extends h) :
    f.Extends h := fun b => (hfg b).trans (hgh b)

theorem Func.block_append (f : Func) (b c : Nat) (i : Inst) (hb : b < f.blocks.length) :
    (f.append b i).block c = if c = b then f.block c ++ [i] else f.block c := by
  by_cases hc : c = b
  · subst hc
    simp [Func.append, Func.block, List.getD_eq_getElem?_getD, hb]
  · simp [Func.append, Func.block, List.getD_eq_getElem?_getD, hc, Ne.symm hc]

theorem Func.block_append_ne (f : Func) {b c : Nat} (i : Inst) (hc : c ≠ b) :
    (f.append b i).block c = f.block c := by
  simp [Func.append, Func.block, List.getD_eq_getElem?_getD, Ne.symm hc]

theorem Func.append_extends (f : Func) (b : Nat) (i : Inst) : f.Extends (f.append b i) := by
  intro c
  by_cases hb : b < f.blocks.length
  · rw [Func.block_append f b c i hb]
    split
    · exact List.prefix_append _ _
    · exact List.prefix_refl _
  · rw [Func.append, List.modify_eq_self (by omega)]

@[simp] theorem Func.length_append (f : Func) (b : Nat) (i : Inst) :
    (f.append b i).blocks.length = f.blocks.length := by simp [Func.append]

namespace Builder

@[simp] theorem insert_cur (B : Builder) (i : Instr) : (B.insert i).2.cur = B.cur := rfl
@[simp] theorem insert_nextId (B : Builder) (i : Instr) :
    (B.insert i).2.nextId = B.nextId + 1 := rfl
@[simp] theorem insert_length (B : Builder) (i : Instr) :
    (B.insert i).2.func.blocks.length = B.func.blocks.length := Func.length_append ..
@[simp] theorem positionAtEnd_func (B : Builder) (b : Nat) :
    (B.positionAtEnd b).func = B.func := rfl
@[simp] theorem positionAtEnd_cur (B : Builder) (b : Nat) : (B.positionAtEnd b).cur = b := rfl
@[simp] theorem positionAtEnd_nextId (B : Builder) (b : Nat) :
    (B.positionAtEnd b).nextId = B.nextId := rfl
@[simp] theorem appendBlock_cur (B : Builder) : B.appendBlock.2.cur = B.cur := rfl
@[simp] theorem appendBlock_nextId (B : Builder) : B.appendBlock.2.nextId = B.nextId := rfl
@[simp] theorem appendBlock_fst (B : Builder) : B.appendBlock.1 = B.func.blocks.length := rfl
@[simp] theorem appendBlock_length (B : Builder) :
    B.appendBlock.2.func.blocks.length = B.func.blocks.length + 1 := by simp [appendBlock]

theorem insert_extends (B : Builder) (i : Instr) : B.func.Extends (B.insert i).2.func :=
  Func.append_extends _ _ _

theorem insert_block (B : Builder) (i : Instr) (c : Nat) (h : B.Ok) :
    (B.insert i).2.func.block c =
      if c = B.cur then B.func.block c ++ [⟨B.nextId, i⟩] else B.func.block c :=
  Func.block_append _ _ _ _ h

@[simp] theorem appendBlock_block (B : Builder) (c : Nat) :
    B.appendBlock.2.func.block c = B.func.block c := by
  simp only [appendBlock, Func.block, List.getD_eq_getElem?_getD]
  rcases Nat.lt_trichotomy c B.func.blocks.length with h | h | h
  · rw [List.getElem?_append_left h]
  · simp [h]
  · rw [List.getElem?_eq_none (by simp; omega), List.getElem?_eq_none (by omega)]

theorem appendBlock_extends (B : Builder) : B.func.Extends B.appendBlock.2.func := by
  intro c
  rw [appendBlock_block]

/-- Asking for an operation appends at most its instruction to the current block. -/
theorem buildOp_cases (F : Folder) (B : Builder) (o : Op) :
    (∃ c, F.fold o = some c ∧ B.buildOp F o = (.const c, B)) ∨
    B.buildOp F o = B.insert (.op o) := by
  unfold buildOp
  cases h : F.fold o with
  | some c => exact .inl ⟨c, rfl, rfl⟩
  | none => exact .inr rfl

end Builder

/-- Emission that stays in the current block: `B'` is `B` with code appended at
the insertion point. -/
structure Builder.Straight (B B' : Builder) : Prop where
  grows : B.func.Extends B'.func
  nextId_le : B.nextId ≤ B'.nextId
  cur : B'.cur = B.cur
  length : B'.func.blocks.length = B.func.blocks.length
  frame : ∀ b, b ≠ B.cur → B'.func.block b = B.func.block b

theorem Builder.Straight.refl (B : Builder) : B.Straight B :=
  ⟨.refl _, Nat.le_refl _, rfl, rfl, fun _ _ => rfl⟩

theorem Builder.Straight.trans {B B' B'' : Builder} (h : B.Straight B') (h' : B'.Straight B'') :
    B.Straight B'' where
  grows := h.grows.trans h'.grows
  nextId_le := Nat.le_trans h.nextId_le h'.nextId_le
  cur := h'.cur.trans h.cur
  length := h'.length.trans h.length
  frame b hb := (h'.frame b (h.cur ▸ hb)).trans (h.frame b hb)

theorem Builder.Straight.ok {B B' : Builder} (h : B.Straight B') (hok : B.Ok) : B'.Ok := by
  unfold Builder.Ok at *
  rw [h.cur, h.length]
  exact hok

theorem Builder.straight_insert (B : Builder) (i : Instr) : B.Straight (B.insert i).2 :=
  ⟨B.insert_extends i, Nat.le_succ _, rfl, B.insert_length i, fun _ => Func.block_append_ne _ _⟩

theorem Builder.straight_buildOp (F : Folder) (B : Builder) (o : Op) :
    B.Straight (B.buildOp F o).2 := by
  rcases B.buildOp_cases F o with ⟨c, _, he⟩ | he
  · rw [he]
    exact .refl B
  · rw [he]
    exact B.straight_insert _

/-- A block no code was appended to yet. -/
theorem Func.block_eq_nil {f : Func} {b : Nat} (h : f.blocks.length ≤ b) : f.block b = [] := by
  simp [Func.block, List.getD_eq_getElem?_getD, List.getElem?_eq_none h]

end CourseCompilers.Ir
