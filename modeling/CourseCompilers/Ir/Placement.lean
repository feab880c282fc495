import CourseCompilers.Ir.Builder

/-! Where emitted code runs. A builder's insertion point is also a program point
of every function its own function grows into; the machine standing there is
about to execute whatever is appended next. The rules say how one appended
instruction moves the machine from one insertion point to the following one. -/

namespace CourseCompilers.Ir
open Lib

/-- The machine stands at the builder's insertion point. -/
structure Builder.At (B : Builder) (s : State) : Prop where
  bb : s.bb = B.cur
  pc : s.pc = (B.func.block B.cur).length

/-- Register operands are results of instructions built before `n`. -/
def Operand.Below (n : Nat) : Operand → Prop
  | .const _ => True
  | .inst id => id < n

theorem Operand.Below.mono {a : Operand} {n m : Nat} (h : a.Below n) (hn : n ≤ m) :
    a.Below m := by
  cases a with
  | const c => trivial
  | inst id => exact Nat.lt_of_lt_of_le h hn

theorem Builder.buildOp_below (F : Folder) (B : Builder) (o : Op) :
    (B.buildOp F o).1.Below (B.buildOp F o).2.nextId := by
  rcases B.buildOp_cases F o with ⟨c, _, he⟩ | he
  · rw [he]
    trivial
  · rw [he]
    exact Nat.lt_succ_self _

theorem evalOperand_congr {regs regs' : Nat → Option Val} {a : Operand} {n : Nat}
    (ha : a.Below n) (h : ∀ id < n, regs' id = regs id) :
    evalOperand regs' a = evalOperand regs a := by
  cases a with
  | const c => rfl
  | inst id => exact h id ha

theorem exec_condBr {s : State} {id : Nat} {c : Operand} {b : Bool} (t e : Nat)
    (hc : evalOperand s.regs c = some (.i1 b)) :
    exec s ⟨id, .condBr c t e⟩ = .next (s.goto (if b then t else e)) := by
  simp only [exec, hc]

theorem exec_store {s : State} {id : Nat} {v p : Operand} {a x : Val} {m : Mem}
    (hv : evalOperand s.regs v = some x) (hp : evalOperand s.regs p = some a)
    (hm : s.mem.store a x = some m) : exec s ⟨id, .store v p⟩ = .next (s.writeMem m) := by
  simp only [exec, hv, hp, Option.bind_some, hm]

/-- The instruction the builder appends is the one the machine fetches there. -/
theorem Builder.At.fetch {B : Builder} {f : Func} {s : State} {i : Instr} (hat : B.At s)
    (hok : B.Ok) (hext : (B.insert i).2.func.Extends f) :
    step f s = exec s ⟨B.nextId, i⟩ := by
  have hb := hext B.cur
  rw [Builder.insert_block B i B.cur hok, if_pos rfl] at hb
  have hget := (List.prefix_iff_getElem?.mp hb) (B.func.block B.cur).length (by simp)
  simp only [List.getElem_concat_length] at hget
  unfold step
  rw [hat.bb, hat.pc, hget]

/-- Code emitted from `B` to `B'` takes the machine from `s` to `s'` without
touching memory or any register older than `B`. -/
structure Ran (f : Func) (B : Builder) (s : State) (B' : Builder) (s' : State) : Prop where
  reaches : ∃ n, Reaches (step f) s n s'
  stop : B'.At s'
  mem : s'.mem = s.mem
  regs : ∀ id < B.nextId, s'.regs id = s.regs id

theorem Ran.refl {f : Func} {B : Builder} {s : State} (h : B.At s) : Ran f B s B s :=
  ⟨⟨0, .refl s⟩, h, rfl, fun _ _ => rfl⟩

theorem Ran.trans {f : Func} {B B' B'' : Builder} {s s' s'' : State}
    (h : Ran f B s B' s') (h' : Ran f B' s' B'' s'') (hid : B.nextId ≤ B'.nextId) :
    Ran f B s B'' s'' := by
  obtain ⟨n, hn⟩ := h.reaches
  obtain ⟨m, hm⟩ := h'.reaches
  refine ⟨⟨n + m, hn.trans hm⟩, h'.stop, h'.mem.trans h.mem, ?_⟩
  intro id hlt
  rw [h'.regs id (by omega), h.regs id hlt]

/-- Past the instruction just appended. -/
theorem Builder.At.advance {B : Builder} {s s' : State} (hat : B.At s) (hok : B.Ok) (i : Instr)
    (hbb : s'.bb = s.bb) (hpc : s'.pc = s.pc + 1) : (B.insert i).2.At s' := by
  constructor
  · exact hbb.trans hat.bb
  · rw [Builder.insert_cur, Builder.insert_block B i B.cur hok, if_pos rfl, hpc, hat.pc,
      List.length_append, List.length_singleton]

theorem Builder.At.write {B : Builder} {s : State} {i : Instr} {v : Val} (hat : B.At s)
    (hok : B.Ok) : (B.insert i).2.At (s.write B.nextId v) :=
  hat.advance hok i rfl rfl

theorem Builder.At.appendBlock {B : Builder} {s : State} (hat : B.At s) : B.appendBlock.2.At s :=
  ⟨hat.bb, by rw [Builder.appendBlock_block]; exact hat.pc⟩

/-- A jump to a block nothing was appended to yet. -/
theorem Builder.At.goto {B : Builder} (h : B.func.block B.cur = []) (s : State) :
    B.At (s.goto B.cur) :=
  ⟨rfl, by rw [h]; rfl⟩

theorem State.write_regs_old (s : State) (n : Nat) (v : Val) :
    ∀ id < n, (s.write n v).regs id = s.regs id := by
  intro id hlt
  exact Function.update_of_ne (by omega) _ _

@[simp] theorem State.write_regs_self (s : State) (n : Nat) (v : Val) :
    (s.write n v).regs n = some v := Function.update_self ..

/-- An instruction that only produces a value moves to the next insertion point. -/
theorem Ran.insert {f : Func} {B : Builder} {s : State} {i : Instr} {v : Val} (hat : B.At s)
    (hok : B.Ok) (hext : (B.insert i).2.func.Extends f)
    (hexec : exec s ⟨B.nextId, i⟩ = .next (s.write B.nextId v)) :
    Ran f B s (B.insert i).2 (s.write B.nextId v) where
  reaches := ⟨1, .one (by rw [hat.fetch hok hext, hexec])⟩
  stop := hat.write hok
  mem := rfl
  regs := State.write_regs_old _ _ _

/-- Building an operation that has a value: the operand returned holds it. -/
theorem Ran.buildOp (F : Folder) {f : Func} {B : Builder} {s : State} {o : Op} {v : Val}
    (hat : B.At s) (hok : B.Ok) (hext : (B.buildOp F o).2.func.Extends f)
    (hv : evalOp s.regs o = some v) :
    ∃ s', Ran f B s (B.buildOp F o).2 s' ∧
      evalOperand s'.regs (B.buildOp F o).1 = some v := by
  rcases B.buildOp_cases F o with ⟨c, hc, he⟩ | he
  · rw [he]
    rw [evalOp_of_const (F.constant hc)] at hv
    exact ⟨s, Ran.refl hat, by rw [F.sound hc hv, evalOperand_const]⟩
  · rw [he] at hext ⊢
    refine ⟨s.write B.nextId v, Ran.insert hat hok hext ?_, ?_⟩
    · simp [exec, hv]
    · simp [Builder.insert, evalOperand]

/-- Building an operation that has no value and is not folded: the machine is stuck there. -/
theorem Builder.At.buildOp_stuck {F : Folder} {f : Func} {B : Builder} {s : State} {o : Op}
    (hat : B.At s) (hok : B.Ok) (hext : (B.buildOp F o).2.func.Extends f)
    (hkeep : F.fold o = none) (hv : evalOp s.regs o = none) : step f s = .stuck := by
  rw [Builder.buildOp, hkeep] at hext
  rw [hat.fetch hok hext]
  simp only [exec, hv]

theorem Ran.load {f : Func} {B : Builder} {s : State} {p : Operand} {a v : Val}
    (hat : B.At s) (hok : B.Ok) (hext : (B.insert (.load p)).2.func.Extends f)
    (hp : evalOperand s.regs p = some a) (hv : s.mem.load a = some v) :
    Ran f B s (B.insert (.load p)).2 (s.write B.nextId v) :=
  Ran.insert hat hok hext (by simp [exec, hp, hv])

end CourseCompilers.Ir
