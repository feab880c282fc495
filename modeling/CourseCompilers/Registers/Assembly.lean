import CourseCompilers.Registers.Syntax

/-! Tutorial 1: the parser prints assembly while it reduces. Temporaries are
numbered by the global counter `regCnt`, which starts above the eight program
registers; a register operand is passed on by its number and is never copied. -/

namespace CourseCompilers.Registers

inductive Asm where
  | andImm (d s : Nat) (imm : BitVec 32)
  | addImm (d s : Nat) (imm : BitVec 32)
  | add (d s t : Nat)
  | sub (d s t : Nat)
  | not (d s : Nat)
  | ldr (d s : Nat) (off : BitVec 32)
  deriving DecidableEq, Repr

/-- A printed line: an instruction, or text that names the reduced rule. -/
inductive Line where
  | text (s : String)
  | instr (i : Asm)
  deriving DecidableEq, Repr

abbrev RegFile := Nat → BitVec 32

def Asm.exec (mem : Memory) (rf : RegFile) : Asm → RegFile
  | .andImm d s imm => Function.update rf d (rf s &&& imm)
  | .addImm d s imm => Function.update rf d (rf s + imm)
  | .add d s t => Function.update rf d (rf s + rf t)
  | .sub d s t => Function.update rf d (rf s - rf t)
  | .not d s => Function.update rf d (~~~rf s)
  | .ldr d s off => Function.update rf d (mem (rf s + off))

/-- Execute the instructions among the printed lines in order. -/
def execLines (mem : Memory) (rf : RegFile) : List Line → RegFile
  | [] => rf
  | .text _ :: ls => execLines mem rf ls
  | .instr i :: ls => execLines mem (i.exec mem rf) ls

/-- The actions of `expr`: from `regCnt` to `$$`, the lines printed and the new
`regCnt`. -/
def Expr.emit : Expr → Nat → Nat × List Line × Nat
  | .immediate n, regCnt =>
      (regCnt,
        [.text s!"# Output for expr : IMMEDIATE ({n.toInt}) ",
          .instr (.andImm regCnt regCnt 0), .instr (.addImm regCnt regCnt n)],
        regCnt + 1)
  | .reg r, regCnt => (r, [.text s!"# Output expr : REG ({r.val}) "], regCnt)
  | .plus a b, regCnt =>
      let (x, la, regCnt) := a.emit regCnt
      let (y, lb, regCnt) := b.emit regCnt
      (regCnt,
        la ++ lb ++ [.text "# Output expr : expr PLUS expr ", .instr (.add regCnt x y)],
        regCnt + 1)
  | .minus a b, regCnt =>
      let (x, la, regCnt) := a.emit regCnt
      let (y, lb, regCnt) := b.emit regCnt
      (regCnt,
        la ++ lb ++ [.text "# Output for expr : expr MINUS expr ", .instr (.sub regCnt x y)],
        regCnt + 1)
  | .paren a, regCnt =>
      let (x, la, regCnt) := a.emit regCnt
      (x, la ++ [.text "# Output for expr : LPAREN expr RPAREN "], regCnt)
  | .neg a, regCnt =>
      let (x, la, regCnt) := a.emit regCnt
      (regCnt,
        la ++ [.text "expr : MINUS expr ", .instr (.not regCnt x),
          .instr (.addImm regCnt regCnt 1)],
        regCnt + 1)
  | .load a, regCnt =>
      let (x, la, regCnt) := a.emit regCnt
      (regCnt,
        la ++ [.text "#Output for expr : LBRACKET expr RBRACKET ", .instr (.ldr regCnt x 0)],
        regCnt + 1)

/-- The action of an assignment, the same in both rules that have one. -/
def emitAssign (r : Fin 8) (e : Expr) (regCnt : Nat) : List Line × Nat :=
  let (x, le, regCnt) := e.emit regCnt
  (le ++ [.text s!"# Output program : REG ({r.val}) ASSIGN expr SEMI", .instr (.addImm r x 0)],
    regCnt)

/-- The actions of `program`, from `regCnt = 8`. -/
def Program.emit : Program → List Line × Nat
  | .first r e => emitAssign r e 8
  | .next p r e =>
      let (lp, regCnt) := p.emit
      let (le, regCnt) := emitAssign r e regCnt
      (lp ++ le, regCnt)

theorem execLines_append (mem : Memory) (rf : RegFile) (ls ls' : List Line) :
    execLines mem rf (ls ++ ls') = execLines mem (execLines mem rf ls) ls' := by
  induction ls generalizing rf with
  | nil => rfl
  | cons l ls ih =>
    cases l with
    | text s => exact ih rf
    | instr i => exact ih _

/-- The part of a register file the program names. -/
def RegFile.named (rf : RegFile) : Regs := fun r => rf r

/-- What the code of an expression does: its value ends up in a register below
the new counter, and no register below the old counter is written. -/
structure Emitted (mem : Memory) (rf : RegFile) (e : Expr) (regCnt : Nat) : Prop where
  le : regCnt ≤ (e.emit regCnt).2.2
  lt : (e.emit regCnt).1 < (e.emit regCnt).2.2
  value : execLines mem rf (e.emit regCnt).2.1 (e.emit regCnt).1 = e.eval mem rf.named
  frame : ∀ i < regCnt, execLines mem rf (e.emit regCnt).2.1 i = rf i

theorem named_eq_of_frame {rf rf' : RegFile} {n : Nat} (hn : 8 ≤ n) (h : ∀ i < n, rf' i = rf i) :
    rf'.named = rf.named := by
  funext r
  exact h r (by omega)

/-- Two operands evaluated in turn: the right one's code keeps the left result,
which lies below the counter the right one starts from. -/
theorem Emitted.pair {mem : Memory} {rf : RegFile} {a b : Expr} {regCnt : Nat} (hn : 8 ≤ regCnt)
    (ha : Emitted mem rf a regCnt)
    (hb : ∀ rf, Emitted mem rf b (a.emit regCnt).2.2) :
    let rf' := execLines mem rf ((a.emit regCnt).2.1 ++ (b.emit (a.emit regCnt).2.2).2.1)
    rf' (a.emit regCnt).1 = a.eval mem rf.named ∧
      rf' (b.emit (a.emit regCnt).2.2).1 = b.eval mem rf.named ∧
      ∀ i < regCnt, rf' i = rf i := by
  intro rf'
  have hb' := hb (execLines mem rf (a.emit regCnt).2.1)
  have hnamed := named_eq_of_frame hn ha.frame
  have hle := ha.le
  refine ⟨?_, ?_, ?_⟩
  · rw [show rf' = _ from execLines_append ..]
    rw [hb'.frame _ ha.lt, ha.value]
  · rw [show rf' = _ from execLines_append ..]
    rw [hb'.value, hnamed]
  · intro i hi
    rw [show rf' = _ from execLines_append ..]
    rw [hb'.frame i (by omega), ha.frame i hi]

theorem Expr.emitted (mem : Memory) (e : Expr) (regCnt : Nat) (hn : 8 ≤ regCnt) (rf : RegFile) :
    Emitted mem rf e regCnt := by
  induction e generalizing regCnt rf with
  | immediate n =>
    refine ⟨by simp [emit], by simp [emit], by simp [emit, execLines, Asm.exec, eval], ?_⟩
    intro i hi
    have : i ≠ regCnt := by omega
    simp [emit, execLines, Asm.exec, this]
  | reg r =>
    refine ⟨by simp [emit], ?_, by simp [emit, execLines, eval, RegFile.named], ?_⟩
    · simp only [emit]; omega
    · intro i _; rfl
  | plus a b iha ihb | minus a b iha ihb =>
    have ha := iha regCnt hn rf
    have hb := ihb (a.emit regCnt).2.2 (Nat.le_trans hn ha.le)
    obtain ⟨hx, hy, hframe⟩ := ha.pair hn hb
    have hle := ha.le
    have hle' := (hb rf).le
    refine ⟨Nat.le_succ_of_le (Nat.le_trans hle hle'), by simp [emit], ?_, ?_⟩
    · simp [emit, execLines_append, execLines, Asm.exec, eval] at hx hy ⊢
      rw [hx, hy]
    · intro i hi
      have : i ≠ (b.emit (a.emit regCnt).2.2).2.2 := by omega
      simpa [emit, execLines_append, execLines, Asm.exec, this] using hframe i hi
  | paren a iha =>
    have ha := iha regCnt hn rf
    refine ⟨ha.le, ha.lt, ?_, ?_⟩
    · simpa [emit, execLines_append, execLines, eval] using ha.value
    · intro i hi
      simpa [emit, execLines_append, execLines] using ha.frame i hi
  | neg a iha =>
    have ha := iha regCnt hn rf
    have hle := ha.le
    have hlt := ha.lt
    refine ⟨Nat.le_succ_of_le hle, by simp [emit], ?_, ?_⟩
    · have hv := ha.value
      simp [emit, execLines_append, execLines, Asm.exec, eval] at hv ⊢
      rw [hv, BitVec.neg_eq_not_add]
    · intro i hi
      have : i ≠ (a.emit regCnt).2.2 := by omega
      simpa [emit, execLines_append, execLines, Asm.exec, this] using ha.frame i hi
  | load a iha =>
    have ha := iha regCnt hn rf
    have hle := ha.le
    refine ⟨Nat.le_succ_of_le hle, by simp [emit], ?_, ?_⟩
    · have hv := ha.value
      simp [emit, execLines_append, execLines, Asm.exec, eval] at hv ⊢
      rw [hv]
    · intro i hi
      have : i ≠ (a.emit regCnt).2.2 := by omega
      simpa [emit, execLines_append, execLines, Asm.exec, this] using ha.frame i hi

/-- One assignment: the named registers change as the source assignment says. -/
theorem emitAssign_correct (mem : Memory) (r : Fin 8) (e : Expr) (regCnt : Nat)
    (hn : 8 ≤ regCnt) (rf : RegFile) :
    (execLines mem rf (emitAssign r e regCnt).1).named =
      Function.update rf.named r (e.eval mem rf.named) := by
  have he := e.emitted mem regCnt hn rf
  funext q
  by_cases hq : q = r
  · subst hq
    have hv := he.value
    simp [emitAssign, execLines_append, execLines, Asm.exec, RegFile.named] at hv ⊢
    exact hv
  · have hne : (q : Nat) ≠ r := by simpa [Fin.ext_iff] using hq
    have hf := he.frame q (by omega)
    simp [emitAssign, execLines_append, execLines, Asm.exec, RegFile.named, hne, hq] at hf ⊢
    exact hf

theorem Program.le_emit (p : Program) : 8 ≤ p.emit.2 := by
  induction p with
  | first r e => exact (e.emitted (fun _ => 0) 8 (Nat.le_refl 8) fun _ => 0).le
  | next p r e ih =>
    have := (e.emitted (fun _ => 0) p.emit.2 ih fun _ => 0).le
    exact Nat.le_trans ih this

/-- Executing everything a program prints leaves `R0`..`R7` as the assignments
interpreted in source order do, from any register file and memory. -/
theorem assembly_correct (p : Program) (mem : Memory) (rf : RegFile) (r : Fin 8) :
    execLines mem rf p.emit.1 r = p.exec mem (fun q => rf q) r := by
  have h : (execLines mem rf p.emit.1).named = p.exec mem rf.named := by
    induction p with
    | first q e => exact emitAssign_correct mem q e 8 (Nat.le_refl 8) rf
    | next p q e ih =>
      simp only [Program.emit, Program.exec, execLines_append]
      rw [emitAssign_correct mem q e p.emit.2 p.le_emit, ih]
  exact congrFun h r

end CourseCompilers.Registers
