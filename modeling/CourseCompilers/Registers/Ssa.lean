import CourseCompilers.Ir.Placement
import CourseCompilers.Registers.Syntax

/-! Tutorial 2: the parser builds SSA form directly. No register is stored
anywhere; `regs` maps each of them to the value that is current at this point of
the parse. The C version returns the semantic value of `program`, the C++
version remembers `lastReg` and returns what `regs` holds for it. -/

namespace CourseCompilers.Registers
open Lib Ir

/-- An `LLVMValueRef`; `none` is the null pointer the array starts with. -/
abbrev ValueRef := Option Operand

abbrev RegMap := Fin 8 → ValueRef

def i32 (n : BitVec 32) : Operand := .const (.i32 n)

/-- A builder call on two values; LLVM dereferences both. -/
def build2 (F : Folder) (mk : Operand → Operand → Op) (x y : ValueRef) (B : Builder) :
    Option (ValueRef × Builder) := do
  let x ← x
  let y ← y
  let (v, B) := B.buildOp F (mk x y)
  return (some v, B)

/-- The actions of `expr`; the outcome `none` is a null pointer handed to LLVM. -/
def Expr.build (F : Folder) (regs : RegMap) : Expr → Builder → Option (ValueRef × Builder)
  | .immediate n, B => some (some (i32 n), B)
  | .reg r, B => some (regs r, B)
  | .plus a b, B => do
      let (x, B) ← a.build F regs B
      let (y, B) ← b.build F regs B
      build2 F .add x y B
  | .minus a b, B => do
      let (x, B) ← a.build F regs B
      let (y, B) ← b.build F regs B
      build2 F .sub x y B
  | .paren a, B => a.build F regs B
  | .neg a, B => do
      let (x, B) ← a.build F regs B
      build2 F .sub (some (i32 0)) x B
  | .load a, B => do
      let (x, B) ← a.build F regs B
      let x ← x
      let (tmp, B) := B.buildOp F (.intToPtr x)
      let (v, B) := B.insert (.load tmp)
      return (some v, B)

/-- What the actions of `program` carry along: the array, the builder, and how
the result is remembered (`$$` in C, `lastReg` in C++). -/
structure Parse (ρ : Type) where
  regs : RegMap
  builder : Builder
  result : ρ

/-- The action of an assignment with the given way to remember the result. -/
def Parse.assign {ρ : Type} (F : Folder) (remember : Fin 8 → ValueRef → ρ) (regs : RegMap)
    (B : Builder) (r : Fin 8) (e : Expr) : Option (Parse ρ) := do
  let (v, B) ← e.build F regs B
  return ⟨Function.update regs r v, B, remember r v⟩

def Program.parse {ρ : Type} (F : Folder) (remember : Fin 8 → ValueRef → ρ) :
    Program → Option (Parse ρ)
  | .first r e => Parse.assign F remember (fun _ => none) Builder.entry r e
  | .next p r e => do
      let P ← p.parse F remember
      Parse.assign F remember P.regs P.builder r e

/-- `program SEMI` in C: return the semantic value of `program`. -/
def Program.compileC (F : Folder) (p : Program) : Option Func := do
  let P ← p.parse F fun _ v => v
  return (P.builder.insert (.ret P.result)).2.func

/-- `program SEMI` in C++: return `regs[lastReg]`. -/
def Program.compileCpp (F : Folder) (p : Program) : Option Func := do
  let P ← p.parse F fun r _ => r
  return (P.builder.insert (.ret (P.regs P.result))).2.func

/-! ## Expressions -/

theorem build2_some (F : Folder) (mk : Operand → Operand → Op) (x y : Operand) (B : Builder) :
    build2 F mk (some x) (some y) B =
      some (some (B.buildOp F (mk x y)).1, (B.buildOp F (mk x y)).2) := rfl

/-- If no register an expression reads is null, its actions hand LLVM no null
value, and they stay in the current block. -/
theorem Expr.build_total (F : Folder) (regs : RegMap) (e : Expr) (B : Builder)
    (h : ∀ r ∈ e.reads, ∃ o, regs r = some o) :
    ∃ o B', e.build F regs B = some (some o, B') ∧ B.Straight B' := by
  induction e generalizing B with
  | immediate n => exact ⟨_, B, rfl, .refl B⟩
  | reg r =>
    obtain ⟨o, ho⟩ := h r (by simp [reads])
    exact ⟨o, B, by simp [build, ho], .refl B⟩
  | plus a b iha ihb | minus a b iha ihb =>
    obtain ⟨x, Ba, ha, hsa⟩ := iha B fun r hr => h r (by simp [reads, hr])
    obtain ⟨y, Bb, hb, hsb⟩ := ihb Ba fun r hr => h r (by simp [reads, hr])
    exact ⟨_, _, by simp [build, ha, hb, build2_some]; exact ⟨rfl, rfl⟩,
      (hsa.trans hsb).trans (Bb.straight_buildOp F _)⟩
  | paren a iha => exact iha B h
  | neg a iha =>
    obtain ⟨x, Ba, ha, hsa⟩ := iha B h
    exact ⟨_, _, by simp [build, ha, build2_some]; exact ⟨rfl, rfl⟩,
      hsa.trans (Ba.straight_buildOp F _)⟩
  | load a iha =>
    obtain ⟨x, Ba, ha, hsa⟩ := iha B h
    exact ⟨_, _, by simp [build, ha]; exact ⟨rfl, rfl⟩,
      (hsa.trans (Ba.straight_buildOp F _)).trans (Builder.straight_insert _ _)⟩

/-- The value `x` is built before `B` and holds `n` in state `s`. -/
def Holds (B : Builder) (s : State) (x : ValueRef) (n : BitVec 32) : Prop :=
  ∃ o, x = some o ∧ o.Below B.nextId ∧ evalOperand s.regs o = some (.i32 n)

theorem Holds.mono {f : Func} {B B' : Builder} {s s' : State} {x : ValueRef} {n : BitVec 32}
    (h : Holds B s x n) (hran : Ran f B s B' s') (hid : B.nextId ≤ B'.nextId) :
    Holds B' s' x n := by
  obtain ⟨o, rfl, hb, hv⟩ := h
  exact ⟨o, rfl, hb.mono hid, by rw [evalOperand_congr hb hran.regs, hv]⟩

/-- The words a 32-bit address reaches. -/
def wordsAt (words : BitVec 64 → BitVec 32) : Memory := fun a => words (a.setWidth 64)

/-- One operation on values already held, at the end of a run. -/
theorem Ran.build2 (F : Folder) {f : Func} {B : Builder} {s : State} {o : Op} {n : BitVec 32}
    (hat : B.At s) (hok : B.Ok) (hext : (B.buildOp F o).2.func.Extends f)
    (hv : evalOp s.regs o = some (.i32 n)) :
    ∃ s', Ran f B s (B.buildOp F o).2 s' ∧ Holds (B.buildOp F o).2 s' (B.buildOp F o).1 n := by
  obtain ⟨s', hran, hx⟩ := Ran.buildOp F hat hok hext hv
  exact ⟨s', hran, _, rfl, B.buildOp_below F o, hx⟩

theorem Holds.nonnull {B : Builder} {s : State} {regs : RegMap} {rf : Regs} {rs : List (Fin 8)}
    (h : ∀ r ∈ rs, Holds B s (regs r) (rf r)) : ∀ r ∈ rs, ∃ o, regs r = some o := by
  intro r hr
  obtain ⟨o, ho, _⟩ := h r hr
  exact ⟨o, ho⟩

/-- Running the code of an expression: its value is what the source computes. -/
theorem Expr.build_runs (F : Folder) (f : Func) (regs : RegMap) (rf : Regs) (e : Expr)
    {B B' : Builder} {s : State} {x : ValueRef} (hb : e.build F regs B = some (x, B'))
    (hext : B'.func.Extends f) (hat : B.At s) (hok : B.Ok)
    (hreads : ∀ r ∈ e.reads, Holds B s (regs r) (rf r)) :
    ∃ s', Ran f B s B' s' ∧ Holds B' s' x (e.eval (wordsAt s.mem.words) rf) := by
  induction e generalizing B B' s x with
  | immediate n =>
    simp only [build, Option.some.injEq, Prod.mk.injEq] at hb
    obtain ⟨rfl, rfl⟩ := hb
    exact ⟨s, .refl hat, _, rfl, trivial, rfl⟩
  | reg r =>
    simp only [build, Option.some.injEq, Prod.mk.injEq] at hb
    obtain ⟨rfl, rfl⟩ := hb
    exact ⟨s, .refl hat, hreads r (by simp [reads])⟩
  | plus a b iha ihb | minus a b iha ihb =>
    obtain ⟨hreadsa, hreadsb⟩ := List.forall_mem_append.mp hreads
    obtain ⟨xa, Ba, ha, hsa⟩ := a.build_total F regs B (Holds.nonnull hreadsa)
    obtain ⟨xb, Bb, hbb, hsb⟩ := b.build_total F regs Ba (Holds.nonnull hreadsb)
    simp only [build, ha, hbb, Option.bind_eq_bind, Option.bind_some, build2_some,
      Option.some.injEq, Prod.mk.injEq] at hb
    obtain ⟨rfl, rfl⟩ := hb
    have hextb := (Bb.straight_buildOp F _).grows.trans hext
    obtain ⟨sa, hra, hxa⟩ := iha ha (hsb.grows.trans hextb) hat hok hreadsa
    obtain ⟨sb, hrb, hxb⟩ := ihb hbb hextb hra.stop (hsa.ok hok) fun r hr =>
      (hreadsb r hr).mono hra hsa.nextId_le
    obtain ⟨oa, rfl', hba, hva⟩ := hxa.mono hrb hsb.nextId_le
    obtain ⟨ob, rfl'', hbb', hvb⟩ := hxb
    cases rfl'
    cases rfl''
    rw [hra.mem] at hvb
    obtain ⟨s', hr, hx⟩ := Ran.build2 F hrb.stop ((hsa.trans hsb).ok hok) hext
      (by simp [evalOp, hva, hvb, evalBin]; rfl)
    exact ⟨s', (hra.trans hrb hsa.nextId_le).trans hr (hsa.trans hsb).nextId_le, hx⟩
  | paren a iha => exact iha hb hext hat hok hreads
  | neg a iha =>
    obtain ⟨xa, Ba, ha, hsa⟩ := a.build_total F regs B (Holds.nonnull hreads)
    simp only [build, ha, Option.bind_eq_bind, Option.bind_some, build2_some,
      Option.some.injEq, Prod.mk.injEq] at hb
    obtain ⟨rfl, rfl⟩ := hb
    obtain ⟨sa, hra, oa, hoa, hba, hva⟩ :=
      iha ha ((Ba.straight_buildOp F _).grows.trans hext) hat hok hreads
    cases hoa
    obtain ⟨s', hr, hx⟩ := Ran.build2 F (n := -(a.eval (wordsAt s.mem.words) rf)) hra.stop
      (hsa.ok hok) hext
      (by simp [evalOp, hva, i32, evalBin])
    exact ⟨s', hra.trans hr hsa.nextId_le, hx⟩
  | load a iha =>
    obtain ⟨xa, Ba, ha, hsa⟩ := a.build_total F regs B (Holds.nonnull hreads)
    simp only [build, ha, Option.bind_eq_bind, Option.bind_some, Option.some.injEq,
      Prod.mk.injEq, pure] at hb
    obtain ⟨rfl, rfl⟩ := hb
    have hst := Ba.straight_buildOp F (.intToPtr xa)
    have hextp := (Builder.insert_extends _ _).trans hext
    obtain ⟨sa, hra, oa, hoa, hba, hva⟩ := iha ha (hst.grows.trans hextp) hat hok hreads
    cases hoa
    obtain ⟨sp, hrp, hxp⟩ := Ran.buildOp F hra.stop (hsa.ok hok) hextp
      (by simp [evalOp, hva, evalIntToPtr]; rfl)
    have hrl := Ran.load hrp.stop (hst.ok (hsa.ok hok)) hext hxp
      (by rw [hrp.mem, hra.mem]; rfl)
    refine ⟨_, (hra.trans hrp hsa.nextId_le).trans hrl (hsa.trans hst).nextId_le, _, rfl,
      Nat.lt_succ_self _, ?_⟩
    simp [evalOperand, Builder.insert, eval, wordsAt]

/-! ## Programs -/

/-- The array describes the register file: every register assigned so far is
mapped to a value that is built and holds its contents. -/
structure Simulates (f : Func) (words : BitVec 64 → BitVec 32) (B : Builder) (regs : RegMap)
    (assigned : List (Fin 8)) (rf : Regs) (s : State) : Prop where
  reaches : ∃ n, Reaches (step f) (start words) n s
  stop : B.At s
  ok : B.Ok
  words : s.mem.words = words
  holds : ∀ r ∈ assigned, Holds B s (regs r) (rf r)

theorem Simulates.start (f : Func) (words : BitVec 64 → BitVec 32) (rf : Regs) :
    Simulates f words Builder.entry (fun _ => none) [] rf (Ir.start words) where
  reaches := ⟨0, .refl _⟩
  stop := ⟨rfl, rfl⟩
  ok := Nat.zero_lt_one
  words := rfl
  holds := by simp

/-- An assignment renames one register and leaves the values of the others where
they are, so the simulation survives re-assignments and swaps. -/
theorem Simulates.assign (F : Folder) {f : Func} {words : BitVec 64 → BitVec 32}
    {B B' : Builder} {regs : RegMap} {assigned : List (Fin 8)} {rf : Regs} {s : State}
    {r : Fin 8} {e : Expr} {x : ValueRef} (h : Simulates f words B regs assigned rf s)
    (hb : e.build F regs B = some (x, B')) (hext : B'.func.Extends f) (hst : B.Straight B')
    (hreads : ∀ q ∈ e.reads, q ∈ assigned) :
    ∃ s', Simulates f words B' (Function.update regs r x) (r :: assigned)
      (Function.update rf r (e.eval (wordsAt words) rf)) s' := by
  obtain ⟨n, hn⟩ := h.reaches
  obtain ⟨s', hran, hx⟩ := e.build_runs F f regs rf hb hext h.stop h.ok
    fun q hq => h.holds q (hreads q hq)
  obtain ⟨m, hm⟩ := hran.reaches
  rw [h.words] at hx
  refine ⟨s', ⟨n + m, hn.trans hm⟩, hran.stop, hst.ok h.ok, by rw [hran.mem, h.words], ?_⟩
  intro q hq
  by_cases hqr : q = r
  · subst hqr
    simpa using hx
  · rw [Function.update_of_ne hqr, Function.update_of_ne hqr]
    exact (h.holds q ((List.mem_cons.mp hq).resolve_left hqr)).mono hran hst.nextId_le

/-- Parsing never fails on a program that reads assigned registers only; what it
has built by then computes the register file of the source machine, and the
register assigned last is the one whose value is remembered. -/
theorem Program.parse_simulates {ρ : Type} (F : Folder) (remember : Fin 8 → ValueRef → ρ)
    (p : Program) (h : p.ReadsAssigned) :
    ∃ P, p.parse F remember = some P ∧ (∀ r ∈ p.assigned, ∃ o, P.regs r = some o) ∧
      P.result = remember p.lastReg (P.regs p.lastReg) ∧
      ∀ f words rf, P.builder.func.Extends f → ∃ s,
        Simulates f words P.builder P.regs p.assigned (p.exec (wordsAt words) rf) s := by
  induction p with
  | first r e =>
    obtain ⟨o, B, hb, hst⟩ := e.build_total F (fun _ => none) Builder.entry
      fun q hq => (h q hq).elim
    refine ⟨⟨Function.update (fun _ => none) r (some o), B, remember r (some o)⟩,
      by simp [parse, Parse.assign, hb], by simp [assigned], by simp [lastReg], ?_⟩
    intro f words rf hext
    exact (Simulates.start f words rf).assign F hb hext hst fun q hq => (h q hq).elim
  | next p r e ih =>
    obtain ⟨P, hP, hsome, _, hsim⟩ := ih h.1
    obtain ⟨o, B, hb, hst⟩ := e.build_total F P.regs P.builder fun q hq => hsome q (h.2 q hq)
    refine ⟨⟨Function.update P.regs r (some o), B, remember r (some o)⟩,
      by simp [parse, hP, Parse.assign, hb], ?_, by simp [lastReg], ?_⟩
    · intro q hq
      by_cases hqr : q = r
      · subst hqr
        exact ⟨o, by simp⟩
      · obtain ⟨o', ho'⟩ := hsome q ((List.mem_cons.mp hq).resolve_left hqr)
        exact ⟨o', by simpa [hqr] using ho'⟩
    · intro f words rf hext
      obtain ⟨s, hs⟩ := hsim f words rf (hst.grows.trans hext)
      exact hs.assign F hb hext hst h.2

/-- Both versions end `main` with a return of the value the last register has. -/
theorem Program.ret_lastReg (F : Folder) {ρ : Type} {remember : Fin 8 → ValueRef → ρ}
    {p : Program} (h : p.ReadsAssigned) {P : Parse ρ} (hP : p.parse F remember = some P)
    (words : BitVec 64 → BitVec 32) (rf : Regs) (v : Val) :
    (P.builder.insert (.ret (P.regs p.lastReg))).2.func.Returns words v ↔
      v = .i32 (p.exec (wordsAt words) rf p.lastReg) := by
  obtain ⟨P', hP', _, _, hsim⟩ := p.parse_simulates F remember h
  cases hP.symm.trans hP'
  obtain ⟨s, hs⟩ := hsim _ words rf (P.builder.insert_extends _)
  obtain ⟨n, hn⟩ := hs.reaches
  obtain ⟨o, ho, _, hv⟩ := hs.holds p.lastReg p.lastReg_mem_assigned
  have hret : Func.Returns (P.builder.insert (.ret (P.regs p.lastReg))).2.func words
      (.i32 (p.exec (wordsAt words) rf p.lastReg)) := by
    refine ⟨n, s, hn, ?_⟩
    rw [hs.stop.fetch hs.ok (.refl _)]
    simp [Ir.exec, ho, hv]
  constructor
  · intro h'
    exact Option.some.inj (h'.unique hret)
  · rintro rfl
    exact hret

/-- The two ways to remember the result agree: both versions build the same function. -/
theorem Program.compileC_eq_compileCpp (F : Folder) (p : Program) (h : p.ReadsAssigned) :
    p.compileC F = p.compileCpp F := by
  have hparse : ∀ q : Program, q.parse F (fun r _ => r) =
      (q.parse F fun _ v => v).map fun P => ⟨P.regs, P.builder, q.lastReg⟩ := by
    intro q
    induction q with
    | first r e =>
      cases hb : e.build F (fun _ => none) Builder.entry <;>
        simp [parse, Parse.assign, hb, lastReg]
    | next q r e ih =>
      cases hq : q.parse F fun _ v => v with
      | none => simp [parse, ih, hq]
      | some P =>
        cases hb : e.build F P.regs P.builder <;>
          simp [parse, ih, hq, Parse.assign, hb, lastReg]
  obtain ⟨P, hP, _, hres, _⟩ := p.parse_simulates F (fun _ v => v) h
  simp [compileC, compileCpp, hparse, hP, hres]

/-- On-the-fly SSA construction is correct: each version builds a `main` that
returns what the last assigned register holds when the assignments are executed
one after another, whatever the memory and the initial registers contain. -/
theorem ssa_construction_correct (F : Folder) (p : Program) (h : p.ReadsAssigned)
    (words : BitVec 64 → BitVec 32) (rf : Regs) :
    ∃ fc fcpp, p.compileC F = some fc ∧ p.compileCpp F = some fcpp ∧ ∀ v,
      (fc.Returns words v ↔ v = .i32 (p.exec (wordsAt words) rf p.lastReg)) ∧
      (fcpp.Returns words v ↔ v = .i32 (p.exec (wordsAt words) rf p.lastReg)) := by
  obtain ⟨P, hP, _, hres, _⟩ := p.parse_simulates F (fun _ v => v) h
  have hc : p.compileC F = some (P.builder.insert (.ret (P.regs p.lastReg))).2.func := by
    simp [Program.compileC, hP, hres]
  refine ⟨_, _, hc, (p.compileC_eq_compileCpp F h).symm.trans hc, ?_⟩
  intro v
  exact ⟨p.ret_lastReg F h hP words rf v, p.ret_lastReg F h hP words rf v⟩

/-- `r0 = 1; r1 = [r0 + 2]; r0 = r1 - r0; ;` -/
def swapProgram : Program :=
  .next (.next (.first 0 (.immediate 1)) 1 (.load (.plus (.reg 0) (.immediate 2)))) 0
    (.minus (.reg 1) (.reg 0))

theorem ssa_construction_correct_swap :
    swapProgram.ReadsAssigned ∧
      ∃ fc fcpp, swapProgram.compileC .constants = some fc ∧
        swapProgram.compileCpp .constants = some fcpp ∧ ∀ v,
        (fc.Returns (fun a => a.setWidth 32) v ↔ v = .i32 2) ∧
        (fcpp.Returns (fun a => a.setWidth 32) v ↔ v = .i32 2) :=
  ⟨by decide, ssa_construction_correct .constants swapProgram (by decide) _ fun _ => 0⟩

end CourseCompilers.Registers
