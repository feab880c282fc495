import CourseCompilers.Ir.Placement
import CourseCompilers.Lib.Simulation
import CourseCompilers.Structured.Build

/-! The emitted function simulates the source program. A variable lives in the stack
slot its alloca made; the machine standing at an insertion point holds in these slots
what the source environment says. Where the program has no value the machine gets
stuck, unless the folder made a constant of an undefined quotient; `U` is the
assumption, for whole programs, that it did not. -/

namespace CourseCompilers.Structured
open Lib Ir

variable {F : Folder} {V : Version} {f : Func} {U : Prop}

/-- The variables of `A` lie in distinct slots, with their values in `σ`. -/
def Located (V : Version) (m : V.names.Map) (A : List String) (σ : Env) (s : State) : Prop :=
  ∃ loc : String → Nat, (∀ x ∈ A, ∀ y ∈ A, loc x = loc y → x = y) ∧
    ∀ x ∈ A, loc x < s.mem.brk ∧ ∃ id n, V.names.find m x = some (.inst id) ∧
      s.regs id = some (.slot (loc x)) ∧ σ x = some n ∧ s.mem.slots (loc x) = some (.i64 n)

/-- The machine stands where the parser builds, with the variables of `A` in place. -/
def Parse.Holds (P : Parse V) (A : List String) (σ : Env) (s : State) : Prop :=
  P.builder.At s ∧ Located V P.map A σ s

theorem Located.congr {m m' : V.names.Map} {A A' : List String} {σ : Env} {s s' : State}
    (h : Located V m A σ s) (hA : ∀ x, x ∈ A' → x ∈ A)
    (hm : ∀ x ∈ A', V.names.find m' x = V.names.find m x) (hmem : s'.mem = s.mem)
    (hregs : ∀ x ∈ A', ∀ id, V.names.find m x = some (.inst id) → s'.regs id = s.regs id) :
    Located V m' A' σ s' := by
  obtain ⟨loc, hinj, hloc⟩ := h
  refine ⟨loc, fun x hx y hy => hinj x (hA x hx) y (hA y hy), ?_⟩
  intro x hx
  obtain ⟨hlt, id, n, hf, hr, hσ, hs⟩ := hloc x (hA x hx)
  rw [hmem]
  exact ⟨hlt, id, n, (hm x hx).trans hf, (hregs x hx id hf).trans hr, hσ, hs⟩

/-- Running code that keeps memory and the older registers. -/
theorem Located.ran {P : Parse V} {A : List String} (hk : P.Knows A) {σ : Env} {B B' : Builder}
    {s s' : State} (h : Located V P.map A σ s) (hran : Ran f B s B' s')
    (hid : P.builder.nextId ≤ B.nextId) : Located V P.map A σ s' := by
  refine h.congr (fun _ hx => hx) (fun _ _ => rfl) hran.mem ?_
  intro x hx id hf
  obtain ⟨id', hid', hf'⟩ := hk.has x hx
  rw [hf, Option.some.injEq, Operand.inst.injEq] at hf'
  exact hran.regs id (by omega)

theorem Located.value {m : V.names.Map} {A : List String} {σ : Env} {s : State}
    (h : Located V m A σ s) {x : String} (hx : x ∈ A) :
    ∃ id k n, V.names.find m x = some (.inst id) ∧ s.regs id = some (.slot k) ∧
      σ x = some n ∧ s.mem.slots k = some (.i64 n) := by
  obtain ⟨loc, _, hloc⟩ := h
  obtain ⟨_, id, n, hf, hr, hσ, hs⟩ := hloc x hx
  exact ⟨id, loc x, n, hf, hr, hσ, hs⟩

/-! ## Expressions -/

/-- The code from `B` to `B'` computes `r` into `o`; where `r` is none it gets stuck. -/
def Computes (U : Prop) (f : Func) (B : Builder) (s : State) (o : Operand) (B' : Builder)
    (r : Option (BitVec 64)) : Prop :=
  match r with
  | some n => ∃ s', Ran f B s B' s' ∧ evalOperand s'.regs o = some (.i64 n)
  | none => U → GetsStuck (step f) s

/-- What follows an operand runs only if the operand has a value. -/
theorem Computes.bind {B Ba B' : Builder} {s : State} {x o : Operand} {r : Option (BitVec 64)}
    {g : BitVec 64 → Option (BitVec 64)} (hx : Computes U f B s x Ba r)
    (hrest : ∀ s' n, r = some n → Ran f B s Ba s' → evalOperand s'.regs x = some (.i64 n) →
      Computes U f B s o B' (g n)) : Computes U f B s o B' (r.bind g) := by
  cases r with
  | none => exact hx
  | some n =>
    obtain ⟨s', hran, hn⟩ := hx
    exact hrest s' n rfl hran hn

/-- One more operation at the end of a run; where it is undefined it is not folded. -/
theorem Computes.buildOp {B B' : Builder} {s s' : State} {o : Op} {r : Option (BitVec 64)}
    (hran : Ran f B s B' s') (hok : B'.Ok) (hid : B.nextId ≤ B'.nextId)
    (hext : (B'.buildOp F o).2.func.Extends f) (hop : evalOp s'.regs o = r.map Val.i64)
    (hkeep : U → r = none → F.KeepsUndefined ∨ F.fold o = none) :
    Computes U f B s (B'.buildOp F o).1 (B'.buildOp F o).2 r := by
  cases r with
  | some n =>
    obtain ⟨s'', hran', hv⟩ := Ran.buildOp F hran.stop hok hext hop
    exact ⟨s'', hran.trans hran' hid, hv⟩
  | none =>
    intro hU
    have hfold : F.fold o = none := (hkeep hU rfl).elim (fun h => h.fold_eq_none hop) id
    obtain ⟨n, hn⟩ := hran.reaches
    exact ⟨n, s', hn, hran.stop.buildOp_stuck hok hext hfold hop⟩

/-- Two operands computed in turn and an operation on them. -/
theorem Computes.binary {B Ba Bb : Builder} {s : State} {x y : Operand} {o : Op}
    {ra rb : Option (BitVec 64)} {g : BitVec 64 → BitVec 64 → Option (BitVec 64)} (hok : Bb.Ok)
    (hida : B.nextId ≤ Ba.nextId) (hidb : Ba.nextId ≤ Bb.nextId) (hx : x.Below Ba.nextId)
    (hext : (Bb.buildOp F o).2.func.Extends f) (ha : Computes U f B s x Ba ra)
    (hb : ∀ s', Ran f B s Ba s' → Computes U f Ba s' y Bb rb)
    (hop : ∀ regs n m, evalOperand regs x = some (.i64 n) → evalOperand regs y = some (.i64 m) →
      evalOp regs o = (g n m).map Val.i64)
    (hkeep : U → ∀ {n m}, ra = some n → rb = some m → g n m = none →
      F.KeepsUndefined ∨ F.fold o = none) :
    Computes U f B s (Bb.buildOp F o).1 (Bb.buildOp F o).2
      (ra.bind fun n => rb.bind fun m => g n m) := by
  refine ha.bind fun s' n hra hran hn => ?_
  have hb := hb s' hran
  cases rb with
  | none =>
    intro hU
    obtain ⟨k, hk⟩ := hran.reaches
    exact GetsStuck.of_reaches hk (hb hU)
  | some m =>
    obtain ⟨s'', hran', hm⟩ := hb
    have hn' : evalOperand s''.regs x = some (.i64 n) := by
      rw [evalOperand_congr hx hran'.regs, hn]
    exact .buildOp (hran.trans hran' hida) hok (Nat.le_trans hida hidb) hext
      (hop _ n m hn' hm) fun hU => hkeep hU hra rfl

/-- A 31-bit literal is the number its digits spell. -/
theorem atoi_signExtend {n : Nat} (h : n < 2 ^ 31) :
    (atoi n).signExtend 64 = BitVec.ofNat 64 n := by
  have hmin : min n (2 ^ 63 - 1) = n := by omega
  have hmsb : (BitVec.ofNat 32 n).msb = false := by
    rw [BitVec.msb_eq_false_iff_two_mul_lt, BitVec.toNat_ofNat]
    omega
  rw [atoi, hmin, BitVec.signExtend_eq_setWidth_of_msb_false hmsb]
  apply BitVec.eq_of_toNat_eq
  rw [BitVec.toNat_setWidth, BitVec.toNat_ofNat, BitVec.toNat_ofNat]
  omega

theorem between_below {o : Operand} {n m : Nat} (h : o.Between n m) : o.Below m := by
  cases o with
  | const c => trivial
  | inst id => exact h.2

/-- An expression built into a constant reads no variable. -/
theorem Expr.reads_of_isConst (hm : V.mulDiv = true) {m : V.names.Map} {e : Expr} {B B' : Builder}
    {o : Operand} (hb : e.build F V m B = some (o, B')) (ho : o.IsConst) : e.reads = [] := by
  have hop : ∀ {B B' : Builder} {op : Op} {o : Operand}, B.buildOp F op = (o, B') → o.IsConst →
      ∀ x ∈ op.operands, x.IsConst := by
    intro B B' op o he ho
    rcases B.buildOp_cases F op with ⟨c, hc, _⟩ | hins
    · exact F.constant hc
    · rw [hins] at he
      cases he
      exact ho.elim
  induction e generalizing B B' o with
  | immediate n => rfl
  | id x =>
    simp only [build, Option.bind_eq_bind, Option.bind_eq_some_iff] at hb
    obtain ⟨alloca, _, hb⟩ := hb
    cases hb
    exact ho.elim
  | plus a b iha ihb | minus a b iha ihb | multiply a b iha ihb | divide a b iha ihb =>
    simp only [build, hm, if_true, Option.bind_eq_bind, Option.bind_eq_some_iff] at hb
    obtain ⟨⟨x, Ba⟩, ha, ⟨y, Bb⟩, hb, he⟩ := hb
    have hconst := hop (Option.some.inj he) ho
    rw [reads, iha ha (hconst x List.mem_cons_self), ihb hb (hconst y (by simp [Op.operands]))]
    rfl
  | paren a iha => exact iha hb ho
  | neg a iha =>
    simp only [build, Option.bind_eq_bind, Option.bind_eq_some_iff] at hb
    obtain ⟨⟨x, Ba⟩, ha, he⟩ := hb
    exact iha ha (hop (Option.some.inj he) ho x (by simp [Op.operands]))
  | not a iha =>
    simp only [build, Option.bind_eq_bind, Option.bind_eq_some_iff] at hb
    obtain ⟨⟨x, Ba⟩, ha, he⟩ := hb
    have hcmp := hop (Option.some.inj he) ho (Ba.buildOp F (.icmpEq x zero)).1 List.mem_cons_self
    exact iha ha (hop rfl hcmp x List.mem_cons_self)

/-- A quotient that is undefined at run time is not folded: constant ones have a value. -/
theorem Expr.fold_divide (hm : V.mulDiv = true) {m : V.names.Map} {a b : Expr}
    (hq : (Expr.divide a b).QuotientsDefined) {B Ba Bb : Builder} {x y : Operand}
    (ha : a.build F V m B = some (x, Ba)) (hb : b.build F V m Ba = some (y, Bb)) {σ : Env}
    (hv : (Expr.divide a b).eval σ = none) : F.fold (.sdiv x y) = none := by
  cases hc : F.fold (.sdiv x y) with
  | none => rfl
  | some c =>
    have hconst := F.constant hc
    have hra := reads_of_isConst hm ha (hconst x List.mem_cons_self)
    have hrb := reads_of_isConst hm hb (hconst y (by simp [Op.operands]))
    have hsome := hq.2.2 ⟨hra, hrb⟩
    have hreads : (Expr.divide a b).reads = [] := by rw [reads, hra, hrb, List.append_nil]
    have heval : (Expr.divide a b).eval (fun _ => none) = (Expr.divide a b).eval σ :=
      eval_congr (by simp [hreads])
    rw [heval, hv] at hsome
    cases hsome

/-- Wherever the code of `e` is placed, it computes the value of `e`. -/
def Expr.Computed (U : Prop) (F : Folder) (f : Func) (P : Parse V) (A : List String)
    (e : Expr) : Prop :=
  ∀ {B B' : Builder} {o : Operand} {σ : Env} {s : State}, P.builder.nextId ≤ B.nextId → B.Ok →
    B.At s → Located V P.map A σ s → e.build F V P.map B = some (o, B') → B'.func.Extends f →
    Computes U f B s o B' (e.eval σ)

section
variable {P : Parse V} {A : List String} (hk : P.Knows A)
include hk

private theorem Expr.Computed.binary {a b e : Expr} (mk : Operand → Operand → Op)
    (g : BitVec 64 → BitVec 64 → Option (BitVec 64)) (hra : ∀ x ∈ a.reads, x ∈ A)
    (hrb : ∀ x ∈ b.reads, x ∈ A) (ha : a.Computed U F f P A) (hb : b.Computed U F f P A)
    (heval : ∀ σ, e.eval σ = (a.eval σ).bind fun n => (b.eval σ).bind fun m => g n m)
    (hbuild : ∀ {B x Ba y Bb}, a.build F V P.map B = some (x, Ba) →
      b.build F V P.map Ba = some (y, Bb) → e.build F V P.map B = some (Bb.buildOp F (mk x y)))
    (hop : ∀ regs x y n m, evalOperand regs x = some (.i64 n) →
      evalOperand regs y = some (.i64 m) → evalOp regs (mk x y) = (g n m).map Val.i64)
    (hkeep : ∀ {n m}, g n m = none → U → ∀ {B x Ba y Bb σ}, a.build F V P.map B = some (x, Ba) →
      b.build F V P.map Ba = some (y, Bb) → e.eval σ = none →
      F.KeepsUndefined ∨ F.fold (mk x y) = none) :
    e.Computed U F f P A := by
  intro B B' o σ s hid hok hat hl hbe hext
  obtain ⟨x, Ba, hea, hla, hx⟩ := Expr.built_of_knows hk F hra hid
  have hida := hla.straight.nextId_le
  obtain ⟨y, Bb, heb, hlb, hy⟩ := Expr.built_of_knows hk F hrb (Nat.le_trans hid hida)
  rw [hbuild hea heb, Option.some.injEq] at hbe
  obtain rfl : (Bb.buildOp F (mk x y)).1 = o := congrArg Prod.fst hbe
  obtain rfl : (Bb.buildOp F (mk x y)).2 = B' := congrArg Prod.snd hbe
  have hoka := hla.straight.ok hok
  have hextb := (Bb.straight_buildOp F (mk x y)).grows.trans hext
  have hexta := hlb.straight.grows.trans hextb
  rw [heval]
  refine .binary (hlb.straight.ok hoka) hida hlb.straight.nextId_le (between_below hx) hext
    (ha hid hok hat hl hea hexta) ?_ (fun regs n m => hop regs x y n m) ?_
  · intro s' hran
    exact hb (Nat.le_trans hid hida) hoka hran.stop (hl.ran hk hran hid) heb hextb
  · intro hU n m hra hrb hg
    have hnone : e.eval σ = none := by
      rw [heval, hra, Option.bind_some, hrb, Option.bind_some, hg]
    exact hkeep hg hU hea heb hnone

theorem Expr.computed {e : Expr} (hr : ∀ x ∈ e.reads, x ∈ A)
    (ha : e.All (· < 2 ^ 31) (V.mulDiv = true))
    (hq : U → F.KeepsUndefined ∨ e.QuotientsDefined) : e.Computed U F f P A := by
  induction e with
  | immediate n =>
    intro B B' o σ s _ _ hat _ hb _
    cases hb
    exact ⟨s, Ran.refl hat, by rw [atoi_signExtend ha]; rfl⟩
  | id x =>
    intro B B' o σ s _ hok hat hl hb hext
    obtain ⟨id, k, n, hf, hreg, hσ, hs⟩ := hl.value (hr x (by simp [reads]))
    simp only [build, hf] at hb
    cases hb
    have hran := Ran.load (p := .inst id) hat hok hext hreg hs
    simp only [Computes, eval, hσ]
    exact ⟨_, hran, by simp [evalOperand]⟩
  | plus a b iha ihb =>
    obtain ⟨hra, hrb⟩ := List.forall_mem_append.mp hr
    refine Expr.Computed.binary hk .add (fun n m => some (n + m)) hra hrb
      (iha hra ha.1 fun hU => (hq hU).imp_right And.left)
      (ihb hrb ha.2 fun hU => (hq hU).imp_right And.right) ?_ ?_ ?_ (by simp)
    · intro σ
      simp [eval, Option.map_eq_bind]
    · intro B x Ba y Bb hea heb
      simp [build, hea, heb]
    · intro regs x y n m hx hy
      simp [evalOp, hx, hy, evalBin]
  | minus a b iha ihb =>
    obtain ⟨hra, hrb⟩ := List.forall_mem_append.mp hr
    refine Expr.Computed.binary hk .sub (fun n m => some (n - m)) hra hrb
      (iha hra ha.1 fun hU => (hq hU).imp_right And.left)
      (ihb hrb ha.2 fun hU => (hq hU).imp_right And.right) ?_ ?_ ?_ (by simp)
    · intro σ
      simp [eval, Option.map_eq_bind]
    · intro B x Ba y Bb hea heb
      simp [build, hea, heb]
    · intro regs x y n m hx hy
      simp [evalOp, hx, hy, evalBin]
  | multiply a b iha ihb =>
    obtain ⟨hra, hrb⟩ := List.forall_mem_append.mp hr
    obtain ⟨hm, ha, hb⟩ := ha
    refine Expr.Computed.binary hk .mul (fun n m => some (n * m)) hra hrb
      (iha hra ha fun hU => (hq hU).imp_right And.left)
      (ihb hrb hb fun hU => (hq hU).imp_right And.right) ?_ ?_ ?_ (by simp)
    · intro σ
      simp [eval, Option.map_eq_bind]
    · intro B x Ba y Bb hea heb
      simp [build, hea, heb, hm]
    · intro regs x y n m hx hy
      simp [evalOp, hx, hy, evalBin]
  | divide a b iha ihb =>
    obtain ⟨hra, hrb⟩ := List.forall_mem_append.mp hr
    obtain ⟨hm, ha, hb⟩ := ha
    refine Expr.Computed.binary hk .sdiv sdivChecked hra hrb
      (iha hra ha fun hU => (hq hU).imp_right And.left)
      (ihb hrb hb fun hU => (hq hU).imp_right fun h => h.2.1) (fun _ => rfl) ?_ ?_ ?_
    · intro B x Ba y Bb hea heb
      simp [build, hea, heb, hm]
    · intro regs x y n m hx hy
      simp [evalOp, hx, hy, evalBin]
    · intro _ _ _ hU B x Ba y Bb σ hea heb hev
      exact (hq hU).imp_right fun h => fold_divide hm h hea heb hev
  | paren a iha => exact iha hr ha hq
  | neg a iha =>
    intro B B' o σ s hid hok hat hl hb hext
    obtain ⟨x, Ba, hea, hla, hx⟩ := Expr.built_of_knows hk F (e := a) hr hid
    have he : (Expr.neg a).build F V P.map B = some (Ba.buildOp F (.sub zero x)) := by
      simp [build, hea]
    rw [he, Option.some.injEq] at hb
    obtain rfl : (Ba.buildOp F (.sub zero x)).1 = o := congrArg Prod.fst hb
    obtain rfl : (Ba.buildOp F (.sub zero x)).2 = B' := congrArg Prod.snd hb
    have hexta := (Ba.straight_buildOp F (.sub zero x)).grows.trans hext
    rw [eval, Option.map_eq_bind]
    refine (iha hr ha hq hid hok hat hl hea hexta).bind fun s' n _ hran hv => ?_
    refine Computes.buildOp hran (hla.straight.ok hok) hla.straight.nextId_le hext ?_ (by simp)
    simp [evalOp, hv, zero, i64, evalBin]
  | not a iha =>
    intro B B' o σ s hid hok hat hl hb hext
    obtain ⟨x, Ba, hea, hla, hx⟩ := Expr.built_of_knows hk F (e := a) hr hid
    have he : (Expr.not a).build F V P.map B =
        some ((Ba.buildOp F (.icmpEq x zero)).2.buildOp F
          (.zext (Ba.buildOp F (.icmpEq x zero)).1 .i64)) := by
      simp [build, hea]
    rw [he, Option.some.injEq] at hb
    obtain rfl := congrArg Prod.fst hb
    obtain rfl := congrArg Prod.snd hb
    have hextc := (Builder.straight_buildOp F (Ba.buildOp F (.icmpEq x zero)).2
      (.zext (Ba.buildOp F (.icmpEq x zero)).1 .i64)).grows.trans hext
    have hexta := (Ba.straight_buildOp F (.icmpEq x zero)).grows.trans hextc
    have hoka := hla.straight.ok hok
    rw [eval, Option.map_eq_bind]
    refine (iha hr ha hq hid hok hat hl hea hexta).bind fun s' n _ hran hv => ?_
    have hcmp : evalOp s'.regs (.icmpEq x zero) = some (.i1 (n == 0)) := by
      simp [evalOp, hv, zero, i64, evalBin]
    obtain ⟨s'', hran', hv'⟩ := Ran.buildOp F hran.stop hoka hextc hcmp
    have hid' := (Ba.straight_buildOp F (.icmpEq x zero)).nextId_le
    refine Computes.buildOp (hran.trans hran' hla.straight.nextId_le)
      ((Ba.straight_buildOp F _).ok hoka) (Nat.le_trans hla.straight.nextId_le hid') hext ?_
      (by simp)
    by_cases hn : n = 0 <;> simp [evalOp, hv', evalZext, hn]

end

/-! ## Branches -/

/-- Running `branchOnNonzero`: control is at the start of one of the new blocks. -/
theorem branch_runs {v : Operand} {B : Builder} {s : State} {n : BitVec 64} (hok : B.Ok)
    (hat : B.At s) (hv : evalOperand s.regs v = some (.i64 n))
    (hext : (branchOnNonzero F v B).2.func.Extends f) :
    ∃ (k : Nat) (t : State), Reaches (step f) s (k + 1)
        (t.goto (if n != 0 then B.func.blocks.length else B.func.blocks.length + 1)) ∧
      t.mem = s.mem ∧ ∀ id < B.nextId, t.regs id = s.regs id := by
  rw [branchOnNonzero_eq] at hext
  have hok' : (twoBlocks B).Ok := (((Builder.Grows.refl hok).appendBlock).appendBlock).ok
  have hcmp : evalOp s.regs (.icmpNe v zero) = some (.i1 (n != 0)) := by
    simp [evalOp, hv, zero, i64, evalBin]
  have hstraight := (twoBlocks B).straight_buildOp F (.icmpNe v zero)
  obtain ⟨t, hran, hc⟩ := Ran.buildOp F hat.appendBlock.appendBlock hok'
    ((Builder.insert_extends _ _).trans hext) hcmp
  obtain ⟨k, hk⟩ := hran.reaches
  refine ⟨k, t, hk.snoc ?_, hran.mem, hran.regs⟩
  rw [hran.stop.fetch (hstraight.ok hok') hext, exec_condBr _ _ hc]

/-- The condition of `if` or `while` and its branch decide the test. Where it
fails, control is at the start of the join block. -/
theorem Expr.decides {P : Parse V} {A : List String} (hk : P.Knows A) {c : Expr}
    (hr : ∀ x ∈ c.reads, x ∈ A) (ha : c.All (· < 2 ^ 31) (V.mulDiv = true))
    (hq : U → F.KeepsUndefined ∨ c.QuotientsDefined) {B Bc : Builder} {v : Operand}
    (hid : P.builder.nextId ≤ B.nextId) (hok : B.Ok)
    (hb : c.build F V P.map B = some (v, Bc)) (hext : (branchOnNonzero F v Bc).2.func.Extends f) :
    Decides U (step f) (fun σ s => B.At s ∧ Located V P.map A σ s) c.test
      (Parse.Holds (V := V) ⟨(branchOnNonzero F v Bc).2, P.map⟩ A)
      fun σ s => (∃ u : State, s = u.goto (branchOnNonzero F v Bc).1) ∧ Located V P.map A σ s := by
  rintro σ s ⟨hat, hl⟩
  obtain ⟨v', Bc', hb', hline, _⟩ := Expr.built_of_knows hk F hr hid
  rw [hb, Option.some.injEq, Prod.mk.injEq] at hb'
  obtain ⟨rfl, rfl⟩ := hb'
  have hokc := hline.straight.ok hok
  have hbr := branched F v Bc hokc
  have hrun := Expr.computed hk hr ha hq hid hok hat hl hb (hbr.grows.grows.trans hext)
  unfold Expr.test
  cases hev : c.eval σ with
  | none =>
    rw [hev] at hrun
    exact hrun
  | some n =>
    rw [hev] at hrun
    obtain ⟨s', hran, hv⟩ := hrun
    have hl' := hl.ran hk hran hid
    obtain ⟨m, hm⟩ := hran.reaches
    obtain ⟨k, t, hreach, hmem, hregs⟩ := branch_runs hokc hran.stop hv hext
    have hlt : ∀ b, Located V P.map A σ (t.goto b) := by
      intro b
      refine hl'.congr (fun _ hx => hx) (fun _ _ => rfl) hmem ?_
      intro x hx id hf
      obtain ⟨id', hid', hf'⟩ := hk.has x hx
      rw [hf, Option.some.injEq, Operand.inst.injEq] at hf'
      have := hline.straight.nextId_le
      exact hregs id (by omega)
    have hreach' := hm.trans hreach
    simp only [Option.map_some]
    cases hn : n != 0 with
    | true =>
      rw [hn, if_pos rfl, ← hbr.cur] at hreach'
      have hempty := hbr.empty Bc.func.blocks.length (Nat.le_refl _)
      rw [← hbr.cur] at hempty
      exact ⟨m + k, _, hreach', Builder.At.goto hempty t, hlt _⟩
    | false =>
      rw [hn, if_neg Bool.false_ne_true, ← hbr.join] at hreach'
      exact ⟨m + k, _, hreach', ⟨t, rfl⟩, hlt _⟩

/-- The closing branch of a body. -/
theorem Parse.Holds.close {P : Parse V} {A : List String} (hok : P.builder.Ok) {dest : Nat}
    (hext : (P.builder.insert (.br dest)).2.func.Extends f) {σ : Env} {s : State}
    (h : P.Holds A σ s) : Reaches (step f) s 1 (s.goto dest) ∧
      Located V P.map A σ (s.goto dest) :=
  ⟨.one (h.1.fetch hok hext), h.2⟩

/-- The join block is still empty when the body is closed. -/
theorem Parse.Grown.close_at {P P' : Parse V} {A C : List String} {B : Builder} {v : Operand}
    {dest : Nat} (hok : B.Ok)
    (h : Parse.Grown (V := V) ⟨(branchOnNonzero F v B).2, P.map⟩ P' A C) (s : State) :
    (P'.close dest (branchOnNonzero F v B).1).builder.At (s.goto (branchOnNonzero F v B).1) := by
  have hbr := branched F v B hok
  refine Builder.At.goto (B := (P'.close dest (branchOnNonzero F v B).1).builder) ?_ s
  have hcur := h.grows.cur
  simp only [hbr.cur, hbr.length] at hcur
  show (P'.builder.insert (.br dest)).2.func.block (branchOnNonzero F v B).1 = []
  rw [hbr.join, (P'.builder.straight_insert _).frame _ (by omega),
    h.grows.frame _ (by simp only [hbr.length]; omega) (by simp only [hbr.cur]; omega)]
  exact hbr.empty _ (by omega)

/-! ## Statements -/

/-- Storing into a variable that has a slot. -/
theorem Located.store {m : V.names.Map} {A : List String} {σ : Env} {s : State}
    (h : Located V m A σ s) {x : String} (hx : x ∈ A) (n : BitVec 64) :
    ∃ id k mem, V.names.find m x = some (.inst id) ∧ s.regs id = some (.slot k) ∧
      s.mem.store (.slot k) (.i64 n) = some mem ∧
      Located V m A (Function.update σ x (some n)) (s.writeMem mem) := by
  obtain ⟨loc, hinj, hloc⟩ := h
  obtain ⟨hlt, id, _, hf, hr, _, _⟩ := hloc x hx
  refine ⟨id, loc x, _, hf, hr, if_pos hlt, loc, hinj, ?_⟩
  intro y hy
  obtain ⟨hlty, idy, ny, hfy, hry, hσy, hsy⟩ := hloc y hy
  by_cases hyx : y = x
  · subst hyx
    exact ⟨hlty, idy, n, hfy, hry, by simp, by simp [State.writeMem]⟩
  · have hne : loc y ≠ loc x := fun he => hyx (hinj y hy x hx he)
    exact ⟨hlty, idy, ny, hfy, hry, by simp [hyx, hσy], by simp [State.writeMem, hne, hsy]⟩

/-- A new slot for a variable that has none, and the store into it. -/
theorem Located.alloca {m : V.names.Map} {A : List String} {σ : Env} {s : State} {id : Nat}
    (h : Located V m A σ s) (hv : V.names.Valid m) {x : String}
    (hfresh : V.names.find m x = none) (hx : x ∉ A)
    (hid : ∀ y ∈ A, V.names.find m y ≠ some (.inst id)) (n : BitVec 64) :
    ∃ mem, (s.alloca id).mem.store (.slot s.mem.brk) (.i64 n) = some mem ∧
      Located V (V.names.insert x (.inst id) m) (A ++ [x]) (Function.update σ x (some n))
        ((s.alloca id).writeMem mem) := by
  obtain ⟨loc, hinj, hloc⟩ := h
  have hfind := V.names.find_insert (a := .inst id) hv hfresh
  refine ⟨_, if_pos (Nat.lt_succ_self _), Function.update loc x s.mem.brk, ?_, ?_⟩
  · intro y hy z hz he
    have hold : ∀ w ∈ A ++ [x], w ≠ x → w ∈ A := fun w hw hne => by simpa [hne] using hw
    by_cases hyx : y = x <;> by_cases hzx : z = x
    · rw [hyx, hzx]
    · have := (hloc z (hold z hz hzx)).1
      simp [hyx, hzx] at he
      omega
    · have := (hloc y (hold y hy hyx)).1
      simp [hyx, hzx] at he
      omega
    · exact hinj y (hold y hy hyx) z (hold z hz hzx) (by simpa [hyx, hzx] using he)
  · intro y hy
    by_cases hyx : y = x
    · subst hyx
      refine ⟨by simp [State.alloca, State.writeMem], id, n, by rw [hfind, if_pos rfl], ?_,
        by simp, by simp [State.writeMem]⟩
      simp [State.alloca, State.writeMem, State.write]
    · have hyA : y ∈ A := by simpa [hyx] using hy
      obtain ⟨hlt, idy, ny, hfy, hry, hσy, hsy⟩ := hloc y hyA
      have hne : idy ≠ id := fun he => hid y hyA (he ▸ hfy)
      refine ⟨?_, idy, ny, by rw [hfind, if_neg hyx, hfy], ?_, by simp [hyx, hσy], ?_⟩
      · simp [State.alloca, State.writeMem, hyx]
        omega
      · simpa [State.alloca, State.writeMem, State.write, hne, hyx] using hry
      · have : loc y ≠ s.mem.brk := by omega
        simpa [State.alloca, State.writeMem, State.write, hyx, this] using hsy

theorem Stmt.assign_realizes {P P' : Parse V} {A : List String} {x : String} {e : Expr}
    (hk : P.Knows A) (hr : ∀ y ∈ e.reads, y ∈ A) (ha : e.All (· < 2 ^ 31) (V.mulDiv = true))
    (hq : U → F.KeepsUndefined ∨ e.QuotientsDefined)
    (hb : (Stmt.assign x e).build F P = some P') (hext : P'.builder.func.Extends f) :
    Realizes U (step f) (P.Holds A) ((Stmt.assign x e).Exec V.backEdge) (P'.Holds (A ++ [x])) := by
  obtain ⟨v, B, he, hline, hv⟩ := Expr.built_of_knows hk F hr (Nat.le_refl _)
  have hok := hline.straight.ok hk.ok
  have hle := hline.straight.nextId_le
  -- the expression's code runs in full, or the machine is stuck in it
  have hrun : ∀ {σ s}, P.Holds A σ s → B.func.Extends f → Computes U f P.builder s v B (e.eval σ) :=
    fun h hB => Expr.computed hk hr ha hq (Nat.le_refl _) hk.ok h.1 h.2 he hB
  have hback : U → ∀ {σ s n a}, P.Holds A σ s → B.func.Extends f → Halts (step f) s n a →
      ∃ σ', (Stmt.assign x e).Exec V.backEdge σ σ' := by
    intro hU σ s n a h hB hh
    have hc := hrun h hB
    cases hev : e.eval σ with
    | none =>
      rw [hev] at hc
      exact absurd hh ((hc hU).not_halts n a)
    | some w => exact ⟨_, w, hev, rfl⟩
  by_cases hx : x ∈ A
  · obtain ⟨id, _, hf⟩ := hk.has x hx
    rw [build_assign_old he hf, Option.some.injEq] at hb
    subst hb
    have hB := (B.insert_extends _).trans hext
    refine ⟨?_, fun hU _ _ _ _ h => hback hU h hB⟩
    rintro σ s _ h ⟨w, hw, rfl⟩
    have hc := hrun h hB
    rw [hw] at hc
    obtain ⟨t, hran, hval⟩ := hc
    obtain ⟨n, hn⟩ := hran.reaches
    obtain ⟨id', k, mem, hf', hreg, hst, hloc⟩ := (h.2.ran hk hran (Nat.le_refl _)).store hx w
    rw [hf, Option.some.injEq, Operand.inst.injEq] at hf'
    subst hf'
    refine ⟨n + 1, t.writeMem mem, hn.snoc ?_, hran.stop.advance hok _ rfl rfl, ?_⟩
    · rw [hran.stop.fetch hok hext, exec_store hval (p := .inst id) hreg hst]
    · refine hloc.congr ?_ (fun _ _ => rfl) rfl fun _ _ _ _ => rfl
      intro y hy
      rcases List.mem_append.mp hy with hy | hy
      · exact hy
      · rw [List.mem_singleton.mp hy]
        exact hx
  · have hf := hk.fresh x hx
    rw [build_assign_new he hf, Option.some.injEq] at hb
    subst hb
    have hB' := (Builder.insert_extends _ _).trans hext
    have hB := (B.insert_extends _).trans hB'
    refine ⟨?_, fun hU _ _ _ _ h => hback hU h hB⟩
    rintro σ s _ h ⟨w, hw, rfl⟩
    have hc := hrun h hB
    rw [hw] at hc
    obtain ⟨t, hran, hval⟩ := hc
    obtain ⟨n, hn⟩ := hran.reaches
    have hnew : ∀ y ∈ A, V.names.find P.map y ≠ some (.inst B.nextId) := by
      intro y hy hcon
      obtain ⟨id, hid, hfy⟩ := hk.has y hy
      rw [hfy, Option.some.injEq, Operand.inst.injEq] at hcon
      omega
    obtain ⟨mem, hst, hloc⟩ :=
      (h.2.ran hk hran (Nat.le_refl _)).alloca hk.valid hf hx hnew w
    have hat : (B.insert (.alloca .i64)).2.At (t.alloca B.nextId) :=
      hran.stop.advance hok _ rfl rfl
    have hok' := (B.straight_insert (.alloca .i64)).ok hok
    have hval' : evalOperand (t.alloca B.nextId).regs v = some (.i64 w) := by
      rw [← hval]
      exact evalOperand_congr (between_below hv) (State.write_regs_old t _ _)
    have hvar : evalOperand (t.alloca B.nextId).regs (.inst B.nextId) = some (.slot t.mem.brk) :=
      State.write_regs_self _ _ _
    have halloc : step f t = .next (t.alloca B.nextId) := by
      rw [hran.stop.fetch hok hB']
      rfl
    have hstore : step f (t.alloca B.nextId) = .next ((t.alloca B.nextId).writeMem mem) := by
      rw [hat.fetch hok' hext, exec_store hval' hvar hst]
    exact ⟨_, _, (hn.snoc halloc).snoc hstore, hat.advance hok' _ rfl rfl, hloc⟩

/-- From the failed test to the join block: the body assigned nothing new. -/
theorem Parse.Grown.skip {P P' : Parse V} {A C : List String} {B : Builder} {v : Operand}
    (h : Parse.Grown (V := V) ⟨(branchOnNonzero F v B).2, P.map⟩ P' A C) (hok : B.Ok)
    (hC : ∀ x ∈ C, x ∈ A) (dest : Nat) (σ : Env) (s : State)
    (hs : (∃ u : State, s = u.goto (branchOnNonzero F v B).1) ∧ Located V P.map A σ s) :
    (P'.close dest (branchOnNonzero F v B).1).Holds (A ++ C) σ s := by
  obtain ⟨⟨u, rfl⟩, hl⟩ := hs
  have hin : ∀ x, x ∈ A ++ C → x ∈ A := fun x hx => (List.mem_append.mp hx).elim id (hC x)
  exact ⟨h.close_at hok u, hl.congr hin (fun x hx => h.old x (hin x hx)) rfl fun _ _ _ _ => rfl⟩

/-- Inside a body whose variables were all assigned before, every place is fine. -/
theorem Stmt.firstAtTop_of_assigned (s : Stmt) {A : List String} (h : ∀ x ∈ s.assigned, x ∈ A) :
    s.FirstAtTop A := by
  induction s generalizing A with
  | assign | null => trivial
  | ifThen | whileDo => exact h
  | seq l s ihl ihs =>
    obtain ⟨hl, hs⟩ := List.forall_mem_append.mp h
    exact ⟨ihl hl, ihs fun x hx => List.mem_append_left _ (hs x hx)⟩

/-- The code of a statement realizes the statement; in the version without a back
edge, it realizes it with every `while` read as an `if`. -/
theorem Stmt.realizes (s : Stmt) {P P' : Parse V} {A : List String} (hk : P.Knows A)
    (hr : s.ReadsAssigned A) (hf : s.FirstAtTop A) (ha : s.All (· < 2 ^ 31) (V.mulDiv = true))
    (hq : U → F.KeepsUndefined ∨ s.QuotientsDefined) (hb : s.build F P = some P')
    (hext : P'.builder.func.Extends f) :
    Realizes U (step f) (P.Holds A) (s.Exec V.backEdge) (P'.Holds (A ++ s.assigned)) := by
  induction s generalizing P P' A with
  | assign x e => exact Stmt.assign_realizes hk hr ha hq hb hext
  | ifThen c s ih =>
    obtain ⟨v, B, P₁, hbody, rfl⟩ := Stmt.ifThen_inv hk hr hb
    have hokB := (hbody.line.grows hk.ok).ok
    have hext₁ := (P₁.builder.insert_extends _).trans hext
    have htest := (Expr.decides hk hr.1 ha.1 (fun hU => (hq hU).imp_right And.left)
      (Nat.le_refl _) hk.ok hbody.cond (hbody.grown.grows.grows.trans hext₁)).weaken
        (hbody.grown.skip hokB hf (branchOnNonzero F v B).1)
    have hsim := ih hbody.knows hr.2 (s.firstAtTop_of_assigned hf) ha.2
      (fun hU => (hq hU).imp_right And.right) hbody.body hext₁
    refine Realizes.once htest (hsim.leave ?_)
    intro σ u hu
    obtain ⟨hstep, hloc⟩ := hu.close hbody.grown.grows.ok hext
    exact ⟨1, _, hstep, hbody.grown.close_at hokB u, hloc⟩
  | whileDo c s ih =>
    obtain ⟨v, B, P₁, hbody, rfl⟩ := Stmt.whileDo_inv hk hr hb
    have hh := headed hk.ok
    have hg := hbody.line.grows hh.grows.ok
    have hext₁ := (P₁.builder.insert_extends _).trans hext
    have hextc := hbody.grown.grows.grows.trans hext₁
    have htest := (Expr.decides hk hr.1 ha.1 (fun hU => (hq hU).imp_right And.left)
      hh.grows.nextId_le hh.grows.ok hbody.cond hextc).weaken (hbody.grown.skip hg.ok hf
        (if V.backEdge then P.builder.func.blocks.length else (branchOnNonzero F v B).1))
    have hsim := ih hbody.knows hr.2 (s.firstAtTop_of_assigned hf) ha.2
      (fun hU => (hq hU).imp_right And.right) hbody.body hext₁
    -- the branch into the condition block
    have henter : ∀ σ u, P.Holds A σ u → Comes (step f) u fun w =>
        (loopHead P.builder).At w ∧ Located V P.map A σ w := by
      rintro σ u ⟨hat, hl⟩
      have hexth :
          (P.builder.appendBlock.2.insert (.br P.builder.func.blocks.length)).2.func.Extends f :=
        (hg.grows.trans (branched F v B hg.ok).grows.grows).trans hextc
      have hokh := (Builder.Grows.refl hk.ok).appendBlock.ok
      exact ⟨1, _, .one (hat.appendBlock.fetch hokh hexth),
        Builder.At.goto (B := loopHead P.builder) hh.empty u, hl⟩
    cases hback : V.backEdge with
    | true =>
      simp only [Stmt.Exec, hback, ↓reduceIte] at hsim htest ⊢
      refine (Realizes.loop htest (hsim.leave ?_)).enter henter
      intro σ u hu
      obtain ⟨hstep, hloc⟩ := hu.close hbody.grown.grows.ok hext
      simp only [hback, ↓reduceIte] at hstep hloc
      exact ⟨1, _, hstep, Builder.At.goto (B := loopHead P.builder) hh.empty u,
        hloc.congr (fun _ => List.mem_append_left _) (fun x hx => (hbody.grown.old x hx).symm) rfl
          fun _ _ _ _ => rfl⟩
    | false =>
      simp only [Stmt.Exec, hback, Bool.false_eq_true, ↓reduceIte] at hsim htest ⊢
      refine (Realizes.once htest (hsim.leave ?_)).enter henter
      intro σ u hu
      obtain ⟨hstep, hloc⟩ := hu.close hbody.grown.grows.ok hext
      simp only [hback, Bool.false_eq_true, ↓reduceIte] at hstep hloc
      exact ⟨1, _, hstep, hbody.grown.close_at hg.ok u, hloc⟩
  | null =>
    cases hb
    rw [assigned, List.append_nil]
    exact Realizes.skip
  | seq l s ihl ihs =>
    obtain ⟨P₁, hl, hgl, hs, hgs⟩ := Stmt.seq_inv hk hr hb
    have h₁ := ihl hk hr.1 hf.1 ha.1 (fun hU => (hq hU).imp_right And.left) hl
      (hgs.grows.grows.trans hext)
    have h₂ := ihs hgl.knows hr.2 hf.2 ha.2 (fun hU => (hq hU).imp_right And.right) hs hext
    rw [assigned, ← List.append_assoc]
    exact h₁.seq h₂

/-! ## Programs -/

theorem Parse.Holds.start (V : Version) (words : BitVec 64 → BitVec 32) :
    Parse.Holds (V := V) ⟨Builder.entry, V.names.empty⟩ [] (fun _ => none) (Ir.start words) :=
  ⟨⟨rfl, rfl⟩, fun _ => 0, fun _ hx => absurd hx List.not_mem_nil,
    fun _ hx => absurd hx List.not_mem_nil⟩

/-- Compilation succeeds, and the function returns what the program yields; in
the version without a back edge, with every `while` read as an `if`. It returns
nothing else unless an undefined quotient was folded. -/
theorem Program.compile_yields (F : Folder) (p : Program) (hr : p.ReadsAssigned)
    (hf : p.FirstAtTop) (ha : p.All (· < 2 ^ 31) (V.mulDiv = true)) :
    ∃ f, p.compile F V = some f ∧
      (∀ words v, p.Yields V.backEdge v → f.Returns words (.i64 v)) ∧
      (F.KeepsUndefined ∨ p.QuotientsDefined →
        ∀ words v, f.Returns words (.i64 v) → p.Yields V.backEdge v) := by
  obtain ⟨P, o, B, hp⟩ := p.pieces F V hr
  have hk : P.Knows p.body.assigned := hp.grown.knows
  have hextB := B.insert_extends (.ret (some o))
  have hsim := p.body.realizes (U := F.KeepsUndefined ∨ p.QuotientsDefined) (Parse.Knows.start V)
    hr.1 hf ha.1 (Or.imp_right And.left) hp.body (hp.line.straight.grows.trans hextB)
  have hres : ∀ σ s, P.Holds p.body.assigned σ s →
      Finishes (F.KeepsUndefined ∨ p.QuotientsDefined) (step (B.insert (.ret (some o))).2.func) s
        ((p.result.eval σ).map fun n => some (.i64 n)) := by
    intro σ s h
    have hq : F.KeepsUndefined ∨ p.QuotientsDefined →
        F.KeepsUndefined ∨ p.result.QuotientsDefined := Or.imp_right And.right
    have hrun := Expr.computed hk hr.2 ha.2 hq (Nat.le_refl _) hk.ok h.1 h.2
      hp.result hextB
    cases hev : p.result.eval σ with
    | none =>
      rw [hev] at hrun
      exact hrun
    | some n =>
      rw [hev] at hrun
      obtain ⟨t, hran, hv⟩ := hrun
      obtain ⟨k, hk'⟩ := hran.reaches
      refine Lib.Returns.of_reaches hk' ⟨0, .now ?_⟩
      rw [hran.stop.fetch (hp.line.straight.ok hk.ok) (.refl _)]
      simp only [exec, hv]
  refine ⟨_, hp.compile, fun words v => ?_, fun hU words v hret => ?_⟩
  · rintro ⟨σ, hσ, hv⟩
    exact hsim.returns _ hres (Parse.Holds.start V words) hσ (congrArg _ hv)
  · obtain ⟨σ, hσ, hv⟩ := hsim.of_returns _ hres (Parse.Holds.start V words) hU hret
    obtain ⟨n, hn, hnv⟩ := Option.map_eq_some_iff.mp hv
    cases hnv
    exact ⟨σ, hσ, hn⟩

/-- Divisions by 0 are folded, as undef may be read, to 0. -/
def quotientsByZero : Folder where
  fold
    | .sdiv (.const (.i64 _)) (.const (.i64 0)) => some (.i64 0)
    | _ => none
  constant h := by
    split at h
    · simp [Op.operands, Operand.IsConst]
    · cases h
  sound h hv := by
    split at h
    · simp [evalOp, evalBin, sdivChecked] at hv
    · cases h

/-- `{ x = 1 / 0; return 5; }` yields nothing, but its quotient is no instruction. -/
example : ¬ (Expr.divide (.immediate 1) (.immediate 0)).QuotientsDefined ∧
    ((Program.mk (.assign "x" (.divide (.immediate 1) (.immediate 0))) (.immediate 5)).compile
      quotientsByZero .cpp).bind (fun f => runFor (step f) 40 (Ir.start fun _ => 0)) =
      some (some (.i64 5)) := by
  decide

/-- `{ x = 2; while (x) { x = x - 1; } return x; }` -/
def countdown : Program :=
  ⟨.seq (.assign "x" (.immediate 2))
      (.whileDo (.id "x") (.assign "x" (.minus (.id "x") (.immediate 1)))), .id "x"⟩

/-- The C version compiles correctly. -/
theorem Program.compile_c_correct (F : Folder) (p : Program) (hm : p.NoMulDiv)
    (hl : p.LiteralsFit) (hf : p.FirstAtTop) (hr : p.ReadsAssigned) :
    ∃ f, p.compile F .c = some f ∧ ∀ words v, f.Returns words (.i64 v) ↔ p.Returns v := by
  have hm' : p.All (fun _ => True) (Version.c.mulDiv = true) := by
    simpa [Version.c, NoMulDiv] using hm
  obtain ⟨f, hc, hforth, hback⟩ := p.compile_yields F hr hf (Program.All.combine hl hm')
  have hq : p.QuotientsDefined := ⟨hm.1.quotientsDefined, hm.2.quotientsDefined⟩
  exact ⟨f, hc, fun words v => ⟨hback (.inr hq) words v, hforth words v⟩⟩

theorem Program.compile_c_correct_countdown :
    ∃ f, countdown.compile .constants .c = some f ∧
      ∀ words v, f.Returns words (.i64 v) ↔ countdown.Returns v :=
  countdown.compile_c_correct .constants (by decide) (by decide) (by decide) (by decide)

/-- The C++ version yields a function that runs every `while` body at most once. -/
theorem Program.compile_cpp_yields (F : Folder) (p : Program) (hl : p.LiteralsFit)
    (hf : p.FirstAtTop) (hr : p.ReadsAssigned) :
    ∃ f, p.compile F .cpp = some f ∧
      (∀ words v, p.whileAsIf.Returns v → f.Returns words (.i64 v)) ∧
      (F.KeepsUndefined ∨ p.QuotientsDefined →
        ∀ words v, f.Returns words (.i64 v) → p.whileAsIf.Returns v) := by
  have ha : p.All (· < 2 ^ 31) (Version.cpp.mulDiv = true) := by
    simpa [Version.cpp, LiteralsFit] using hl
  simpa only [Version.cpp, yields_false_iff] using p.compile_yields F hr hf ha

/-- The C++ version compiles a program correctly if the program with every `while`
replaced by an `if` returns the same, and only then unless an undefined quotient of
constants was folded. -/
theorem Program.compile_cpp_correct_iff (F : Folder) (p : Program) (hl : p.LiteralsFit)
    (hf : p.FirstAtTop) (hr : p.ReadsAssigned) :
    ∃ f, p.compile F .cpp = some f ∧ ∀ words,
      ((∀ v, p.Returns v → p.whileAsIf.Returns v) →
        ∀ v, p.Returns v → f.Returns words (.i64 v)) ∧
      (F.KeepsUndefined ∨ p.QuotientsDefined →
        ((∀ v, p.Returns v → f.Returns words (.i64 v)) ↔
          ∀ v, p.Returns v → p.whileAsIf.Returns v)) := by
  obtain ⟨f, hc, hforth, hback⟩ := p.compile_cpp_yields F hl hf hr
  refine ⟨f, hc, fun words => ⟨fun h v hv => hforth words v (h v hv), fun hU => ?_⟩⟩
  exact ⟨fun h v hv => hback hU words v (h v hv), fun h v hv => hforth words v (h v hv)⟩

/-- `{ x = 1; while (x) { x = x - 1; } return x; }` -/
def countdownOnce : Program :=
  ⟨.seq (.assign "x" (.immediate 1))
      (.whileDo (.id "x") (.assign "x" (.minus (.id "x") (.immediate 1)))), .id "x"⟩

theorem Program.compile_cpp_correct_iff_once :
    ∃ f, countdownOnce.compile .constants .cpp = some f ∧ ∀ words,
      (∀ v, countdownOnce.Returns v → f.Returns words (.i64 v)) ↔
        ∀ v, countdownOnce.Returns v → countdownOnce.whileAsIf.Returns v := by
  obtain ⟨f, hc, h⟩ :=
    countdownOnce.compile_cpp_correct_iff .constants (by decide) (by decide) (by decide)
  exact ⟨f, hc, fun words => (h words).2 (.inl Folder.constants_keepsUndefined)⟩

/-- The source counts down to 0. -/
theorem countdown_returns : countdown.Returns 0 := by
  refine ⟨Function.update (Function.update (Function.update (fun _ => none) "x" (some 2))
    "x" (some 1)) "x" (some 0), ⟨_, ⟨2, rfl, rfl⟩, ?_⟩, by simp [countdown, Expr.eval]⟩
  refine Loop.next
    (t := Function.update (Function.update (fun _ => none) "x" (some 2)) "x" (some 1))
    (by simp [Expr.test, Expr.eval]) ⟨1, by simp [Expr.eval], rfl⟩ ?_
  exact Loop.next (by simp [Expr.test, Expr.eval]) ⟨0, by simp [Expr.eval], rfl⟩
    (Loop.done (by simp [Expr.test, Expr.eval]))

/-- The C++ version leaves the loop after one round and returns 1. -/
theorem Program.compile_cpp_countdown :
    countdown.LiteralsFit ∧ countdown.FirstAtTop ∧ countdown.ReadsAssigned ∧
      countdown.Returns 0 ∧ ∃ f, countdown.compile .constants .cpp = some f ∧
        f.Returns (fun _ => 0) (.i64 1) ∧ ¬ f.Returns (fun _ => 0) (.i64 0) := by
  have hl : countdown.LiteralsFit := by decide
  have hf : countdown.FirstAtTop := by decide
  have hr : countdown.ReadsAssigned := by decide
  obtain ⟨f, hc, _⟩ := countdown.compile_cpp_yields .constants hl hf hr
  have hrun : ((countdown.compile .constants .cpp).bind fun f =>
      runFor (step f) 40 (Ir.start fun _ => 0)) = some (some (.i64 1)) := by decide
  rw [hc, Option.bind_some] at hrun
  have hone : f.Returns (fun _ => 0) (.i64 1) := Lib.Returns.of_runFor hrun
  refine ⟨hl, hf, hr, countdown_returns, f, hc, hone, fun hzero => ?_⟩
  cases Lib.Returns.unique hone hzero

end CourseCompilers.Structured
