import CourseCompilers.Ir.Placement
import CourseCompilers.Lib.Precedence

/-! The two translators of the lecture on syntax-directed translation. Both read lines
of sums and emit the code of every line, the function returning the last one; `calc.y`
uses a literal as it is, `calc2.y` stores it to a new stack slot and loads it back. -/

namespace CourseCompilers.Sdt
open Lib Lib.Precedence Ir

inductive Symbol where
  | plus
  | minus
  deriving DecidableEq, Repr

inductive Binary where
  | plus
  | minus
  deriving DecidableEq, Repr

inductive Unary where
  | minus
  deriving DecidableEq, Repr

def spelling : Spelling Symbol Binary Unary where
  bin
    | .plus => .plus
    | .minus => .minus
  pre
    | .minus => .minus
  asBin
    | .plus => some .plus
    | .minus => some .minus
  asPre
    | .plus => none
    | .minus => some .minus
  asBin_eq_some := by
    intro s o
    cases s <;> cases o <;> simp
  asPre_eq_some := by
    intro s u
    cases s <;> simp

/-- `%left PLUS MINUS`. -/
def declarations : Declarations Symbol := [(.left, [.plus, .minus])]

def resolution : Resolution Binary Unary := declarations.resolution spelling

/-- `+` and `-` bind equally, the sign tighter. -/
def levels : Levels Binary := ⟨fun _ => 0, 1, fun _ => Nat.zero_lt_one⟩

theorem resolution_eq : resolution = levels.resolution := by
  have hbin : ∀ o next, resolution.bin o next = decide (levels.level next ≤ levels.level o) := by
    intro o next
    cases o <;> cases next <;> decide
  have hpre : ∀ u next, resolution.pre u next = true := by
    intro u next
    cases u
    cases next <;> decide
  cases h : resolution with
  | mk bin pre =>
    simp only [h] at hbin hpre
    simp only [Levels.resolution, Resolution.mk.injEq]
    exact ⟨funext fun o => funext (hbin o), funext fun u => funext (hpre u)⟩

/-- A `NUMBER` is the `int` of its token. -/
abbrev Expr := Tree Binary Unary (BitVec 32)

abbrev Text := List (Token Symbol (BitVec 32))

/-- The tokens of the scanner. -/
inductive Terminal where
  | expr (t : Token Symbol (BitVec 32))
  | newline
  | done
  deriving DecidableEq, Repr

/-! ## The grammar and its parser -/

/-- `expr_list`, with the lines it consists of. -/
inductive ExprList : List Terminal → List Text → Prop
  | first {l : Text} (hl : Derives spelling l) : ExprList (l.map .expr ++ [.newline]) [l]
  | more {ts : List Terminal} {ls : List Text} {l : Text} (h : ExprList ts ls)
      (hl : Derives spelling l) : ExprList (ts ++ (l.map .expr ++ [.newline])) (ls ++ [l])

/-- `program: expr_list DONE`. -/
def Program (ts : List Terminal) (ls : List Text) : Prop :=
  ∃ us, ExprList us ls ∧ ts = us ++ [.done]

/-- The lines read so far and the expression being read. -/
structure State where
  lines : List Expr
  current : Precedence.State Binary Unary (BitVec 32)
  deriving DecidableEq, Repr

def State.initial : State := ⟨[], .initial⟩

/-- Read a token of an expression or the end of a line. -/
def step (s : State) : Terminal → Option State
  | .expr t => (Precedence.step spelling resolution s.current t).map fun c => ⟨s.lines, c⟩
  | .newline => (finish s.current).map fun e => ⟨s.lines ++ [e], .initial⟩
  | .done => none

/-- The action of `program` returns from the parser: nothing after `DONE` is read. -/
def parseFrom (s : State) : List Terminal → Option (List Expr)
  | [] => none
  | .done :: _ => if s.current = .initial ∧ s.lines ≠ [] then some s.lines else none
  | t :: ts => (step s t).bind fun s => parseFrom s ts

def parse (ts : List Terminal) : Option (List Expr) := parseFrom .initial ts

theorem parseFrom_expr (es : List Expr) {c c' : Precedence.State Binary Unary (BitVec 32)}
    {l : Text} (h : run spelling resolution c l = some c') (ts : List Terminal) :
    parseFrom ⟨es, c⟩ (l.map .expr ++ ts) = parseFrom ⟨es, c'⟩ ts := by
  induction l generalizing c with
  | nil =>
    cases h
    rfl
  | cons t l ih =>
    obtain ⟨c₁, hc, h⟩ := Option.bind_eq_some_iff.mp h
    simp [parseFrom, step, hc, ih h]

theorem parseFrom_line (es : List Expr) {l : Text} {e : Expr}
    (h : Precedence.parse spelling resolution l = some e) (ts : List Terminal) :
    parseFrom ⟨es, .initial⟩ (l.map .expr ++ .newline :: ts) =
      parseFrom ⟨es ++ [e], .initial⟩ ts := by
  obtain ⟨c, hc, hf⟩ := Option.bind_eq_some_iff.mp h
  rw [parseFrom_expr es hc]
  simp [parseFrom, step, hf]

/-- The lines are read as in C, one after the other. -/
theorem ExprList.parseFrom {ts : List Terminal} {ls : List Text} (h : ExprList ts ls) :
    ∃ es, List.Forall₂ (Reads spelling levels) ls es ∧ es ≠ [] ∧
      ∀ us, Sdt.parseFrom .initial (ts ++ us) = Sdt.parseFrom ⟨es, .initial⟩ us := by
  induction h with
  | first hl =>
    obtain ⟨e, he⟩ := hl.reads levels
    have hp := parse_resolution_iff.mpr he
    rw [← resolution_eq] at hp
    refine ⟨[e], .cons he .nil, by simp, fun us => ?_⟩
    rw [List.append_assoc]
    exact parseFrom_line [] hp us
  | more _ hl ih =>
    obtain ⟨es, hes, -, hrun⟩ := ih
    obtain ⟨e, he⟩ := hl.reads levels
    have hp := parse_resolution_iff.mpr he
    rw [← resolution_eq] at hp
    refine ⟨es ++ [e], List.rel_append hes (.cons he .nil), by simp, fun us => ?_⟩
    rw [List.append_assoc, hrun, List.append_assoc]
    exact parseFrom_line es hp us

theorem Program.parse {ts : List Terminal} {ls : List Text} (h : Program ts ls) :
    ∃ es, Sdt.parse ts = some es ∧ es ≠ [] ∧ List.Forall₂ (Reads spelling levels) ls es := by
  obtain ⟨us, hus, rfl⟩ := h
  obtain ⟨es, hes, hne, hrun⟩ := hus.parseFrom
  exact ⟨es, by rw [Sdt.parse, hrun]; simp [Sdt.parseFrom, hne], hne, hes⟩

/-! ## The actions -/

inductive Version where
  /-- `calc.y` -/
  | constants
  /-- `calc2.y` -/
  | slots
  deriving DecidableEq, Repr

/-- `LLVMConstInt` of an `int`, which it is given as sign-extended to 64 bits. -/
def constInt (n : BitVec 32) : Operand := .const (.i64 (n.signExtend 64))

def zero : Operand := .const (.i64 0)

/-- The action of `NUMBER`. -/
def number (V : Version) (n : BitVec 32) (B : Builder) : Operand × Builder :=
  match V with
  | .constants => (constInt n, B)
  | .slots =>
      let (alloca, B) := B.insert (.alloca .i64)
      let (_, B) := B.insert (.store (constInt n) alloca)
      B.insert (.load alloca)

section
variable (F : Folder) (V : Version)

/-- The actions of `expr`. -/
def build : Expr → Builder → Operand × Builder
  | .atom n, B => number V n B
  | .paren e, B => build e B
  | .pre .minus e, B =>
      let (x, B) := build e B
      B.buildOp F (.sub zero x)
  | .bin .plus l r, B =>
      let (x, B) := build l B
      let (y, B) := build r B
      B.buildOp F (.add x y)
  | .bin .minus l r, B =>
      let (x, B) := build l B
      let (y, B) := build r B
      B.buildOp F (.sub x y)

/-- The actions of `expr_list`, whose value is that of the line read last. -/
def buildLines : List Expr → Option Operand → Builder → Option Operand × Builder
  | [], v, B => (v, B)
  | e :: es, _, B =>
      let (v, B) := build F V e B
      buildLines es (some v) B

/-- `main` and the action of `program`. -/
def compile (es : List Expr) : Func :=
  let (v, B) := buildLines F V es none .entry
  (B.insert (.ret v)).2.func

end

/-- The value of a line in 64-bit arithmetic. -/
def wrapped : Expr → BitVec 64
  | .atom n => n.signExtend 64
  | .paren e => wrapped e
  | .pre .minus e => -wrapped e
  | .bin .plus l r => wrapped l + wrapped r
  | .bin .minus l r => wrapped l - wrapped r

/-! ## The emitted code -/

variable {F : Folder} {V : Version} {f : Func}

/-- The code from `B` to `B'` runs through, and the older registers keep their values. -/
structure Passed (f : Func) (B : Builder) (s : Ir.State) (B' : Builder) (s' : Ir.State) : Prop where
  reaches : ∃ n, Reaches (Ir.step f) s n s'
  stop : B'.At s'
  regs : ∀ id < B.nextId, s'.regs id = s.regs id

theorem Passed.of_ran {B B' : Builder} {s s' : Ir.State} (h : Ran f B s B' s') :
    Passed f B s B' s' := ⟨h.reaches, h.stop, h.regs⟩

theorem Passed.trans {B B' B'' : Builder} {s s' s'' : Ir.State} (h : Passed f B s B' s')
    (h' : Passed f B' s' B'' s'') (hid : B.nextId ≤ B'.nextId) : Passed f B s B'' s'' := by
  obtain ⟨n, hn⟩ := h.reaches
  obtain ⟨m, hm⟩ := h'.reaches
  refine ⟨⟨n + m, hn.trans hm⟩, h'.stop, ?_⟩
  intro id hlt
  rw [h'.regs id (by omega), h.regs id hlt]

/-- What the actions of an expression leave, wherever they are run. -/
structure Builds (B : Builder) (r : Operand × Builder) : Prop where
  straight : B.Straight r.2
  below : r.1.Below r.2.nextId

theorem Builds.buildOp {B B' : Builder} (h : B.Straight B') (o : Op) :
    Builds B (B'.buildOp F o) :=
  ⟨h.trans (B'.straight_buildOp F o), B'.buildOp_below F o⟩

theorem number_builds (n : BitVec 32) (B : Builder) : Builds B (number V n B) := by
  cases V with
  | constants => exact ⟨.refl B, trivial⟩
  | slots =>
    exact ⟨((B.straight_insert _).trans (Builder.straight_insert _ _)).trans
      (Builder.straight_insert _ _), Nat.lt_succ_self _⟩

theorem build_builds (e : Expr) (B : Builder) : Builds B (build F V e B) := by
  induction e generalizing B with
  | atom n => exact number_builds n B
  | paren e ih => exact ih B
  | pre u e ih =>
    cases u
    exact .buildOp (ih B).straight _
  | bin o l r ihl ihr =>
    have h := (ihl B).straight.trans (ihr (build F V l B).2).straight
    cases o <;> exact .buildOp h _

/-- A literal that is stored to a new slot is loaded back. -/
theorem number_computes (n : BitVec 32) {B : Builder} {s : Ir.State} (hok : B.Ok) (hat : B.At s)
    (hext : (number V n B).2.func.Extends f) :
    ∃ s', Passed f B s (number V n B).2 s' ∧
      evalOperand s'.regs (number V n B).1 = some (.i64 (n.signExtend 64)) := by
  cases V with
  | constants => exact ⟨s, .of_ran (.refl hat), rfl⟩
  | slots =>
    let B₁ := (B.insert (.alloca .i64)).2
    let B₂ := (B₁.insert (.store (constInt n) (.inst B.nextId))).2
    have hext₂ : B₂.func.Extends f := (B₂.insert_extends _).trans hext
    have hext₁ : B₁.func.Extends f := (B₁.insert_extends _).trans hext₂
    have hok₁ : B₁.Ok := (B.straight_insert _).ok hok
    have hok₂ : B₂.Ok := (B₁.straight_insert _).ok hok₁
    have hat₁ : B₁.At (s.alloca B.nextId) := hat.advance hok _ rfl rfl
    have hslot : evalOperand (s.alloca B.nextId).regs (.inst B.nextId) = some (.slot s.mem.brk) :=
      State.write_regs_self _ _ _
    obtain ⟨mem, hstore, hload⟩ : ∃ mem, (s.alloca B.nextId).mem.store (.slot s.mem.brk)
        (.i64 (n.signExtend 64)) = some mem ∧
        mem.load (.slot s.mem.brk) = some (.i64 (n.signExtend 64)) :=
      ⟨_, if_pos (Nat.lt_succ_self _), Function.update_self ..⟩
    let s₂ := (s.alloca B.nextId).writeMem mem
    have hat₂ : B₂.At s₂ := hat₁.advance hok₁ _ rfl rfl
    have halloc : Ir.step f s = .next (s.alloca B.nextId) := by
      rw [hat.fetch hok hext₁]
      rfl
    have hstep : Ir.step f (s.alloca B.nextId) = .next s₂ := by
      rw [hat₁.fetch hok₁ hext₂, exec_store (v := constInt n) rfl hslot hstore]
    have hran : Ran f B₂ s₂ (B₂.insert (.load (.inst B.nextId))).2 (s₂.write B₂.nextId _) :=
      Ran.load hat₂ hok₂ hext hslot hload
    obtain ⟨k, hk⟩ := hran.reaches
    refine ⟨_, ⟨⟨1 + 1 + k, ((Reaches.one halloc).trans (.one hstep)).trans hk⟩, hran.stop, ?_⟩,
      State.write_regs_self _ _ _⟩
    intro id hid
    have hid₂ : id < B₂.nextId := by
      show id < B.nextId + 1 + 1
      omega
    rw [hran.regs id hid₂]
    exact State.write_regs_old s _ _ id hid

/-- One more operation, on an operand computed last and perhaps an older one. -/
theorem Passed.buildOp {B B' : Builder} {s s' : Ir.State} {o : Op} {v : Val}
    (h : Passed f B s B' s') (hst : B.Straight B') (hok : B.Ok)
    (hext : (B'.buildOp F o).2.func.Extends f) (hv : evalOp s'.regs o = some v) :
    ∃ s'', Passed f B s (B'.buildOp F o).2 s'' ∧
      evalOperand s''.regs (B'.buildOp F o).1 = some v := by
  obtain ⟨s'', hran, hval⟩ := Ran.buildOp F h.stop (hst.ok hok) hext hv
  exact ⟨s'', h.trans (.of_ran hran) hst.nextId_le, hval⟩

/-- Wherever the code of an expression is placed, it computes the value. -/
theorem build_computes (e : Expr) {B : Builder} {s : Ir.State} (hok : B.Ok) (hat : B.At s)
    (hext : (build F V e B).2.func.Extends f) :
    ∃ s', Passed f B s (build F V e B).2 s' ∧
      evalOperand s'.regs (build F V e B).1 = some (.i64 (wrapped e)) := by
  induction e generalizing B s with
  | atom n => exact number_computes n hok hat hext
  | paren e ih => exact ih hok hat hext
  | pre u e ih =>
    cases u
    have hb := build_builds (F := F) (V := V) e B
    obtain ⟨s', hp, hv⟩ := ih hok hat ((Builder.straight_buildOp F _ _).grows.trans hext)
    refine hp.buildOp hb.straight hok hext ?_
    simp [evalOp, hv, zero, evalBin, wrapped]
  | bin o l r ihl ihr =>
    have hl := build_builds (F := F) (V := V) l B
    have hr := build_builds (F := F) (V := V) r (build F V l B).2
    have hstraight := hl.straight.trans hr.straight
    have hokl := hl.straight.ok hok
    -- the right operand's code keeps the register of the left operand
    have hboth : (build F V r (build F V l B).2).2.func.Extends f →
        ∃ s'', Passed f B s (build F V r (build F V l B).2).2 s'' ∧
          evalOperand s''.regs (build F V l B).1 = some (.i64 (wrapped l)) ∧
          evalOperand s''.regs (build F V r (build F V l B).2).1 = some (.i64 (wrapped r)) := by
      intro h
      obtain ⟨s', hp, hv⟩ := ihl hok hat (hr.straight.grows.trans h)
      obtain ⟨s'', hp', hv'⟩ := ihr hokl hp.stop h
      refine ⟨s'', hp.trans hp' hl.straight.nextId_le, ?_, hv'⟩
      rw [evalOperand_congr hl.below hp'.regs, hv]
    cases o with
    | plus =>
      obtain ⟨s'', hp, hx, hy⟩ := hboth ((Builder.straight_buildOp F _ _).grows.trans hext)
      refine hp.buildOp hstraight hok hext ?_
      simp [evalOp, hx, hy, evalBin, wrapped]
    | minus =>
      obtain ⟨s'', hp, hx, hy⟩ := hboth ((Builder.straight_buildOp F _ _).grows.trans hext)
      refine hp.buildOp hstraight hok hext ?_
      simp [evalOp, hx, hy, evalBin, wrapped]

theorem buildLines_straight (es : List Expr) (v : Option Operand) (B : Builder) :
    B.Straight (buildLines F V es v B).2 := by
  induction es generalizing v B with
  | nil => exact .refl B
  | cons e es ih => exact (build_builds e B).straight.trans (ih _ _)

/-- The code of all lines runs; the value is that of the last one. -/
theorem buildLines_computes (es : List Expr) {e : Expr} (he : es.getLast? = some e)
    (v : Option Operand) {B : Builder} {s : Ir.State} (hok : B.Ok) (hat : B.At s)
    (hext : (buildLines F V es v B).2.func.Extends f) :
    ∃ s' o, (∃ n, Reaches (Ir.step f) s n s') ∧ (buildLines F V es v B).2.At s' ∧
      (buildLines F V es v B).1 = some o ∧ evalOperand s'.regs o = some (.i64 (wrapped e)) := by
  induction es generalizing v B s with
  | nil => cases he
  | cons e₁ es ih =>
    have hok₁ := (build_builds (F := F) (V := V) e₁ B).straight.ok hok
    have hext₁ := (buildLines_straight es _ _).grows.trans hext
    obtain ⟨s₁, hp, hv⟩ := build_computes (F := F) (V := V) e₁ hok hat hext₁
    cases es with
    | nil =>
      cases he
      exact ⟨s₁, _, hp.reaches, hp.stop, rfl, hv⟩
    | cons e₂ es =>
      obtain ⟨s', o, ⟨m, hm⟩, hstop, ho, hv'⟩ :=
        ih (by rwa [List.getLast?_cons_cons] at he) (some (build F V e₁ B).1) hok₁ hp.stop hext
      obtain ⟨n, hn⟩ := hp.reaches
      exact ⟨s', o, ⟨n + m, hn.trans hm⟩, hstop, ho, hv'⟩

theorem compile_returns (F : Folder) (V : Version) {es : List Expr} {e : Expr}
    (he : es.getLast? = some e) (words : BitVec 64 → BitVec 32) :
    (compile F V es).Returns words (.i64 (wrapped e)) := by
  have hok : Builder.entry.Ok := Nat.zero_lt_one
  have hat : Builder.entry.At (start words) := ⟨rfl, rfl⟩
  obtain ⟨s, o, ⟨n, hn⟩, hstop, ho, hv⟩ := buildLines_computes (F := F) (V := V)
    (f := compile F V es) es he none hok hat (Builder.insert_extends _ _)
  refine Lib.Returns.of_reaches hn ⟨0, .now ?_⟩
  have hend := (buildLines_straight (F := F) (V := V) es none .entry).ok hok
  have hfetch := hstop.fetch (f := compile F V es) hend (.refl _)
  rw [hfetch]
  simp only [exec, ho, hv]

/-- On every input of the grammar both translators emit a function that returns the value
of the last line, each line being read as in C. -/
theorem translators_return (F : Folder) (words : BitVec 64 → BitVec 32) (ts : List Terminal)
    (ls : List Text) (h : Program ts ls) :
    ∃ es last, parse ts = some es ∧ List.Forall₂ (Reads spelling levels) ls es ∧
      es.getLast? = some last ∧
      (compile F .constants es).Returns words (.i64 (wrapped last)) ∧
      (compile F .slots es).Returns words (.i64 (wrapped last)) := by
  obtain ⟨es, hparse, hne, hreads⟩ := h.parse
  have hlast := List.getLast?_eq_getLast_of_ne_nil hne
  exact ⟨es, es.getLast hne, hparse, hreads, hlast, compile_returns F .constants hlast words,
    compile_returns F .slots hlast words⟩

/-- `5`, a line whose value is not returned, and `-(1 - 2) - 3 + 4`. -/
def twoLines : List Expr :=
  [.atom 5, .bin .plus (.bin .minus (.pre .minus (.paren (.bin .minus (.atom 1) (.atom 2))))
    (.atom 3)) (.atom 4)]

def twoLinesInput : List Terminal :=
  twoLines.flatMap (fun e => (e.tokens spelling).map .expr ++ [.newline]) ++ [.done]

theorem translators_return_twoLines :
    ∃ es, parse twoLinesInput = some es ∧
      (compile .constants .constants es).Returns (fun _ => 0) (.i64 2) ∧
      (compile .constants .slots es).Returns (fun _ => 0) (.i64 2) := by
  have hline : ∀ e : Expr, Derives spelling (e.tokens spelling) := fun e => ⟨e, rfl⟩
  have hprogram : Program twoLinesInput (twoLines.map (Tree.tokens spelling)) :=
    ⟨_, .more (.first (hline _)) (hline _), rfl⟩
  obtain ⟨es, last, hparse, -, hlast, hconstants, hslots⟩ :=
    translators_return .constants (fun _ => 0) twoLinesInput _ hprogram
  have hes : twoLines = es := Option.some.inj ((by decide : some twoLines = _).trans hparse)
  subst hes
  cases hlast
  exact ⟨_, hparse, hconstants, hslots⟩

end CourseCompilers.Sdt
