import CourseCompilers.Structured.Parser

/-! What the parser of the third tutorial accepts, and what it builds. Beside it runs a
parser without actions that keeps the trees read so far; the actions that have run are
those of the trees. -/

namespace CourseCompilers.Structured
open Lib.Precedence Expressions Ir

/-! ## Actions of trees -/

section
variable (F : Folder) {V : Version}

/-- The actions of an expression on the global state. -/
def Expr.act (e : Expr) (P : Parse V) : Option (Operand × Parse V) :=
  (e.build F V P.map P.builder).map fun x => (x.1, ⟨x.2, P.map⟩)

theorem tree_act (e : Expr) (P : Parse V) : e.tree.act (exprActions F V) P = e.act F P := by
  induction e generalizing P with
  | immediate n => rfl
  | id x => cases hx : V.names.find P.map x <;>
      simp [Expr.tree, Tree.act, exprActions, Expr.act, Expr.build, Parse.emit, hx]
  | plus a b iha ihb | minus a b iha ihb =>
    simp only [Expr.tree, Tree.act, iha, ihb, Expr.act, Expr.build]
    cases ha : a.build F V P.map P.builder with
    | none => simp
    | some x => cases hb : b.build F V P.map x.2 <;> simp [hb, exprActions, Parse.emit]
  | multiply a b iha ihb | divide a b iha ihb =>
    simp only [Expr.tree, Tree.act, iha, ihb, Expr.act, Expr.build]
    cases ha : a.build F V P.map P.builder with
    | none => simp
    | some x =>
      cases hb : b.build F V P.map x.2 <;> cases hm : V.mulDiv <;>
        simp [hb, hm, exprActions, Parse.emit]
  | paren a ih => exact ih P
  | neg a ih | not a ih =>
    simp only [Expr.tree, Tree.act, ih, Expr.act, Expr.build]
    cases ha : a.build F V P.map P.builder <;> simp [exprActions, Parse.emit]

theorem atoi_toNat (n : BitVec 32) : atoi n.toNat = n := by
  have hlt := n.isLt
  rw [atoi, Nat.min_eq_left (by omega), BitVec.ofNat_toNat, BitVec.setWidth_eq]

theorem tree_toExpr (t : Tree Expressions.Binary Unary Leaf) : (toExpr t).tree = t := by
  induction t with
  | atom a =>
    cases a with
    | immediate n => simp only [toExpr, Expr.tree, atoi_toNat]
    | id x => rfl
  | paren e ih => simp only [toExpr, Expr.tree, ih]
  | pre u e ih => cases u <;> simp only [toExpr, Expr.tree, ih]
  | bin o l r ihl ihr => cases o <;> simp only [toExpr, Expr.tree, ihl, ihr]

theorem Stmt.assign_acts (x : String) (e : Expr) (P : Parse V) :
    (Stmt.assign x e).build F P = (e.act F P).map fun y => y.2.assign x y.1 := by
  rw [build, Expr.act]
  cases e.build F V P.map P.builder with
  | none => rfl
  | some y =>
    simp only [Option.bind_eq_bind, Option.bind_some, Option.map_some, Parse.assign]
    cases V.names.find P.map x <;> rfl

theorem Stmt.ifThen_acts (c : Expr) (s : Stmt) (P : Parse V) :
    (Stmt.ifThen c s).build F P = (c.act F P).bind fun y =>
      (s.build F (y.2.beginBody F y.1).2).map
        (Branch.close · (.ifThen (y.2.beginBody F y.1).1)) := by
  rw [build, Expr.act]
  cases c.build F V P.map P.builder with
  | none => rfl
  | some y =>
    simp only [Option.bind_eq_bind, Option.bind_some, Option.map_some, Parse.beginBody]
    cases s.build F _ <;> rfl

theorem Stmt.whileDo_acts (c : Expr) (s : Stmt) (P : Parse V) :
    (Stmt.whileDo c s).build F P = (c.act F P.beginWhile.2).bind fun y =>
      (s.build F (y.2.beginBody F y.1).2).map
        (Branch.close · (.whileDo P.beginWhile.1 (y.2.beginBody F y.1).1)) := by
  rw [build, Expr.act, Parse.beginWhile]
  simp only
  cases c.build F V P.map _ with
  | none => rfl
  | some y =>
    simp only [Option.bind_eq_bind, Option.bind_some, Option.map_some, Parse.beginBody]
    cases s.build F _ <;> rfl

/-- The actions of a program on the global state. -/
def Program.act (V : Version) (p : Program) : Option (Parse V) :=
  ((p.body.build F (Parser.start V).global).bind fun P => p.result.act F P).map fun y =>
    y.2.ret y.1

theorem Program.compile_eq (p : Program) :
    p.compile F V = (p.act F V).map fun P => P.builder.func := by
  rw [compile, act, Parser.start]
  simp only [Expr.act]
  cases p.body.build F (V := V) ⟨Builder.entry, V.names.empty⟩ with
  | none => rfl
  | some P =>
    simp only [Option.bind_eq_bind, Option.bind_some]
    cases p.result.build F V P.map P.builder <;> rfl

/-! ## The texts of programs are accepted -/

/-- What is parsed after actions that may have failed. -/
def Parser.after (s : Option (Parser V)) (ts : List Tok) : Except Failure (Parse V) :=
  (outcome s).bind fun s => s.yyparse F ts

theorem Parser.yyparse_cons {s : Parser V} (hs : s.point.isDone = false) (t : Tok)
    (ts : List Tok) : s.yyparse F (t :: ts) = (s.step F t).bind fun s => s.yyparse F ts := by
  rw [yyparse, if_neg (by simp [hs])]

theorem Parser.step_expr_stop {bs : List Branch} {slot : Slot Nat}
    {e : Running Expressions.Binary Unary Operand} {P : Parse V} {x : Operand × Parse V}
    (h : finishActing (exprActions F V) e P = some x) :
    Parser.step F ⟨bs, .expr slot e, P⟩ slot.stop = .ok (slot.complete F bs x.1 x.2) := by
  simp [step, h]

theorem Parser.step_expr {bs : List Branch} {slot : Slot Nat}
    {e : Running Expressions.Binary Unary Operand} {P : Parse V} {t : Token Symbol Leaf}
    (h : Tok.expr t = slot.stop → finishActing (exprActions F V) e P = none) :
    Parser.step F ⟨bs, .expr slot e, P⟩ (.expr t) =
      (stepActing (exprActions F V) spelling resolution e P t).map fun x =>
        ⟨bs, .expr slot x.1, x.2⟩ := by
  have hnone : (if Tok.expr t = slot.stop then finishActing (exprActions F V) e P else none) =
      none := by
    split
    · next hstop => exact h hstop
    · rfl
  simp [step, hnone]

/-- Reading on in an expression. -/
theorem Parser.yyparse_run {slot : Slot Nat} {bs : List Branch} {ts : Text}
    {s s' : Lib.Precedence.State Expressions.Binary Unary Leaf} {P₀ : Parse V}
    {e : Tree Expressions.Binary Unary Leaf} (hrun : run spelling resolution s ts = some s')
    (he : finish s' = some e) {r : Running Expressions.Binary Unary Operand} {P : Parse V}
    (hact : s.act (exprActions F V) P₀ = some (r, P)) (rest : List Tok) :
    Parser.yyparse F ⟨bs, .expr slot r, P⟩ (ts.map .expr ++ slot.stop :: rest) =
      Parser.after F ((e.act (exprActions F V) P₀).map fun x => slot.complete F bs x.1 x.2)
        rest := by
  induction ts generalizing s r P with
  | nil =>
    cases hrun
    obtain ⟨x, hx⟩ := Option.isSome_iff_exists.mp
      (isSome_act_finish he (Option.isSome_iff_exists.mpr ⟨_, hact⟩))
    have hfinish : finishActing (exprActions F V) r P = some x := by
      rw [finish_acts hact, he]
      exact hx
    rw [List.map_nil, List.nil_append, yyparse_cons F rfl, step_expr_stop F hfinish, hx]
    rfl
  | cons t ts ih =>
    obtain ⟨s₁, hstep, hrun⟩ := Option.bind_eq_some_iff.mp hrun
    have hnone : Tok.expr t = slot.stop → finishActing (exprActions F V) r P = none := by
      intro hstop
      have hparen : t = .rparen := by
        cases slot <;> cases hstop <;> rfl
      subst hparen
      rw [finish_acts hact, finish_eq_none_of_rparen hstep]
      rfl
    rw [List.map_cons, List.cons_append, yyparse_cons F rfl, step_expr F hnone,
      step_acts hact (S := spelling) (R := resolution), hstep]
    simp only
    cases hact₁ : s₁.act (exprActions F V) P₀ with
    | some x => exact ih hrun hact₁
    | none =>
      have hfail : e.act (exprActions F V) P₀ = none := by
        rw [Option.eq_none_iff_forall_ne_some]
        intro x hx
        have hsome := isSome_act_of_run hrun
          (isSome_act_of_finish he (Option.isSome_iff_exists.mpr ⟨x, hx⟩))
        rw [hact₁] at hsome
        cases hsome
      rw [hfail]
      rfl

/-- An expression is read, and its actions are run. -/
theorem Parser.yyparse_expr {e : Expr} (he : e.Declared) (slot : Slot Nat) (bs : List Branch)
    (P : Parse V) (rest : List Tok) :
    Parser.yyparse F ⟨bs, .expr slot .initial, P⟩ (e.text.map .expr ++ slot.stop :: rest) =
      Parser.after F ((e.act F P).map fun x => slot.complete F bs x.1 x.2) rest := by
  obtain ⟨s', hrun, hfinish⟩ := Option.bind_eq_some_iff.mp he
  have hact : (Lib.Precedence.State.initial :
      Lib.Precedence.State Expressions.Binary Unary Leaf).act (exprActions F V) P =
        some (.initial, P) := rfl
  rw [yyparse_run F hrun hfinish hact, tree_act]

/-- A statement is read, and its actions are run. -/
theorem Stmt.yyparse_tokens {s : Stmt} (hs : s.Declared) (bs : List Branch) (b : Bool)
    (P : Parse V) (rest : List Tok) :
    Parser.yyparse F ⟨bs, .stmtlist b, P⟩ (s.tokens ++ rest) =
      Parser.after F ((s.build F P).map fun P => ⟨bs, .stmtlist true, P⟩) rest := by
  induction s generalizing bs b P rest with
  | null => rfl
  | assign x e =>
    have hlist := Parser.yyparse_expr F hs (.assign x) bs P rest
    rw [Stmt.assign_acts, Option.map_map]
    simp only [tokens, List.cons_append, List.append_assoc, List.nil_append]
    exact hlist
  | ifThen c s ih =>
    have hcond := Parser.yyparse_expr F hs.1 .ifCond bs P
      (.lbrace :: (s.tokens ++ .rbrace :: rest))
    simp only [tokens, List.cons_append, List.append_assoc, List.nil_append]
    refine hcond.trans ?_
    rw [Stmt.ifThen_acts]
    cases c.act F P with
    | none => rfl
    | some y =>
      refine (ih hs.2 _ false _ _).trans ?_
      simp only [Option.bind_some]
      cases s.build F (y.2.beginBody F y.1).2 <;> rfl
  | whileDo c s ih =>
    have hcond := Parser.yyparse_expr F hs.1 (.whileCond P.beginWhile.1) bs P.beginWhile.2
      (.lbrace :: (s.tokens ++ .rbrace :: rest))
    simp only [tokens, List.cons_append, List.append_assoc, List.nil_append]
    refine hcond.trans ?_
    rw [Stmt.whileDo_acts]
    cases c.act F P.beginWhile.2 with
    | none => rfl
    | some y =>
      refine (ih hs.2 _ false _ _).trans ?_
      simp only [Option.bind_some]
      cases s.build F (y.2.beginBody F y.1).2 <;> rfl
  | seq l s ihl ihs =>
    rw [tokens, List.append_assoc, ihl hs.1, build]
    cases l.build F P with
    | none => rfl
    | some P' => exact ihs hs.2 bs true P' rest

/-- A program is read, its actions are run, and nothing after it is read. -/
theorem Program.yyparse_tokens {p : Program} (hp : p.Declared) (rest : List Tok) :
    (Parser.start V).yyparse F (p.tokens ++ rest) = outcome (p.act F V) := by
  have hbody := Stmt.yyparse_tokens F hp.1 [] false (Parser.start V).global
    (.returnKeyword :: (p.result.text.map .expr ++ .semi :: .rbrace :: rest))
  rw [tokens, act]
  simp only [List.cons_append, List.append_assoc, List.nil_append]
  refine Eq.trans hbody ?_
  cases p.body.build F (Parser.start V).global with
  | none => rfl
  | some P =>
    refine (Parser.yyparse_expr F hp.2 .result [] P (.rbrace :: rest)).trans ?_
    simp only [Option.bind_some]
    cases p.result.act F P with
    | none => rfl
    | some y => cases rest <;> rfl

end

/-! ## The trees read so far -/

/-- The rule of a body that is open. -/
inductive Rule where
  | ifThen (c : Expr)
  | whileDo (c : Expr)

def Rule.stmt (s : Stmt) : Rule → Stmt
  | .ifThen c => .ifThen c s
  | .whileDo c => .whileDo c s

/-- A body that is open, and the statements before its own. -/
structure Opened where
  before : Option Stmt
  rule : Rule

/-- `stmtlist: stmt` and `stmtlist: stmtlist stmt`. -/
def snoc : Option Stmt → Stmt → Stmt
  | none, s => s
  | some l, s => .seq l s

/-- What has been read after the last statement. -/
inductive Phase where
  | stmtlist
  | id (x : String)
  | ifKeyword
  | whileKeyword
  | expr (slot : Slot Unit) (e : Lib.Precedence.State Expressions.Binary Unary Leaf)
  | body (r : Rule)
  | semi (e : Expr)
  | done (e : Expr)

/-- What has been read after the first brace, as trees. -/
structure Derivation where
  opened : List Opened
  list : Option Stmt
  phase : Phase

namespace Derivation

def start : Derivation := ⟨[], none, .stmtlist⟩

def complete (os : List Opened) (l : Option Stmt) (e : Expr) : Slot Unit → Derivation
  | .assign x => ⟨os, some (snoc l (.assign x e)), .stmtlist⟩
  | .ifCond => ⟨os, l, .body (.ifThen e)⟩
  | .whileCond _ => ⟨os, l, .body (.whileDo e)⟩
  | .result => ⟨os, l, .semi e⟩

def step : Derivation → Tok → Option Derivation
  | ⟨os, l, .stmtlist⟩, .semi => some ⟨os, some (snoc l .null), .stmtlist⟩
  | ⟨os, l, .stmtlist⟩, .expr (.atom (.id x)) => some ⟨os, l, .id x⟩
  | ⟨os, l, .stmtlist⟩, .ifKeyword => some ⟨os, l, .ifKeyword⟩
  | ⟨os, l, .stmtlist⟩, .whileKeyword => some ⟨os, l, .whileKeyword⟩
  | ⟨o :: os, some s, .stmtlist⟩, .rbrace =>
      some ⟨os, some (snoc o.before (o.rule.stmt s)), .stmtlist⟩
  | ⟨[], some s, .stmtlist⟩, .returnKeyword => some ⟨[], some s, .expr .result .initial⟩
  | ⟨os, l, .id x⟩, .assign => some ⟨os, l, .expr (.assign x) .initial⟩
  | ⟨os, l, .ifKeyword⟩, .expr .lparen => some ⟨os, l, .expr .ifCond .initial⟩
  | ⟨os, l, .whileKeyword⟩, .expr .lparen => some ⟨os, l, .expr (.whileCond ()) .initial⟩
  | ⟨os, l, .expr slot e⟩, t =>
      match if t = slot.stop then finish e else none, t with
      | some e, _ => some (complete os l (toExpr e) slot)
      | none, .expr t =>
          (Lib.Precedence.step spelling resolution e t).map fun e => ⟨os, l, .expr slot e⟩
      | none, _ => none
  | ⟨os, l, .body r⟩, .lbrace => some ⟨⟨l, r⟩ :: os, none, .stmtlist⟩
  | ⟨os, l, .semi e⟩, .rbrace => some ⟨os, l, .done e⟩
  | _, _ => none

theorem step_expr_stop {os : List Opened} {l : Option Stmt} {slot : Slot Unit}
    {e : Lib.Precedence.State Expressions.Binary Unary Leaf}
    {t : Tree Expressions.Binary Unary Leaf} (h : finish e = some t) :
    step ⟨os, l, .expr slot e⟩ slot.stop = some (complete os l (toExpr t) slot) := by
  simp [step, h]

theorem step_expr {os : List Opened} {l : Option Stmt} {slot : Slot Unit}
    {e : Lib.Precedence.State Expressions.Binary Unary Leaf} {t : Token Symbol Leaf}
    (h : Tok.expr t = slot.stop → finish e = none) :
    step ⟨os, l, .expr slot e⟩ (.expr t) =
      (Lib.Precedence.step spelling resolution e t).map fun e => ⟨os, l, .expr slot e⟩ := by
  have hnone : (if Tok.expr t = slot.stop then finish e else none) = none := by
    split
    · next hstop => exact h hstop
    · rfl
  simp [step, hnone]

end Derivation

/-! ### Their actions -/

section
variable (F : Folder) {V : Version}

def listAct (P : Parse V) : Option Stmt → Option (Parse V)
  | none => some P
  | some s => s.build F P

def Rule.act (P : Parse V) : Rule → Option (Branch × Parse V)
  | .ifThen c => (c.act F P).map fun y =>
      (.ifThen (y.2.beginBody F y.1).1, (y.2.beginBody F y.1).2)
  | .whileDo c => (c.act F P.beginWhile.2).map fun y =>
      (.whileDo P.beginWhile.1 (y.2.beginBody F y.1).1, (y.2.beginBody F y.1).2)

def Slot.begin (P : Parse V) : Slot Unit → Slot Nat × Parse V
  | .assign x => (.assign x, P)
  | .ifCond => (.ifCond, P)
  | .whileCond _ => (.whileCond P.beginWhile.1, P.beginWhile.2)
  | .result => (.result, P)

def openedAct : List Opened → Option (List Branch × Parse V)
  | [] => some ([], (Parser.start V).global)
  | o :: os => (openedAct os).bind fun x => (listAct F x.2 o.before).bind fun P =>
      (o.rule.act F P).map fun y => (y.1 :: x.1, y.2)

def Phase.act (bs : List Branch) (nonempty : Bool) (P : Parse V) : Phase → Option (Parser V)
  | .stmtlist => some ⟨bs, .stmtlist nonempty, P⟩
  | .id x => some ⟨bs, .id x, P⟩
  | .ifKeyword => some ⟨bs, .ifKeyword, P⟩
  | .whileKeyword => some ⟨bs, .whileKeyword P.beginWhile.1, P.beginWhile.2⟩
  | .expr slot e => (e.act (exprActions F V) (slot.begin P).2).map fun x =>
      ⟨bs, .expr (slot.begin P).1 x.1, x.2⟩
  | .body r => (r.act F P).map fun x => ⟨bs, .body x.1, x.2⟩
  | .semi e => (e.act F P).map fun x => ⟨bs, .semi x.1, x.2⟩
  | .done e => (e.act F P).map fun x => ⟨bs, .done, x.2.ret x.1⟩

/-- The parser after the actions of what has been read. -/
def Derivation.act (d : Derivation) : Option (Parser V) :=
  (openedAct F d.opened).bind fun x => (listAct F x.2 d.list).bind fun P =>
    d.phase.act F x.1 d.list.isSome P

theorem build_snoc (l : Option Stmt) (s : Stmt) (P : Parse V) :
    (snoc l s).build F P = (listAct F P l).bind fun P => s.build F P := by
  cases l with
  | none => rfl
  | some l =>
    rw [snoc, Stmt.build, listAct]
    rfl

theorem Rule.build_stmt (r : Rule) (s : Stmt) (P : Parse V) :
    (r.stmt s).build F P = (r.act F P).bind fun x => (s.build F x.2).map (Branch.close · x.1) := by
  cases r with
  | ifThen c =>
    rw [Rule.stmt, Stmt.ifThen_acts, Rule.act]
    cases c.act F P <;> rfl
  | whileDo c =>
    rw [Rule.stmt, Stmt.whileDo_acts, Rule.act]
    cases c.act F P.beginWhile.2 <;> rfl

theorem Slot.stop_begin (slot : Slot Unit) (P : Parse V) : (slot.begin P).1.stop = slot.stop := by
  cases slot <;> rfl

theorem act_toExpr (t : Tree Expressions.Binary Unary Leaf) (P : Parse V) :
    (toExpr t).act F P = t.act (exprActions F V) P := by
  rw [← tree_act, tree_toExpr]

theorem openedAct_cons {o : Opened} {os : List Opened} {bs : List Branch} {P : Parse V}
    (h : openedAct F (o :: os) = some (bs, P)) : ∃ b bs' P₁ P₂, bs = b :: bs' ∧
      openedAct F os = some (bs', P₁) ∧ listAct F P₁ o.before = some P₂ ∧
        o.rule.act F P₂ = some (b, P) := by
  obtain ⟨⟨bs', P₁⟩, hos, h⟩ := Option.bind_eq_some_iff.mp h
  obtain ⟨P₂, hbefore, h⟩ := Option.bind_eq_some_iff.mp h
  obtain ⟨⟨b, P'⟩, hrule, h⟩ := Option.map_eq_some_iff.mp h
  cases h
  exact ⟨b, bs', P₁, P₂, rfl, hos, hbefore, hrule⟩

theorem complete_acts {os : List Opened} {l : Option Stmt} {bs : List Branch} {P₀ P : Parse V}
    (hos : openedAct F os = some (bs, P₀)) (hl : listAct F P₀ l = some P) {slot : Slot Unit}
    {t : Tree Expressions.Binary Unary Leaf} {x : Operand × Parse V}
    (hx : t.act (exprActions F V) (slot.begin P).2 = some x) :
    (Derivation.complete os l (toExpr t) slot).act F =
      some ((slot.begin P).1.complete F bs x.1 x.2) := by
  rw [← act_toExpr] at hx
  cases slot with
  | assign y =>
    have hx' : (toExpr t).act F P = some x := hx
    have hlist : listAct F P₀ (some (snoc l (.assign y (toExpr t)))) =
        some (x.2.assign y x.1) := by
      rw [listAct, build_snoc, hl, Option.bind_some, Stmt.assign_acts, hx']
      rfl
    simp only [Derivation.complete, Derivation.act, hos, Option.bind_some, hlist]
    rfl
  | ifCond =>
    have hx' : (toExpr t).act F P = some x := hx
    simp only [Derivation.complete, Derivation.act, hos, hl, Option.bind_some, Phase.act, Rule.act,
      hx']
    rfl
  | whileCond u =>
    have hx' : (toExpr t).act F P.beginWhile.2 = some x := hx
    simp only [Derivation.complete, Derivation.act, hos, hl, Option.bind_some, Phase.act, Rule.act,
      hx']
    rfl
  | result =>
    have hx' : (toExpr t).act F P = some x := hx
    simp only [Derivation.complete, Derivation.act, hos, hl, Option.bind_some, Phase.act, hx']
    rfl

/-- A step of the parser does what the step of the derivation adds to the trees. -/
theorem Derivation.step_acts {d : Derivation} {s : Parser V} (h : d.act F = some s) (t : Tok) :
    s.step F t =
      match d.step t with
      | none => .error .syntaxError
      | some d' => outcome (d'.act F) := by
  obtain ⟨os, l, phase⟩ := d
  obtain ⟨⟨bs, P₀⟩, hos, h⟩ := Option.bind_eq_some_iff.mp h
  obtain ⟨P, hl, h⟩ := Option.bind_eq_some_iff.mp h
  dsimp only at hos hl h
  have hphase : ∀ phase, Derivation.act F ⟨os, l, phase⟩ = phase.act F bs l.isSome P := by
    intro phase
    simp [Derivation.act, hos, hl]
  have hsnoc : ∀ s, Derivation.act F ⟨os, some (snoc l s), .stmtlist⟩ =
      (s.build F P).map fun P => ⟨bs, .stmtlist true, P⟩ := by
    intro s
    rw [Derivation.act, hos, Option.bind_some, listAct, build_snoc, hl, Option.bind_some]
    cases s.build F P <;> rfl
  cases phase with
  | stmtlist =>
    cases h
    cases t with
    | semi =>
      simp only [Derivation.step, hsnoc]
      rfl
    | expr t =>
      cases t with
      | atom a =>
        cases a with
        | id x =>
          simp only [Derivation.step, hphase]
          rfl
        | immediate n => rfl
      | op c => rfl
      | lparen => rfl
      | rparen => rfl
    | ifKeyword =>
      simp only [Derivation.step, hphase]
      rfl
    | whileKeyword =>
      simp only [Derivation.step, hphase]
      rfl
    | rbrace =>
      cases os with
      | nil =>
        cases hos
        cases l <;> rfl
      | cons o os =>
        obtain ⟨b, bs', P₁, P₂, rfl, hos', hbefore, hrule⟩ := openedAct_cons F hos
        cases l with
        | none => rfl
        | some l =>
          have hbuild : l.build F P₀ = some P := hl
          have hlist : listAct F P₁ (some (snoc o.before (o.rule.stmt l))) =
              some (b.close P) := by
            rw [listAct, build_snoc, hbefore, Option.bind_some, Rule.build_stmt, hrule,
              Option.bind_some, hbuild]
            rfl
          have hact : Derivation.act F ⟨os, some (snoc o.before (o.rule.stmt l)), .stmtlist⟩ =
              some ⟨bs', .stmtlist true, b.close P⟩ := by
            simp [Derivation.act, hos', hlist, Phase.act]
          simp only [Derivation.step, hact]
          rfl
    | returnKeyword =>
      cases os with
      | nil =>
        cases hos
        cases l with
        | none => rfl
        | some l =>
          simp only [Derivation.step, hphase]
          rfl
      | cons o os =>
        obtain ⟨b, bs', P₁, P₂, rfl, -⟩ := openedAct_cons F hos
        cases l <;> rfl
    | assign => rfl
    | lbrace => rfl
  | id x =>
    cases h
    cases t with
    | assign =>
      simp only [Derivation.step, hphase]
      rfl
    | _ => rfl
  | ifKeyword =>
    cases h
    cases t with
    | expr t =>
      cases t with
      | lparen =>
        simp only [Derivation.step, hphase]
        rfl
      | _ => rfl
    | _ => rfl
  | whileKeyword =>
    cases h
    cases t with
    | expr t =>
      cases t with
      | lparen =>
        simp only [Derivation.step, hphase]
        rfl
      | _ => rfl
    | _ => rfl
  | expr slot e =>
    obtain ⟨⟨r, P'⟩, hr, h⟩ := Option.map_eq_some_iff.mp h
    cases h
    have hfinish := finish_acts hr
    cases he : if t = slot.stop then finish e else none with
    | some e' =>
      obtain ⟨rfl, he'⟩ : t = slot.stop ∧ finish e = some e' := by
        split at he
        · next hstop => exact ⟨hstop, he⟩
        · cases he
      obtain ⟨x, hx⟩ := Option.isSome_iff_exists.mp
        (isSome_act_finish he' (Option.isSome_iff_exists.mpr ⟨_, hr⟩))
      rw [he', Option.bind_some, hx] at hfinish
      have hstep : Parser.step F ⟨bs, .expr (slot.begin P).1 r, P'⟩ (slot.begin P).1.stop =
          .ok ((slot.begin P).1.complete F bs x.1 x.2) := Parser.step_expr_stop F hfinish
      rw [slot.stop_begin] at hstep
      rw [hstep]
      rw [Derivation.step_expr_stop he']
      simp only [complete_acts F hos hl hx]
      rfl
    | none =>
      have hnone : t = (slot.begin P).1.stop → finishActing (exprActions F V) r P' = none := by
        intro hstop
        rw [slot.stop_begin] at hstop
        rw [if_pos hstop] at he
        rw [hfinish, he]
        rfl
      cases t with
      | expr t =>
        rw [Parser.step_expr F hnone, Lib.Precedence.step_acts hr (S := spelling) (R := resolution)]
        rw [Derivation.step_expr fun hstop => (if_pos hstop).symm.trans he]
        cases hstep : Lib.Precedence.step spelling resolution e t with
        | none => rfl
        | some e' =>
          simp only [Option.map_some, hphase, Phase.act]
          cases e'.act (exprActions F V) (slot.begin P).2 <;> rfl
      | semi => cases slot <;> simp_all [Parser.step, Derivation.step, Slot.begin, Slot.stop]
      | _ => cases slot <;> rfl
  | body r =>
    obtain ⟨⟨b, P'⟩, hr, h⟩ := Option.map_eq_some_iff.mp h
    cases h
    cases t with
    | lbrace =>
      have hopened : openedAct F (⟨l, r⟩ :: os) = some (b :: bs, P') := by
        simp [openedAct, hos, hl, hr]
      have hact : Derivation.act F ⟨⟨l, r⟩ :: os, none, .stmtlist⟩ =
          some ⟨b :: bs, .stmtlist false, P'⟩ := by
        rw [Derivation.act, hopened]
        rfl
      simp only [Derivation.step, hact]
      rfl
    | _ => rfl
  | semi e =>
    obtain ⟨⟨v, P'⟩, hv, h⟩ := Option.map_eq_some_iff.mp h
    cases h
    cases t with
    | rbrace =>
      simp only [Derivation.step, hphase, Phase.act, hv]
      rfl
    | _ => rfl
  | done e =>
    obtain ⟨⟨v, P'⟩, hv, h⟩ := Option.map_eq_some_iff.mp h
    cases h
    cases t <;> rfl

end

/-! ### Their texts -/

def Rule.tokens : Rule → List Tok
  | .ifThen c => .ifKeyword :: .expr .lparen :: (c.text.map .expr ++ [.expr .rparen])
  | .whileDo c => .whileKeyword :: .expr .lparen :: (c.text.map .expr ++ [.expr .rparen])

def listTokens : Option Stmt → List Tok
  | none => []
  | some s => s.tokens

def openedTokens : List Opened → List Tok
  | [] => [.lbrace]
  | o :: os => openedTokens os ++ (listTokens o.before ++ (o.rule.tokens ++ [.lbrace]))

def Slot.tokens : Slot Unit → List Tok
  | .assign x => [.expr (.atom (.id x)), .assign]
  | .ifCond => [.ifKeyword, .expr .lparen]
  | .whileCond _ => [.whileKeyword, .expr .lparen]
  | .result => [.returnKeyword]

def Phase.tokens : Phase → List Tok
  | .stmtlist => []
  | .id x => [.expr (.atom (.id x))]
  | .ifKeyword => [.ifKeyword]
  | .whileKeyword => [.whileKeyword]
  | .expr slot e => slot.tokens ++ (e.tokens spelling).map .expr
  | .body r => r.tokens
  | .semi e => .returnKeyword :: (e.text.map .expr ++ [.semi])
  | .done e => .returnKeyword :: (e.text.map .expr ++ [.semi, .rbrace])

/-- The tokens that have been read. -/
def Derivation.tokens (d : Derivation) : List Tok :=
  openedTokens d.opened ++ (listTokens d.list ++ d.phase.tokens)

theorem listTokens_snoc (l : Option Stmt) (s : Stmt) :
    listTokens (some (snoc l s)) = listTokens l ++ s.tokens := by
  cases l <;> rfl

theorem Rule.tokens_stmt (r : Rule) (s : Stmt) :
    (r.stmt s).tokens = r.tokens ++ .lbrace :: (s.tokens ++ [.rbrace]) := by
  cases r <;> simp [Rule.stmt, Stmt.tokens, Rule.tokens]

theorem text_toExpr (t : Tree Expressions.Binary Unary Leaf) :
    (toExpr t).text = t.tokens spelling := by
  rw [Expr.text, tree_toExpr]

theorem Derivation.tokens_complete (os : List Opened) (l : Option Stmt) (e : Expr)
    (slot : Slot Unit) : (complete os l e slot).tokens =
      openedTokens os ++ (listTokens l ++ (slot.tokens ++ (e.text.map .expr ++ [slot.stop]))) := by
  cases slot with
  | assign x => simp [complete, tokens, listTokens_snoc, Phase.tokens, Stmt.tokens, Slot.tokens,
      Slot.stop]
  | ifCond | whileCond u =>
    simp [complete, tokens, Phase.tokens, Rule.tokens, Slot.tokens, Slot.stop]
  | result => simp [complete, tokens, Phase.tokens, Slot.tokens, Slot.stop]

/-- A step adds its token. -/
theorem Derivation.step_tokens {d d' : Derivation} {t : Tok} (h : d.step t = some d') :
    d'.tokens = d.tokens ++ [t] := by
  unfold step at h
  split at h
  · cases h
    simp [tokens, listTokens_snoc, Stmt.tokens, Phase.tokens]
  · cases h
    simp [tokens, Phase.tokens]
  · cases h
    simp [tokens, Phase.tokens]
  · cases h
    simp [tokens, Phase.tokens]
  · next o os s =>
    cases h
    have hlist : listTokens (some s) = s.tokens := rfl
    simp [tokens, openedTokens, listTokens_snoc, hlist, Rule.tokens_stmt, Phase.tokens]
  · cases h
    simp [tokens, Phase.tokens, Slot.tokens]
    rfl
  · cases h
    simp [tokens, Phase.tokens, Slot.tokens]
    rfl
  · cases h
    simp [tokens, Phase.tokens, Slot.tokens]
    rfl
  · cases h
    simp [tokens, Phase.tokens, Slot.tokens]
    rfl
  · next t os l slot e =>
    split at h
    · next e' he =>
      cases h
      split at he
      · next hstop =>
        rw [tokens_complete, text_toExpr, finish_tokens he]
        simp [tokens, Phase.tokens, hstop]
      · cases he
    · next t' hnone =>
      obtain ⟨e', he', rfl⟩ := Option.map_eq_some_iff.mp h
      have htokens := Lib.Precedence.step_tokens he'
      simp [tokens, Phase.tokens, htokens]
    · cases h
  · cases h
    simp [tokens, openedTokens, listTokens, Phase.tokens]
  · cases h
    simp [tokens, Phase.tokens]
  · cases h

/-! ### Derivations of programs -/

/-- A condition of `if` or `while`. -/
def Rule.cond : Rule → Expr
  | .ifThen c | .whileDo c => c

/-- What has been read after the last statement is there by the declarations, and the
result of the program is read at the top level. -/
def Phase.Valid (os : List Opened) (l : Option Stmt) : Phase → Prop
  | .stmtlist | .id _ | .ifKeyword | .whileKeyword => True
  | .expr slot e => (∃ ts, run spelling resolution .initial ts = some e) ∧
      (slot = .result → os = [] ∧ l.isSome)
  | .body r => r.cond.Declared
  | .semi e | .done e => e.Declared ∧ os = [] ∧ l.isSome

structure Derivation.Valid (d : Derivation) : Prop where
  before : ∀ o ∈ d.opened, ∀ s ∈ o.before, s.Declared
  cond : ∀ o ∈ d.opened, o.rule.cond.Declared
  list : ∀ s ∈ d.list, s.Declared
  phase : d.phase.Valid d.opened d.list

theorem declared_snoc {l : Option Stmt} {s : Stmt} (hl : ∀ s ∈ l, s.Declared) (hs : s.Declared) :
    ∀ s' ∈ some (snoc l s), s'.Declared := by
  rintro s' ⟨⟩
  cases l with
  | none => exact hs
  | some l => exact ⟨hl l rfl, hs⟩

theorem Rule.declared_stmt {r : Rule} {s : Stmt} (hr : r.cond.Declared) (hs : s.Declared) :
    (r.stmt s).Declared := by
  cases r <;> exact ⟨hr, hs⟩

/-- The tree of an expression that has been read to its end. -/
theorem declared_toExpr {ts : Text} {e : Lib.Precedence.State Expressions.Binary Unary Leaf}
    {t : Tree Expressions.Binary Unary Leaf} (hrun : run spelling resolution .initial ts = some e)
    (he : finish e = some t) : (toExpr t).Declared := by
  have hparse : parse spelling resolution ts = some t := by
    rw [parse, hrun]
    exact he
  rw [Expr.Declared, text_toExpr, tree_toExpr, parse_tokens hparse]
  exact hparse

theorem Derivation.Valid.complete {os : List Opened} {l : Option Stmt} {slot : Slot Unit}
    {e : Lib.Precedence.State Expressions.Binary Unary Leaf}
    (h : Valid ⟨os, l, .expr slot e⟩) {t : Tree Expressions.Binary Unary Leaf}
    (he : finish e = some t) : (complete os l (toExpr t) slot).Valid := by
  obtain ⟨⟨ts, hts⟩, hresult⟩ := h.phase
  have ht := declared_toExpr hts he
  cases slot with
  | assign x => exact ⟨h.before, h.cond, declared_snoc h.list ht, trivial⟩
  | ifCond | whileCond u => exact ⟨h.before, h.cond, h.list, ht⟩
  | result => exact ⟨h.before, h.cond, h.list, ht, hresult rfl⟩

theorem Derivation.Valid.step {d d' : Derivation} (hd : d.Valid) {t : Tok}
    (h : d.step t = some d') : d'.Valid := by
  have hinitial : ∃ ts : Text, run spelling resolution .initial ts =
      some (Lib.Precedence.State.initial : Lib.Precedence.State Expressions.Binary Unary Leaf) :=
    ⟨[], rfl⟩
  unfold Derivation.step at h
  split at h
  · cases h
    exact ⟨hd.before, hd.cond, declared_snoc hd.list trivial, trivial⟩
  · cases h
    exact ⟨hd.before, hd.cond, hd.list, trivial⟩
  · cases h
    exact ⟨hd.before, hd.cond, hd.list, trivial⟩
  · cases h
    exact ⟨hd.before, hd.cond, hd.list, trivial⟩
  · next o os s =>
    cases h
    have hstmt := Rule.declared_stmt (hd.cond o List.mem_cons_self) (hd.list s rfl)
    exact ⟨fun o' ho' => hd.before o' (List.mem_cons_of_mem _ ho'),
      fun o' ho' => hd.cond o' (List.mem_cons_of_mem _ ho'),
      declared_snoc (hd.before o List.mem_cons_self) hstmt, trivial⟩
  · cases h
    exact ⟨hd.before, hd.cond, hd.list, hinitial, fun _ => ⟨rfl, rfl⟩⟩
  · cases h
    exact ⟨hd.before, hd.cond, hd.list, hinitial, fun h => by cases h⟩
  · cases h
    exact ⟨hd.before, hd.cond, hd.list, hinitial, fun h => by cases h⟩
  · cases h
    exact ⟨hd.before, hd.cond, hd.list, hinitial, fun h => by cases h⟩
  · next t os l slot e =>
    split at h
    · next e' he =>
      cases h
      split at he
      · exact hd.complete he
      · cases he
    · next t' hnone =>
      obtain ⟨e', he', rfl⟩ := Option.map_eq_some_iff.mp h
      obtain ⟨⟨ts, hts⟩, hresult⟩ := hd.phase
      refine ⟨hd.before, hd.cond, hd.list, ⟨ts ++ [t'], ?_⟩, hresult⟩
      rw [run_append, hts]
      simp [he']
    · cases h
  · next os l r =>
    cases h
    refine ⟨?_, ?_, (fun s hs => by cases hs), trivial⟩
    · exact List.forall_mem_cons.mpr ⟨hd.list, hd.before⟩
    · exact List.forall_mem_cons.mpr ⟨hd.phase, hd.cond⟩
  · cases h
    exact ⟨hd.before, hd.cond, hd.list, hd.phase⟩
  · cases h

end CourseCompilers.Structured
