import CourseCompilers.Expressions.Regrouping
import CourseCompilers.Lib.Prog

/-! The calculator of the parser lecture: expressions over 32-bit `int`, evaluated by
the actions while the line is read. The division by zero is caught; the machine also
traps when it divides the least `int` by -1. -/

namespace CourseCompilers.Calculator
open Lib Lib.Precedence Expressions

inductive Symbol where
  | plus
  | minus
  | multiply
  | divide
  | decrement
  deriving DecidableEq, Repr

inductive Unary where
  | minus
  | decrement
  deriving DecidableEq, Repr

def spelling : Spelling Symbol Binary Unary where
  bin
    | .plus => .plus
    | .minus => .minus
    | .multiply => .multiply
    | .divide => .divide
  pre
    | .minus => .minus
    | .decrement => .decrement
  asBin
    | .plus => some .plus
    | .minus => some .minus
    | .multiply => some .multiply
    | .divide => some .divide
    | .decrement => none
  asPre
    | .minus => some .minus
    | .decrement => some .decrement
    | _ => none
  asBin_eq_some := by
    intro s o
    cases s <;> cases o <;> simp
  asPre_eq_some := by
    intro s u
    cases s <;> cases u <;> simp

/-- `%left DECREMENT`, `%left PLUS MINUS`, `%left MULTIPLY DIVIDE`. -/
def declarations : Declarations Symbol :=
  [(.left, [.decrement]), (.left, [.plus, .minus]), (.left, [.multiply, .divide])]

def resolution : Resolution Binary Unary := declarations.resolution spelling

theorem resolution_declared : Declared .minus resolution where
  bin o next := by cases o <;> cases next <;> decide
  sign next := by cases next <;> decide
  other u next hu := by
    cases u with
    | minus => exact absurd rfl hu
    | decrement => cases next <;> decide

/-- A `NUMBER` is the `int` of its token. -/
abbrev Expr := Tree Binary Unary (BitVec 32)

abbrev Text := List (Token Symbol (BitVec 32))

def parseExpr (ts : Text) : Option Expr := parse spelling resolution ts

/-! ## The actions -/

inductive Event where
  /-- The machine executes a division. -/
  | divide (x y : BitVec 32)
  /-- The guard of the division by zero. -/
  | message
  /-- The value of a line. -/
  | result (n : Int)
  deriving DecidableEq, Repr

/-- What is printed. -/
def Event.text : Event → Option String
  | .divide _ _ => none
  | .message => some "Don't divide by zero please!\n"
  | .result n => some ("=" ++ toString n ++ "\n")

/-- The machine traps at this division. -/
def Traps (x y : BitVec 32) : Prop := y = 0 ∨ (x = BitVec.intMin 32 ∧ y = -1)

instance (x y : BitVec 32) : Decidable (Traps x y) := inferInstanceAs (Decidable (_ ∨ _))

/-- `/` of C on the machine. -/
def quotient (x y : BitVec 32) : Prog Unit Event (BitVec 32) := do
  Prog.observe (.divide x y)
  if Traps x y then Prog.crash else return x.sdiv y

def guardedQuotient (x y : BitVec 32) : Prog Unit Event (BitVec 32) :=
  if y ≠ 0 then quotient x y
  else do
    Prog.observe .message
    return 0

def Unary.apply : Unary → BitVec 32 → BitVec 32
  | .minus, x => -x
  | .decrement, x => x - 1

def action : Binary → BitVec 32 → BitVec 32 → Prog Unit Event (BitVec 32)
  | .plus, x, y => return x + y
  | .minus, x, y => return x - y
  | .multiply, x, y => return x * y
  | .divide, x, y => guardedQuotient x y

/-- The actions of an expression, run as its rules are reduced. -/
def eval : Expr → Prog Unit Event (BitVec 32)
  | .atom n => return n
  | .paren e => eval e
  | .pre u e => do
      let x ← eval e
      return u.apply x
  | .bin o l r => do
      let x ← eval l
      let y ← eval r
      action o x y

/-- `expr NEWLINE`. -/
def line (e : Expr) : Prog Unit Event Unit := do
  let x ← eval e
  Prog.observe (.result x.toInt)

/-- `expr_list`, whose blank lines do nothing. -/
def session : List (Option Expr) → Prog Unit Event Unit
  | [] => return
  | none :: rest => session rest
  | some e :: rest => do
      line e
      session rest

/-- What a line prints. -/
def printed (e : Expr) : List String := ((line e).run ()).1.filterMap Event.text

/-! ## Which lines trap -/

/-- No event is a division that traps. -/
def Event.Safe : Event → Prop
  | .divide x y => ¬ Traps x y
  | _ => True

/-- Arithmetic modulo 2^32 where every quotient has a value, a quotient by zero zero. -/
def wrap : Binary → BitVec 32 → BitVec 32 → BitVec 32
  | .plus, x, y => x + y
  | .minus, x, y => x - y
  | .multiply, x, y => x * y
  | .divide, x, y => if y = 0 then 0 else x.sdiv y

def wrapped : Expr → BitVec 32
  | .atom n => n
  | .paren e => wrapped e
  | .pre u e => u.apply (wrapped e)
  | .bin o l r => wrap o (wrapped l) (wrapped r)

/-- No quotient divides the least `int` by -1. -/
def Divides : Expr → Prop
  | .atom _ => True
  | .paren e | .pre _ e => Divides e
  | .bin o l r => Divides l ∧ Divides r ∧
      (o = .divide → ¬ (wrapped l = BitVec.intMin 32 ∧ wrapped r = -1))

theorem guardedQuotient_meets (x y : BitVec 32) :
    (guardedQuotient x y).Meets Event.Safe () (¬ (x = BitVec.intMin 32 ∧ y = -1))
      (fun z _ => z = wrap .divide x y) := by
  unfold guardedQuotient
  split
  · next hy =>
    unfold quotient
    by_cases ht : Traps x y
    · have hmin : x = BitVec.intMin 32 ∧ y = -1 := ht.resolve_left hy
      rw [if_pos ht]
      exact (Prog.Settles.observe_bind Prog.Settles.crash).iff
        (iff_of_false (fun h => h.1 ht) fun h => h hmin) (iff_of_false id fun h => h hmin)
    · have hmin : ¬ (x = BitVec.intMin 32 ∧ y = -1) := fun h => ht (.inr h)
      rw [if_neg ht]
      have hz : x.sdiv y = wrap .divide x y := (if_neg hy).symm
      exact Prog.Settles.iff (Prog.Settles.observe_bind (Prog.Settles.pure hz))
        (iff_of_true ⟨ht, trivial⟩ hmin) (iff_of_true trivial hmin)
  · next hy =>
    have hy : y = 0 := not_not.mp hy
    have hmin : ¬ (x = BitVec.intMin 32 ∧ y = -1) := by
      rintro ⟨-, h⟩
      exact absurd (hy.symm.trans h) (by decide)
    have hz : 0 = wrap .divide x y := (if_pos hy).symm
    exact Prog.Settles.iff (Prog.Settles.observe_bind (Prog.Settles.pure hz))
      (iff_of_true ⟨trivial, trivial⟩ hmin) (iff_of_true trivial hmin)

theorem action_meets (o : Binary) (x y : BitVec 32) :
    (action o x y).Meets Event.Safe () (o = .divide → ¬ (x = BitVec.intMin 32 ∧ y = -1))
      (fun z _ => z = wrap o x y) := by
  cases o with
  | plus | minus | multiply =>
    exact Prog.Settles.iff (Prog.Settles.pure rfl) (by simp) (by simp)
  | divide => exact (guardedQuotient_meets x y).iff (by simp) (by simp)

/-- An expression is evaluated to its wrapped value unless a quotient traps. -/
theorem eval_meets (e : Expr) :
    (eval e).Meets Event.Safe () (Divides e) (fun x _ => x = wrapped e) := by
  induction e with
  | atom n => exact Prog.Settles.pure rfl
  | paren e ih => exact ih
  | pre u e ih =>
    refine ih.result ?_
    rintro x _ rfl
    rfl
  | bin o l r ihl ihr =>
    refine ihl.bind ?_
    rintro x _ rfl
    refine ihr.bind ?_
    rintro y _ rfl
    exact action_meets o _ _

theorem line_meets (e : Expr) :
    (line e).Meets Event.Safe () (Divides e) (fun _ _ => True) :=
  (eval_meets e).before fun _ _ _ =>
    (Prog.Settles.observe trivial).iff (by simp [Event.Safe]) Iff.rfl

/-- A whole session: it traps if and only if one of its lines does. -/
theorem session_meets (ls : List (Option Expr)) :
    (session ls).Meets Event.Safe () (∀ e, some e ∈ ls → Divides e) (fun _ _ => True) := by
  induction ls with
  | nil => exact (Prog.Settles.pure trivial).iff (by simp) (by simp)
  | cons l ls ih =>
    cases l with
    | none => exact Prog.Settles.iff ih (by simp) (by simp)
    | some e =>
      refine Prog.Settles.iff ((line_meets e).bind fun _ _ _ => ih) ?_ ?_ <;> simp

instance decDivides : (e : Expr) → Decidable (Divides e)
  | .atom _ => inferInstanceAs (Decidable True)
  | .paren e | .pre _ e => decDivides e
  | .bin o l r =>
      have := decDivides l
      have := decDivides r
      inferInstanceAs (Decidable (_ ∧ _ ∧
        (o = .divide → ¬ (wrapped l = BitVec.intMin 32 ∧ wrapped r = -1))))

/-- The divisions that a line executes do not trap if and only if none of its quotients
is the least `int` by -1. -/
theorem line_safe_iff (ts : Text) (hd : Derives spelling ts) :
    ∃ e, parseExpr ts = some e ∧
      ((∀ x y, .divide x y ∈ ((line e).run ()).1 → ¬ Traps x y) ↔ Divides e) := by
  obtain ⟨e, he⟩ := hd.parses resolution
  refine ⟨e, he, ?_⟩
  rw [← (line_meets e).events]
  constructor
  · rintro h (⟨x, y⟩ | _ | n) hev
    · exact h x y hev
    · trivial
    · trivial
  · exact fun h x y hev => h _ hev

/-- `7 / (3 - 3) + --8 / -2`. -/
def guardedLine : Expr :=
  .bin .plus (.bin .divide (.atom 7) (.paren (.bin .minus (.atom 3) (.atom 3))))
    (.pre .decrement (.bin .divide (.atom 8) (.pre .minus (.atom 2))))

theorem line_safe_iff_guardedLine :
    ∃ e, parseExpr (guardedLine.tokens spelling) = some e ∧
      ∀ x y, .divide x y ∈ ((line e).run ()).1 → ¬ Traps x y := by
  obtain ⟨e, he, h⟩ := line_safe_iff (guardedLine.tokens spelling) ⟨guardedLine, rfl⟩
  have hguarded : guardedLine = e := Option.some.inj ((by decide : some guardedLine = _).trans he)
  subst hguarded
  exact ⟨_, he, h.mpr (by decide)⟩

/-- `(-2147483647 - 1) / -1`: the least `int` divided by -1. -/
theorem line_not_safe :
    ¬ ∀ ts : Text, Derives spelling ts → ∀ e, parseExpr ts = some e →
      ∀ x y, .divide x y ∈ ((line e).run ()).1 → ¬ Traps x y := by
  intro h
  let e : Expr :=
    .bin .divide (.paren (.bin .minus (.pre .minus (.atom 2147483647)) (.atom 1)))
      (.pre .minus (.atom 1))
  exact h (e.tokens spelling) ⟨e, rfl⟩ e (by decide) (BitVec.intMin 32) (-1) (by decide) (by decide)

/-! ## What a line prints -/

/-- In C the operand of `--` must be a variable. -/
def Unary.inC : Unary → Int → Option Int
  | .minus, n => checked 32 (-n)
  | .decrement, _ => none

def prefixes : Prefixes Unary 32 where
  neg := .minus
  apply := Unary.apply
  inC := Unary.inC
  apply_neg _ := rfl
  inC_neg _ := rfl
  inRange := by
    intro u n m h
    cases u with
    | minus => exact inRange_of_checked h
    | decrement => cases h
  apply_ofInt := by
    intro u n m _ h
    cases u with
    | minus =>
      obtain ⟨-, rfl⟩ := checked_eq_some.mp h
      exact BitVec.ofInt_neg.symm
    | decrement => cases h

theorem guardedQuotient_run {x y z : BitVec 32} (h : Ir.sdivChecked x y = some z) :
    (guardedQuotient x y).run () = ([.divide x y], some (z, ())) := by
  unfold Ir.sdivChecked at h
  split at h
  · cases h
  · next ht =>
    cases h
    have hy : y ≠ 0 := fun hy => ht (.inl hy)
    have ht : ¬ Traps x y := ht
    unfold guardedQuotient quotient
    rw [if_pos hy, if_neg ht]
    rfl

/-- Where every quotient is defined, an expression is evaluated without a message. -/
theorem eval_run {e : Expr} {x : BitVec 32} (h : value prefixes Ir.sdivChecked id e = some x) :
    ∃ es, (eval e).run () = (es, some (x, ())) ∧ es.filterMap Event.text = [] := by
  induction e generalizing x with
  | atom n =>
    cases h
    exact ⟨[], rfl, rfl⟩
  | paren e ih => exact ih h
  | pre u e ih =>
    obtain ⟨y, hy, rfl⟩ := Option.map_eq_some_iff.mp h
    obtain ⟨es, hrun, hes⟩ := ih hy
    refine ⟨es, ?_, hes⟩
    rw [eval, Prog.run_bind_of_result hrun]
    exact Prod.ext (List.append_nil _) rfl
  | bin o l r ihl ihr =>
    obtain ⟨a, ha, h⟩ := Option.bind_eq_some_iff.mp h
    obtain ⟨b, hb, h⟩ := Option.bind_eq_some_iff.mp h
    obtain ⟨es, hl, hes⟩ := ihl ha
    obtain ⟨fs, hr, hfs⟩ := ihr hb
    have haction : ∃ gs, (action o a b).run () = (gs, some (x, ())) ∧
        gs.filterMap Event.text = [] := by
      cases o with
      | plus | minus | multiply =>
        cases h
        exact ⟨[], rfl, rfl⟩
      | divide => exact ⟨_, guardedQuotient_run h, rfl⟩
    obtain ⟨gs, ho, hgs⟩ := haction
    refine ⟨es ++ (fs ++ gs), ?_, by simp [hes, hfs, hgs]⟩
    rw [eval, Prog.run_bind_of_result hl, Prog.run_bind_of_result hr, ho]

theorem line_run {e : Expr} {v : Int} (hv : InRange 32 v)
    (h : value prefixes Ir.sdivChecked id e = some (BitVec.ofInt 32 v)) :
    printed e = ["=" ++ toString v ++ "\n"] ∧ ((line e).run ()).2.isSome := by
  obtain ⟨es, hrun, hes⟩ := eval_run h
  have hline : (line e).run () = (es ++ [.result v], some ((), ())) := by
    rw [line, Prog.run_bind_of_result hrun, toInt_ofInt (by decide) hv]
    rfl
  constructor
  · rw [printed, hline, List.filterMap_append, hes]
    rfl
  · rw [hline]
    rfl

/-- A line of the calculator has one meaning in C, and where the regrouping does no harm
the line prints the C value and nothing else. -/
theorem line_prints_C (ts : Text) (hd : Derives spelling ts) :
    ∃ e c, parseExpr ts = some e ∧ Reads spelling levels ts c ∧
      (∀ c', Reads spelling levels ts c' → c' = c) ∧
      ∀ v, Harmless prefixes id c → valueC prefixes id c = some v →
        printed e = ["=" ++ toString v ++ "\n"] ∧ ((line e).run ()).2.isSome := by
  obtain ⟨e, c, he, hc, huniq, hval⟩ :=
    parse_value_of_harmless (P := prefixes) (by decide) (fun h => h) resolution_declared hd
  exact ⟨e, c, he, hc, huniq, fun v hh hv => line_run (inRange_of_valueC hv) (hval id v hh hv)⟩

/-- `-6 * 7 / 4 - 1`. -/
def negatedProduct : Expr :=
  .bin .minus
    (.bin .divide (.bin .multiply (.pre .minus (.atom 6)) (.atom 7)) (.atom 4)) (.atom 1)

theorem line_prints_C_negatedProduct :
    ∃ e, parseExpr (negatedProduct.tokens spelling) = some e ∧ e ≠ negatedProduct ∧
      printed e = ["=" ++ toString (-11 : Int) ++ "\n"] := by
  obtain ⟨e, c, he, -, huniq, hval⟩ :=
    line_prints_C (negatedProduct.tokens spelling) ⟨negatedProduct, rfl⟩
  have hc : negatedProduct = c := huniq _ ⟨by decide, rfl⟩
  subst hc
  refine ⟨e, he, ?_, (hval (-11) (by decide) (by decide)).1⟩
  rintro rfl
  exact absurd he (by decide)

/-- `12 / -2 * 3` is -18 in C; the calculator divides by `-(2 * 3)`. -/
theorem line_not_prints_C :
    ¬ ∀ ts : Text, Derives spelling ts → ∀ e c, parseExpr ts = some e →
      Reads spelling levels ts c → ∀ v, valueC prefixes id c = some v →
        printed e = ["=" ++ toString v ++ "\n"] := by
  intro h
  let c : Expr :=
    .bin .multiply (.bin .divide (.atom 12) (.pre .minus (.atom 2))) (.atom 3)
  let e : Expr :=
    .bin .divide (.atom 12) (.pre .minus (.bin .multiply (.atom 2) (.atom 3)))
  have := h (c.tokens spelling) ⟨c, rfl⟩ e c (by decide) ⟨by decide, rfl⟩ (-18) (by decide)
  exact absurd this (by decide)

end CourseCompilers.Calculator
