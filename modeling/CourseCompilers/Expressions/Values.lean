import CourseCompilers.Ir.Machine
import CourseCompilers.Lib.Precedence

/-! Arithmetic expressions and their values: what C says, where there is a value only
if nothing overflows and nothing is divided by zero, and what the actions of a parser
compute on machine words. -/

namespace CourseCompilers.Expressions
open Lib.Precedence Ir

inductive Binary where
  | plus
  | minus
  | multiply
  | divide
  deriving DecidableEq, Repr

/-- In C the prefix operators bind tightest, then `*` and `/`, then `+` and `-`. -/
def levels : Levels Binary where
  level
    | .plus | .minus => 0
    | .multiply | .divide => 1
  top := 2
  level_lt_top o := by cases o <;> decide

theorem level_eq_zero_or_one (o : Binary) : levels.level o = 0 ∨ levels.level o = 1 := by
  cases o <;> decide

/-! ## Integers of a width -/

def InRange (w : Nat) (n : Int) : Prop := -2 ^ (w - 1) ≤ n ∧ n < 2 ^ (w - 1)

instance (w : Nat) (n : Int) : Decidable (InRange w n) := inferInstanceAs (Decidable (_ ∧ _))

/-- The result of a C operation: none if it overflows. -/
def checked (w : Nat) (n : Int) : Option Int := if InRange w n then some n else none

theorem checked_eq_some {w : Nat} {n m : Int} : checked w n = some m ↔ InRange w n ∧ n = m := by
  simp [checked]

theorem inRange_of_checked {w : Nat} {n m : Int} (h : checked w n = some m) : InRange w m := by
  obtain ⟨hn, rfl⟩ := checked_eq_some.mp h
  exact hn

theorem inRange_toInt {w : Nat} (x : BitVec w) : InRange w x.toInt :=
  ⟨x.le_toInt, x.toInt_lt⟩

theorem InRange.zero (w : Nat) : InRange w 0 := by
  have : (0 : Int) < 2 ^ (w - 1) := Int.pow_pos (by decide)
  constructor <;> omega

theorem InRange.neg_one (w : Nat) : InRange w (-1) := by
  have : (0 : Int) < 2 ^ (w - 1) := Int.pow_pos (by decide)
  constructor <;> omega

theorem InRange.least (w : Nat) : InRange w (-2 ^ (w - 1)) := by
  have : (0 : Int) < 2 ^ (w - 1) := Int.pow_pos (by decide)
  constructor <;> omega

section
variable {w : Nat} (hw : 0 < w)
include hw

theorem toInt_ofInt {n : Int} (h : InRange w n) : (BitVec.ofInt w n).toInt = n :=
  BitVec.toInt_ofInt_eq_self hw h.1 h.2

theorem ofInt_inj {n m : Int} (hn : InRange w n) (hm : InRange w m)
    (h : BitVec.ofInt w n = BitVec.ofInt w m) : n = m := by
  rw [← toInt_ofInt hw hn, h, toInt_ofInt hw hm]

theorem ofInt_least : BitVec.ofInt w (-2 ^ (w - 1)) = BitVec.intMin w := by
  apply BitVec.eq_of_toInt_eq
  rw [toInt_ofInt hw (InRange.least w), BitVec.toInt_intMin_of_pos hw]

/-- A quotient that C allows is the one of the machine words. -/
theorem sdivChecked_ofInt {a b q : Int} (ha : InRange w a) (hb : InRange w b) (h0 : b ≠ 0)
    (hq : checked w (a.tdiv b) = some q) :
    sdivChecked (BitVec.ofInt w a) (BitVec.ofInt w b) = some (BitVec.ofInt w q) := by
  obtain ⟨hr, rfl⟩ := checked_eq_some.mp hq
  have hb0 : BitVec.ofInt w b ≠ 0 := fun h =>
    h0 (ofInt_inj hw hb (InRange.zero w) (by rw [h]; simp))
  have hne : BitVec.ofInt w a ≠ BitVec.intMin w ∨ BitVec.ofInt w b ≠ -1 := by
    by_contra! h
    rw [← ofInt_least hw] at h
    have ha' := ofInt_inj hw ha (InRange.least w) h.1
    have hb' := ofInt_inj hw hb (InRange.neg_one w) (by rw [h.2, BitVec.ofInt_neg]; simp)
    subst ha' hb'
    have hlt := hr.2
    simp at hlt
  rw [sdivChecked, if_neg (by rintro (h | h) <;> [exact hb0 h; exact hne.elim (· h.1) (· h.2)])]
  congr 1
  apply BitVec.eq_of_toInt_eq
  rw [BitVec.toInt_sdiv_of_ne_or_ne _ _ hne, toInt_ofInt hw ha, toInt_ofInt hw hb,
    toInt_ofInt hw hr]

end

/-! ## Values -/

/-- The prefix operators of a grammar: what their actions compute and what C says of
them, the sign among them. -/
structure Prefixes (υ : Type) (w : Nat) where
  neg : υ
  apply : υ → BitVec w → BitVec w
  inC : υ → Int → Option Int
  apply_neg : ∀ x, apply neg x = -x
  inC_neg : ∀ n, inC neg n = checked w (-n)
  inRange : ∀ {u n m}, inC u n = some m → InRange w m
  apply_ofInt : ∀ {u n m}, InRange w n → inC u n = some m →
    apply u (BitVec.ofInt w n) = BitVec.ofInt w m

def Binary.inC (w : Nat) : Binary → Int → Int → Option Int
  | .plus, a, b => checked w (a + b)
  | .minus, a, b => checked w (a - b)
  | .multiply, a, b => checked w (a * b)
  | .divide, a, b => if b = 0 then none else checked w (a.tdiv b)

/-- The actions of the binary operators; `div` is the one of the quotient. -/
def Binary.apply {w : Nat} (div : BitVec w → BitVec w → Option (BitVec w)) :
    Binary → BitVec w → BitVec w → Option (BitVec w)
  | .plus, x, y => some (x + y)
  | .minus, x, y => some (x - y)
  | .multiply, x, y => some (x * y)
  | .divide, x, y => div x y

section
variable {υ α : Type} {w : Nat} (P : Prefixes υ w) (div : BitVec w → BitVec w → Option (BitVec w))
  (ρ : α → BitVec w)

/-- The value of an expression in C, none where C leaves it undefined. -/
def valueC : Tree Binary υ α → Option Int
  | .atom a => some (ρ a).toInt
  | .paren e => valueC e
  | .pre u e => (valueC e).bind (P.inC u)
  | .bin o l r => (valueC l).bind fun a => (valueC r).bind (o.inC w a)

/-- The value that the actions compute. -/
def value : Tree Binary υ α → Option (BitVec w)
  | .atom a => some (ρ a)
  | .paren e => value e
  | .pre u e => (value e).map (P.apply u)
  | .bin o l r => (value l).bind fun x => (value r).bind (o.apply div x)

end

section
variable {υ α : Type} {w : Nat} {P : Prefixes υ w} {div : BitVec w → BitVec w → Option (BitVec w)}
  {ρ : α → BitVec w} {l r e : Tree Binary υ α} {v : Int}

theorem valueC_bin {o : Binary} (h : valueC P ρ (.bin o l r) = some v) :
    ∃ a b, valueC P ρ l = some a ∧ valueC P ρ r = some b ∧ o.inC w a b = some v := by
  obtain ⟨a, ha, h⟩ := Option.bind_eq_some_iff.mp h
  obtain ⟨b, hb, h⟩ := Option.bind_eq_some_iff.mp h
  exact ⟨a, b, ha, hb, h⟩

theorem valueC_pre {u : υ} (h : valueC P ρ (.pre u e) = some v) :
    ∃ a, valueC P ρ e = some a ∧ P.inC u a = some v := Option.bind_eq_some_iff.mp h

theorem Binary.inC_divide {a b : Int} :
    Binary.divide.inC w a b = some v ↔ b ≠ 0 ∧ checked w (a.tdiv b) = some v := by
  simp [inC]

theorem Binary.inRange_of_inC {o : Binary} {a b : Int} (h : o.inC w a b = some v) :
    InRange w v := by
  cases o with
  | plus | minus | multiply => exact inRange_of_checked h
  | divide => exact inRange_of_checked (inC_divide.mp h).2

theorem inRange_of_valueC {t : Tree Binary υ α} (h : valueC P ρ t = some v) : InRange w v := by
  induction t generalizing v with
  | atom a =>
    cases h
    exact inRange_toInt _
  | paren e ih => exact ih h
  | pre u e ih =>
    obtain ⟨a, -, h⟩ := valueC_pre h
    exact P.inRange h
  | bin o l r ihl ihr =>
    obtain ⟨a, b, -, -, h⟩ := valueC_bin h
    exact Binary.inRange_of_inC h

/-- The action of an operator on words that hold the C values of its operands. -/
theorem Binary.apply_ofInt (hw : 0 < w)
    (hdiv : ∀ {x y q}, sdivChecked x y = some q → div x y = some q) {o : Binary} {a b : Int}
    (ha : InRange w a) (hb : InRange w b) (h : o.inC w a b = some v) :
    o.apply div (BitVec.ofInt w a) (BitVec.ofInt w b) = some (BitVec.ofInt w v) := by
  cases o with
  | plus =>
    obtain ⟨-, rfl⟩ := checked_eq_some.mp h
    simp [apply, BitVec.ofInt_add]
  | minus =>
    obtain ⟨-, rfl⟩ := checked_eq_some.mp h
    simp [apply, Int.sub_eq_add_neg, BitVec.ofInt_add, BitVec.ofInt_neg, BitVec.sub_eq_add_neg]
  | multiply =>
    obtain ⟨-, rfl⟩ := checked_eq_some.mp h
    simp [apply, BitVec.ofInt_mul]
  | divide =>
    obtain ⟨h0, h⟩ := inC_divide.mp h
    exact hdiv (sdivChecked_ofInt hw ha hb h0 h)

end

end CourseCompilers.Expressions
