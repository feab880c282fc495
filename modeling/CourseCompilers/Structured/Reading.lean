import CourseCompilers.Expressions.Regrouping
import CourseCompilers.Structured.Syntax

/-! The expressions of the third tutorial as its precedence declarations read them, and
what the same text means in C. Every operand is 64 bits wide; a literal is the `int`
that the scanner hands to the parser. -/

namespace CourseCompilers.Structured
open Lib.Precedence Expressions

inductive Symbol where
  | not
  | plus
  | minus
  | multiply
  | divide
  deriving DecidableEq, Repr

inductive Unary where
  | minus
  | not
  deriving DecidableEq, Repr

/-- An `IMMEDIATE` or an `ID`. -/
inductive Leaf where
  | immediate (n : BitVec 32)
  | id (x : String)
  deriving DecidableEq, Repr

def spelling : Spelling Symbol Binary Unary where
  bin
    | .plus => .plus
    | .minus => .minus
    | .multiply => .multiply
    | .divide => .divide
  pre
    | .minus => .minus
    | .not => .not
  asBin
    | .plus => some .plus
    | .minus => some .minus
    | .multiply => some .multiply
    | .divide => some .divide
    | .not => none
  asPre
    | .minus => some .minus
    | .not => some .not
    | _ => none
  asBin_eq_some := by
    intro s o
    cases s <;> cases o <;> simp
  asPre_eq_some := by
    intro s u
    cases s <;> cases u <;> simp

/-- `%right NOT`, `%left PLUS MINUS`, `%left MULTIPLY DIVIDE`. -/
def declarations : Declarations Symbol :=
  [(.right, [.not]), (.left, [.plus, .minus]), (.left, [.multiply, .divide])]

def resolution : Resolution Binary Unary := declarations.resolution spelling

theorem resolution_declared : Declared .minus resolution where
  bin o next := by cases o <;> cases next <;> decide
  sign next := by cases next <;> decide
  other u next hu := by
    cases u with
    | minus => exact absurd rfl hu
    | not => cases next <;> decide

/-- `CreateNeg`; `CreateICmpEQ` with zero and `CreateZExt`. -/
def Unary.apply : Unary → BitVec 64 → BitVec 64
  | .minus, x => -x
  | .not, x => if x = 0 then 1 else 0

def Unary.inC : Unary → Int → Option Int
  | .minus, n => checked 64 (-n)
  | .not, n => some (if n = 0 then 1 else 0)

def prefixes : Prefixes Unary 64 where
  neg := .minus
  apply := Unary.apply
  inC := Unary.inC
  apply_neg _ := rfl
  inC_neg _ := rfl
  inRange := by
    intro u n m h
    cases u with
    | minus => exact inRange_of_checked h
    | not =>
      cases h
      split <;> decide
  apply_ofInt := by
    intro u n m hn h
    cases u with
    | minus =>
      obtain ⟨-, rfl⟩ := checked_eq_some.mp h
      exact BitVec.ofInt_neg.symm
    | not =>
      cases h
      by_cases hz : n = 0
      · simp [Unary.apply, hz]
      · have h0 : BitVec.ofInt 64 n ≠ 0 := fun h =>
          hz (ofInt_inj (by decide) hn (InRange.zero 64) (by rw [h]; rfl))
        rw [Unary.apply, if_neg h0, if_neg hz]
        rfl

/-- The value of an operand when the variables hold `σ`. -/
def Leaf.value (σ : String → BitVec 64) : Leaf → BitVec 64
  | .immediate n => n.signExtend 64
  | .id x => σ x

abbrev Text := List (Token Symbol Leaf)

/-- The parser of the expressions. -/
def parseExpr (ts : Text) : Option (Tree Binary Unary Leaf) := parse spelling resolution ts

/-- Every expression that the parser reads has one meaning in C, and where no operator
takes in more than in C (or only a sign does, harmlessly) the parser's tree has that value. -/
theorem parseExpr_value_eq_C (ts : Text) (hd : Derives spelling ts) :
    ∃ p c, parseExpr ts = some p ∧ Reads spelling levels ts c ∧
      (∀ c', Reads spelling levels ts c' → c' = c) ∧
      ∀ σ v, Harmless prefixes (Leaf.value σ) c → valueC prefixes (Leaf.value σ) c = some v →
        value prefixes Ir.sdivChecked (Leaf.value σ) p = some (BitVec.ofInt 64 v) := by
  obtain ⟨p, c, hp, hc, huniq, hval⟩ :=
    parse_value_of_harmless (P := prefixes) (by decide) (fun h => h) resolution_declared hd
  exact ⟨p, c, hp, hc, huniq, fun σ => hval (Leaf.value σ)⟩

/-- `-a * b / 3 + !(a - b)`. -/
def signedProduct : Tree Binary Unary Leaf :=
  .bin .plus
    (.bin .divide (.bin .multiply (.pre .minus (.atom (.id "a"))) (.atom (.id "b")))
      (.atom (.immediate 3)))
    (.pre .not (.paren (.bin .minus (.atom (.id "a")) (.atom (.id "b")))))

theorem parseExpr_value_eq_C_signedProduct :
    ∃ p, parseExpr (signedProduct.tokens spelling) = some p ∧ p ≠ signedProduct ∧
      value prefixes Ir.sdivChecked (Leaf.value fun x => if x = "a" then 7 else 5) p =
        some (BitVec.ofInt 64 (-11)) := by
  obtain ⟨p, c, hp, -, huniq, hval⟩ :=
    parseExpr_value_eq_C (signedProduct.tokens spelling) ⟨signedProduct, rfl⟩
  have hc : signedProduct = c := huniq _ ⟨by decide, rfl⟩
  subst hc
  refine ⟨p, hp, ?_, hval _ _ (by decide) (by decide)⟩
  rintro rfl
  exact absurd hp (by decide)

/-- `!a + b`: the parser negates the sum. -/
theorem parseExpr_not_value_eq_C :
    ¬ ∀ ts : Text, Derives spelling ts → ∀ p c, parseExpr ts = some p →
      Reads spelling levels ts c → ∀ σ v, valueC prefixes (Leaf.value σ) c = some v →
        value prefixes Ir.sdivChecked (Leaf.value σ) p = some (BitVec.ofInt 64 v) := by
  intro h
  let c : Tree Binary Unary Leaf := .bin .plus (.pre .not (.atom (.id "a"))) (.atom (.id "b"))
  let p : Tree Binary Unary Leaf := .pre .not (.bin .plus (.atom (.id "a")) (.atom (.id "b")))
  have := h (c.tokens spelling) ⟨c, rfl⟩ p c (by decide) ⟨by decide, rfl⟩ (fun _ => 1) 1 (by decide)
  exact absurd this (by decide)

/-! ## The expressions of the translation -/

def toExpr : Tree Binary Unary Leaf → Expr
  | .atom (.immediate n) => .immediate n.toNat
  | .atom (.id x) => .id x
  | .paren e => .paren (toExpr e)
  | .pre .minus e => .neg (toExpr e)
  | .pre .not e => .not (toExpr e)
  | .bin .plus l r => .plus (toExpr l) (toExpr r)
  | .bin .minus l r => .minus (toExpr l) (toExpr r)
  | .bin .multiply l r => .multiply (toExpr l) (toExpr r)
  | .bin .divide l r => .divide (toExpr l) (toExpr r)

/-- The value of the parser's tree is the one of the expression whose code is built. -/
theorem eval_toExpr (σ : String → BitVec 64) {t : Tree Binary Unary Leaf}
    (ht : (toExpr t).All (· < 2 ^ 31) True) :
    (toExpr t).eval (fun x => some (σ x)) = value prefixes Ir.sdivChecked (Leaf.value σ) t := by
  induction t with
  | atom a =>
    cases a with
    | immediate n =>
      have hn : n.toNat < 2 ^ 31 := ht
      simp only [toExpr, Expr.eval, value, Leaf.value]
      congr 1
      apply BitVec.eq_of_toInt_eq
      have hpos : n.toInt = n.toNat := BitVec.toInt_eq_toNat_of_lt (by omega)
      rw [BitVec.toInt_signExtend_of_le (by decide), hpos,
        BitVec.toInt_eq_toNat_of_lt (by simp; omega)]
      simp
      omega
    | id x => rfl
  | paren e ih => exact ih ht
  | pre u e ih => cases u <;> simp only [toExpr, Expr.eval, value, ih ht] <;> rfl
  | bin o l r ihl ihr =>
    have hl : (toExpr l).All (· < 2 ^ 31) True := by
      cases o with
      | plus | minus => exact ht.1
      | multiply | divide => exact ht.2.1
    have hr : (toExpr r).All (· < 2 ^ 31) True := by
      cases o with
      | plus | minus => exact ht.2
      | multiply | divide => exact ht.2.2
    cases o <;> simp only [toExpr, Expr.eval, value, ihl hl, ihr hr] <;>
      cases value prefixes Ir.sdivChecked (Leaf.value σ) l <;>
      cases value prefixes Ir.sdivChecked (Leaf.value σ) r <;> rfl

end CourseCompilers.Structured
