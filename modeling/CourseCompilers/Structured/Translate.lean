import CourseCompilers.Ir.Builder
import CourseCompilers.Structured.Syntax
import CourseCompilers.Uthash.Table
import CourseCompilers.Uthash.Jenkins

/-! The parser actions of the third tutorial, in their C and C++ versions. The
actions run in the order of the parse, so a mid-rule value such as `$<bb>5` is a
local of the function that runs the actions of its rule; the builder and the map
from names to allocas are the global state, passed along. The outcome `none` is
a null pointer handed to LLVM: the load of a name that is not in the map. -/

namespace CourseCompilers.Structured
open Ir

/-- A map from names to allocas. A name is inserted only after a lookup of it has
failed, and that is all the laws speak of. -/
structure NameMap where
  Map : Type
  empty : Map
  insert : String → Operand → Map → Map
  find : Map → String → Option Operand
  Valid : Map → Prop
  empty_valid : Valid empty
  insert_valid : ∀ {m x a}, Valid m → find m x = none → Valid (insert x a m)
  find_empty : ∀ x, find empty x = none
  find_insert : ∀ {m x a}, Valid m → find m x = none →
    ∀ y, find (insert x a m) y = if y = x then some a else find m y

/-- `map_insert` and `map_find` on the `uthash` table `map`. -/
def NameMap.uthash : NameMap where
  Map := Uthash.Head String Operand
  empty := none
  insert x a m := Uthash.add Uthash.hashJen m x a
  find m x := Uthash.find Uthash.hashJen m x
  Valid m := m.WF Uthash.hashJen ∧ ∀ x, (Uthash.valuesAt Uthash.hashJen m x).length ≤ 1
  empty_valid := by
    refine ⟨Uthash.Head.WF.none, ?_⟩
    intro x
    simp [Uthash.valuesAt, Uthash.Table.valuesAt, Uthash.tableOf, Uthash.Table.make,
      Uthash.Bucket.empty]
  insert_valid := by
    rintro m x a ⟨hwf, hlen⟩ hx
    refine ⟨hwf.add x a, ?_⟩
    intro y
    rw [Uthash.find_eq_head?, List.head?_eq_none_iff] at hx
    rw [hwf.valuesAt_add]
    have := hlen y
    by_cases hy : x = y
    · subst hy
      split <;> simp [hx]
    · simp only [if_neg hy]
      split <;> simpa using this
  find_empty := fun _ => rfl
  find_insert := by
    rintro m x a ⟨hwf, hlen⟩ hx y
    simp only [Uthash.find_eq_head?, List.head?_eq_none_iff] at hx ⊢
    rw [hwf.valuesAt_add]
    by_cases hy : y = x
    · subst hy
      split <;> simp [hx]
    · have hone : (Uthash.valuesAt Uthash.hashJen m y).reverse =
          Uthash.valuesAt Uthash.hashJen m y := by
        have := hlen y
        match hv : Uthash.valuesAt Uthash.hashJen m y with
        | [] => rfl
        | [_] => rfl
        | _ :: _ :: _ => simp [hv] at this
      simp only [if_neg (Ne.symm hy), if_neg hy]
      split <;> simp [hone]

/-- `idMap`, a `std::map`, as its list of insertions. -/
def NameMap.stdMap : NameMap where
  Map := List (String × Operand)
  empty := []
  insert x a m := (x, a) :: m
  find m x := m.lookup x
  Valid _ := True
  empty_valid := trivial
  insert_valid := fun _ _ => trivial
  find_empty := fun _ => rfl
  find_insert := by
    intro m x a _ _ y
    by_cases h : y = x
    · simp [h]
    · have hbeq : (y == x) = false := beq_false_of_ne h
      simp [List.lookup_cons, hbeq, h]

/-- What the two versions do differently. -/
structure Version where
  /-- Whether `*` and `/` build an instruction. In C their actions are empty, so
  that the parser's default action leaves `$1` in `$$`. -/
  mulDiv : Bool
  /-- Whether the closing action of `while` branches to the condition block (`$<bb>2`)
  or to the exit block (`$<bb>6`). -/
  backEdge : Bool
  names : NameMap

def Version.c : Version := ⟨false, true, .uthash⟩

def Version.cpp : Version := ⟨true, false, .stdMap⟩

/-- The `int` the scanner's `atoi` makes of a literal: the C library saturates at
the largest `long` and the conversion to `int` drops the upper half. -/
def atoi (n : Nat) : BitVec 32 := BitVec.ofNat 32 (min n (2 ^ 63 - 1))

def i64 (n : BitVec 64) : Operand := .const (.i64 n)

def zero : Operand := i64 0

section
variable (F : Folder) (V : Version)

/-- The actions of `expr`. -/
def Expr.build (m : V.names.Map) : Expr → Builder → Option (Operand × Builder)
  | .immediate n, B => some (i64 ((atoi n).signExtend 64), B)
  | .id x, B => do
      let alloca ← V.names.find m x
      return B.insert (.load alloca)
  | .plus a b, B => do
      let (x, B) ← a.build m B
      let (y, B) ← b.build m B
      return B.buildOp F (.add x y)
  | .minus a b, B => do
      let (x, B) ← a.build m B
      let (y, B) ← b.build m B
      return B.buildOp F (.sub x y)
  | .multiply a b, B => do
      let (x, B) ← a.build m B
      let (y, B) ← b.build m B
      return if V.mulDiv then B.buildOp F (.mul x y) else (x, B)
  | .divide a b, B => do
      let (x, B) ← a.build m B
      let (y, B) ← b.build m B
      return if V.mulDiv then B.buildOp F (.sdiv x y) else (x, B)
  | .paren a, B => a.build m B
  | .neg a, B => do
      let (x, B) ← a.build m B
      return B.buildOp F (.sub zero x)
  | .not a, B => do
      let (x, B) ← a.build m B
      let (icmp, B) := B.buildOp F (.icmpEq x zero)
      return B.buildOp F (.zext icmp .i64)

/-- The mid-rule action after the parenthesis of `if` and of `while`: append the
body's block and the join block, branch on the condition, and go on in the body.
The join block is the action's value. -/
def branchOnNonzero (v : Operand) (B : Builder) : Nat × Builder :=
  let (body, B) := B.appendBlock
  let (join, B) := B.appendBlock
  let (cond, B) := B.buildOp F (.icmpNe v zero)
  let (_, B) := B.insert (.condBr cond body join)
  (join, B.positionAtEnd body)

/-- The global state of the parser. -/
structure Parse where
  builder : Builder
  map : V.names.Map

variable {V}

/-- The actions of `stmt` and `stmtlist`. -/
def Stmt.build : Stmt → Parse V → Option (Parse V)
  | .assign x e, P => do
      let (v, B) ← e.build F V P.map P.builder
      match V.names.find P.map x with
      | some var => return ⟨(B.insert (.store v var)).2, P.map⟩
      | none =>
          let (var, B) := B.insert (.alloca .i64)
          return ⟨(B.insert (.store v var)).2, V.names.insert x var P.map⟩
  | .ifThen c s, P => do
      let (v, B) ← c.build F V P.map P.builder
      let (join, B) := branchOnNonzero F v B
      let P ← s.build ⟨B, P.map⟩
      let (_, B) := P.builder.insert (.br join)
      return ⟨B.positionAtEnd join, P.map⟩
  | .whileDo c s, P => do
      let (cond, B) := P.builder.appendBlock
      let (_, B) := B.insert (.br cond)
      let B := B.positionAtEnd cond
      let (v, B) ← c.build F V P.map B
      let (join, B) := branchOnNonzero F v B
      let P ← s.build ⟨B, P.map⟩
      let (_, B) := P.builder.insert (.br (if V.backEdge then cond else join))
      return ⟨B.positionAtEnd join, P.map⟩
  | .null, P => some P
  | .seq l s, P => do
      let P ← l.build P
      s.build P

variable (V)

/-- `main` and the action of `program`. -/
def Program.compile (p : Program) : Option Func := do
  let P ← p.body.build F ⟨Builder.entry, V.names.empty⟩
  let (v, B) ← p.result.build F V P.map P.builder
  return (B.insert (.ret (some v))).2.func

end

end CourseCompilers.Structured
