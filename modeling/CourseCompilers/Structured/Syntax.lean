import CourseCompilers.Ir.Machine
import CourseCompilers.Lib.Loop

/-! The structured language of the third tutorial: 64-bit variables, `if` and
`while`. The trees are the derivations of the grammar, whichever way precedence
resolves an expression; a literal is the number its digits spell. -/

namespace CourseCompilers.Structured
open Lib

inductive Expr where
  | immediate (n : Nat)
  | id (x : String)
  | plus (a b : Expr)
  | minus (a b : Expr)
  | multiply (a b : Expr)
  | divide (a b : Expr)
  | paren (a : Expr)
  | neg (a : Expr)
  | not (a : Expr)
  deriving DecidableEq, Repr

/-- `stmt` and `stmtlist` in one type: `seq l s` is `stmtlist: stmtlist stmt`. -/
inductive Stmt where
  | assign (x : String) (e : Expr)
  | ifThen (c : Expr) (body : Stmt)
  | whileDo (c : Expr) (body : Stmt)
  | null
  | seq (l s : Stmt)
  deriving DecidableEq, Repr

/-- `program : LBRACE stmtlist RETURN expr SEMI RBRACE`. -/
structure Program where
  body : Stmt
  result : Expr
  deriving DecidableEq, Repr

/-! ## Meaning -/

/-- The variables assigned so far and their values. -/
abbrev Env := String → Option (BitVec 64)

/-- The value of an expression; none if a variable it reads has no value or a
division in it is undefined. -/
def Expr.eval (σ : Env) : Expr → Option (BitVec 64)
  | .immediate n => some (BitVec.ofNat 64 n)
  | .id x => σ x
  | .plus a b => (a.eval σ).bind fun x => (b.eval σ).map fun y => x + y
  | .minus a b => (a.eval σ).bind fun x => (b.eval σ).map fun y => x - y
  | .multiply a b => (a.eval σ).bind fun x => (b.eval σ).map fun y => x * y
  | .divide a b => (a.eval σ).bind fun x => (b.eval σ).bind fun y => Ir.sdivChecked x y
  | .paren a => a.eval σ
  | .neg a => (a.eval σ).map fun x => -x
  | .not a => (a.eval σ).map fun x => if x = 0 then 1 else 0

/-- The test of `if` and `while`. -/
def Expr.test (c : Expr) (σ : Env) : Option Bool := (c.eval σ).map fun x => x != 0

/-- `s.Exec again σ σ'`: the statement terminates and turns `σ` into `σ'`. With
`again` a `while` loops; without it every `while` is read as an `if`. -/
def Stmt.Exec (again : Bool) : Stmt → Env → Env → Prop
  | .assign x e, σ, σ' => ∃ v, e.eval σ = some v ∧ σ' = Function.update σ x (some v)
  | .ifThen c s, σ, σ' => Once c.test (s.Exec again) σ σ'
  | .whileDo c s, σ, σ' =>
      if again then Loop c.test (s.Exec again) σ σ' else Once c.test (s.Exec again) σ σ'
  | .null, σ, σ' => σ' = σ
  | .seq l s, σ, σ' => ∃ ρ, l.Exec again σ ρ ∧ s.Exec again ρ σ'

/-- The program terminates and returns `v`. -/
def Program.Yields (again : Bool) (p : Program) (v : BitVec 64) : Prop :=
  ∃ σ, p.body.Exec again (fun _ => none) σ ∧ p.result.eval σ = some v

/-- The meaning of a program. -/
def Program.Returns (p : Program) (v : BitVec 64) : Prop := p.Yields true v

/-- The program with every `while` replaced by an `if`. -/
def Stmt.whileAsIf : Stmt → Stmt
  | .assign x e => .assign x e
  | .ifThen c s => .ifThen c s.whileAsIf
  | .whileDo c s => .ifThen c s.whileAsIf
  | .null => .null
  | .seq l s => .seq l.whileAsIf s.whileAsIf

def Program.whileAsIf (p : Program) : Program := ⟨p.body.whileAsIf, p.result⟩

theorem Stmt.exec_false_iff (s : Stmt) (σ σ' : Env) :
    s.Exec false σ σ' ↔ s.whileAsIf.Exec true σ σ' := by
  have once_congr : ∀ {c : Expr} {r r' : Env → Env → Prop}, (∀ σ σ', r σ σ' ↔ r' σ σ') →
      ∀ σ σ', Once c.test r σ σ' ↔ Once c.test r' σ σ' := by
    intro c r r' h σ σ'
    rw [show r = r' from funext fun σ => funext fun σ' => propext (h σ σ')]
  induction s generalizing σ σ' with
  | assign x e => rfl
  | ifThen c s ih | whileDo c s ih => exact once_congr ih σ σ'
  | null => rfl
  | seq l s ihl ihs => simp only [Exec, whileAsIf, ihl, ihs]

theorem Program.yields_false_iff (p : Program) (v : BitVec 64) :
    p.Yields false v ↔ p.whileAsIf.Returns v := by
  simp only [Yields, Returns, whileAsIf, Stmt.exec_false_iff]

theorem Stmt.exec_unique {again : Bool} (s : Stmt) {σ ρ ρ' : Env} (h : s.Exec again σ ρ)
    (h' : s.Exec again σ ρ') : ρ = ρ' := by
  induction s generalizing σ ρ ρ' with
  | assign x e =>
    obtain ⟨v, hv, rfl⟩ := h
    obtain ⟨w, hw, rfl⟩ := h'
    rw [hv] at hw
    cases hw
    rfl
  | ifThen c s ih =>
    have hbody : ∀ σ ρ ρ', s.Exec again σ ρ → s.Exec again σ ρ' → ρ = ρ' := fun _ _ _ => ih
    exact Once.unique hbody h h'
  | whileDo c s ih =>
    have hbody : ∀ σ ρ ρ', s.Exec again σ ρ → s.Exec again σ ρ' → ρ = ρ' := fun _ _ _ => ih
    cases again
    · exact Once.unique hbody h h'
    · exact Loop.unique hbody h h'
  | null => exact h.trans h'.symm
  | seq l s ihl ihs =>
    obtain ⟨τ, hl, hs⟩ := h
    obtain ⟨τ', hl', hs'⟩ := h'
    cases ihl hl hl'
    exact ihs hs hs'

theorem Program.returns_unique {p : Program} {v w : BitVec 64} (h : p.Returns v)
    (h' : p.Returns w) : v = w := by
  obtain ⟨σ, hs, hv⟩ := h
  obtain ⟨ρ, hr, hw⟩ := h'
  cases p.body.exec_unique hs hr
  rw [hv] at hw
  exact Option.some.inj hw

/-! ## Conditions on the program text -/

def Expr.reads : Expr → List String
  | .immediate _ => []
  | .id x => [x]
  | .plus a b | .minus a b | .multiply a b | .divide a b => a.reads ++ b.reads
  | .paren a | .neg a | .not a => a.reads

/-- The value depends on the variables that are read. -/
theorem Expr.eval_congr {e : Expr} {σ σ' : Env} (h : ∀ x ∈ e.reads, σ x = σ' x) :
    e.eval σ = e.eval σ' := by
  induction e with
  | immediate n => rfl
  | id x => exact h x List.mem_cons_self
  | plus a b iha ihb | minus a b iha ihb | multiply a b iha ihb | divide a b iha ihb =>
    obtain ⟨ha, hb⟩ := List.forall_mem_append.mp h
    rw [eval, eval, iha ha, ihb hb]
  | paren a ih | neg a ih | not a ih => rw [eval, eval, ih h]

def Stmt.assigned : Stmt → List String
  | .assign x _ => [x]
  | .ifThen _ s | .whileDo _ s => s.assigned
  | .null => []
  | .seq l s => l.assigned ++ s.assigned

/-- Every read comes textually after an assignment to its variable, the variables
of `A` having been assigned before. -/
def Stmt.ReadsAssigned (A : List String) : Stmt → Prop
  | .assign _ e => ∀ x ∈ e.reads, x ∈ A
  | .ifThen c s | .whileDo c s => (∀ x ∈ c.reads, x ∈ A) ∧ s.ReadsAssigned A
  | .null => True
  | .seq l s => l.ReadsAssigned A ∧ s.ReadsAssigned (A ++ l.assigned)

def Program.ReadsAssigned (p : Program) : Prop :=
  p.body.ReadsAssigned [] ∧ ∀ x ∈ p.result.reads, x ∈ p.body.assigned

/-- No variable outside `A` is assigned for the first time inside a body. -/
def Stmt.FirstAtTop (A : List String) : Stmt → Prop
  | .assign _ _ | .null => True
  | .ifThen _ s | .whileDo _ s => ∀ x ∈ s.assigned, x ∈ A
  | .seq l s => l.FirstAtTop A ∧ s.FirstAtTop (A ++ l.assigned)

/-- Every variable's textually first assignment stands at the top level. -/
def Program.FirstAtTop (p : Program) : Prop := p.body.FirstAtTop []

/-- A condition on all literals and operators of an expression. -/
def Expr.All (lit : Nat → Prop) (mulDiv : Prop) : Expr → Prop
  | .immediate n => lit n
  | .id _ => True
  | .plus a b | .minus a b => a.All lit mulDiv ∧ b.All lit mulDiv
  | .multiply a b | .divide a b => mulDiv ∧ a.All lit mulDiv ∧ b.All lit mulDiv
  | .paren a | .neg a | .not a => a.All lit mulDiv

def Stmt.All (lit : Nat → Prop) (mulDiv : Prop) : Stmt → Prop
  | .assign _ e => e.All lit mulDiv
  | .ifThen c s | .whileDo c s => c.All lit mulDiv ∧ s.All lit mulDiv
  | .null => True
  | .seq l s => l.All lit mulDiv ∧ s.All lit mulDiv

def Program.All (lit : Nat → Prop) (mulDiv : Prop) (p : Program) : Prop :=
  p.body.All lit mulDiv ∧ p.result.All lit mulDiv

/-- All literals are below 2^31. -/
def Program.LiteralsFit (p : Program) : Prop := p.All (· < 2 ^ 31) True

/-- Neither `*` nor `/` occurs. -/
def Program.NoMulDiv (p : Program) : Prop := p.All (fun _ => True) False

/-- Every quotient of expressions that read no variable has a value. -/
def Expr.QuotientsDefined : Expr → Prop
  | .immediate _ | .id _ => True
  | .plus a b | .minus a b | .multiply a b => a.QuotientsDefined ∧ b.QuotientsDefined
  | .divide a b => a.QuotientsDefined ∧ b.QuotientsDefined ∧
      (a.reads = [] ∧ b.reads = [] → ((Expr.divide a b).eval fun _ => none).isSome)
  | .paren a | .neg a | .not a => a.QuotientsDefined

def Stmt.QuotientsDefined : Stmt → Prop
  | .assign _ e => e.QuotientsDefined
  | .ifThen c s | .whileDo c s => c.QuotientsDefined ∧ s.QuotientsDefined
  | .null => True
  | .seq l s => l.QuotientsDefined ∧ s.QuotientsDefined

def Program.QuotientsDefined (p : Program) : Prop :=
  p.body.QuotientsDefined ∧ p.result.QuotientsDefined

instance Stmt.decReadsAssigned : (s : Stmt) → (A : List String) → Decidable (s.ReadsAssigned A)
  | .assign _ e, A => inferInstanceAs (Decidable (∀ x ∈ e.reads, x ∈ A))
  | .ifThen c s, A | .whileDo c s, A =>
      have := decReadsAssigned s A
      inferInstanceAs (Decidable ((∀ x ∈ c.reads, x ∈ A) ∧ s.ReadsAssigned A))
  | .null, _ => inferInstanceAs (Decidable True)
  | .seq l s, A =>
      have := decReadsAssigned l A
      have := decReadsAssigned s (A ++ l.assigned)
      inferInstanceAs (Decidable (l.ReadsAssigned A ∧ s.ReadsAssigned (A ++ l.assigned)))

instance (p : Program) : Decidable p.ReadsAssigned :=
  inferInstanceAs (Decidable (_ ∧ ∀ x ∈ p.result.reads, x ∈ p.body.assigned))

instance Stmt.decFirstAtTop : (s : Stmt) → (A : List String) → Decidable (s.FirstAtTop A)
  | .assign _ _, _ | .null, _ => inferInstanceAs (Decidable True)
  | .ifThen _ s, A | .whileDo _ s, A => inferInstanceAs (Decidable (∀ x ∈ s.assigned, x ∈ A))
  | .seq l s, A =>
      have := decFirstAtTop l A
      have := decFirstAtTop s (A ++ l.assigned)
      inferInstanceAs (Decidable (l.FirstAtTop A ∧ s.FirstAtTop (A ++ l.assigned)))

instance (p : Program) : Decidable p.FirstAtTop :=
  inferInstanceAs (Decidable (p.body.FirstAtTop []))

section
variable {lit : Nat → Prop} {mulDiv : Prop} [DecidablePred lit] [Decidable mulDiv]

instance Expr.decAll : (e : Expr) → Decidable (e.All lit mulDiv)
  | .immediate n => inferInstanceAs (Decidable (lit n))
  | .id _ => inferInstanceAs (Decidable True)
  | .plus a b | .minus a b =>
      have := decAll a
      have := decAll b
      inferInstanceAs (Decidable (a.All lit mulDiv ∧ b.All lit mulDiv))
  | .multiply a b | .divide a b =>
      have := decAll a
      have := decAll b
      inferInstanceAs (Decidable (mulDiv ∧ a.All lit mulDiv ∧ b.All lit mulDiv))
  | .paren a | .neg a | .not a => decAll a

instance Stmt.decAll : (s : Stmt) → Decidable (s.All lit mulDiv)
  | .assign _ e => inferInstanceAs (Decidable (e.All lit mulDiv))
  | .ifThen c s | .whileDo c s =>
      have := decAll s
      inferInstanceAs (Decidable (c.All lit mulDiv ∧ s.All lit mulDiv))
  | .null => inferInstanceAs (Decidable True)
  | .seq l s =>
      have := decAll l
      have := decAll s
      inferInstanceAs (Decidable (l.All lit mulDiv ∧ s.All lit mulDiv))

instance (p : Program) : Decidable (p.All lit mulDiv) :=
  inferInstanceAs (Decidable (p.body.All lit mulDiv ∧ p.result.All lit mulDiv))

end

instance Expr.decQuotientsDefined : (e : Expr) → Decidable e.QuotientsDefined
  | .immediate _ | .id _ => inferInstanceAs (Decidable True)
  | .plus a b | .minus a b | .multiply a b =>
      have := decQuotientsDefined a
      have := decQuotientsDefined b
      inferInstanceAs (Decidable (a.QuotientsDefined ∧ b.QuotientsDefined))
  | .divide a b =>
      have := decQuotientsDefined a
      have := decQuotientsDefined b
      inferInstanceAs (Decidable (_ ∧ _ ∧ (a.reads = [] ∧ b.reads = [] →
        ((Expr.divide a b).eval fun _ => none).isSome)))
  | .paren a | .neg a | .not a => decQuotientsDefined a

instance Stmt.decQuotientsDefined : (s : Stmt) → Decidable s.QuotientsDefined
  | .assign _ e => inferInstanceAs (Decidable e.QuotientsDefined)
  | .ifThen c s | .whileDo c s =>
      have := decQuotientsDefined s
      inferInstanceAs (Decidable (c.QuotientsDefined ∧ s.QuotientsDefined))
  | .null => inferInstanceAs (Decidable True)
  | .seq l s =>
      have := decQuotientsDefined l
      have := decQuotientsDefined s
      inferInstanceAs (Decidable (l.QuotientsDefined ∧ s.QuotientsDefined))

instance (p : Program) : Decidable p.QuotientsDefined :=
  inferInstanceAs (Decidable (p.body.QuotientsDefined ∧ p.result.QuotientsDefined))

/-- A condition on the literals and one on the operators. -/
theorem Expr.All.combine {lit : Nat → Prop} {mulDiv : Prop} {e : Expr} (hl : e.All lit True)
    (hm : e.All (fun _ => True) mulDiv) : e.All lit mulDiv := by
  induction e with
  | immediate n => exact hl
  | id x => trivial
  | plus a b iha ihb | minus a b iha ihb => exact ⟨iha hl.1 hm.1, ihb hl.2 hm.2⟩
  | multiply a b iha ihb | divide a b iha ihb =>
    exact ⟨hm.1, iha hl.2.1 hm.2.1, ihb hl.2.2 hm.2.2⟩
  | paren a iha | neg a iha | not a iha => exact iha hl hm

theorem Expr.All.quotientsDefined {lit : Nat → Prop} {e : Expr} (h : e.All lit False) :
    e.QuotientsDefined := by
  induction e with
  | immediate n | id x => trivial
  | plus a b iha ihb | minus a b iha ihb => exact ⟨iha h.1, ihb h.2⟩
  | multiply a b | divide a b => exact h.1.elim
  | paren a iha | neg a iha | not a iha => exact iha h

theorem Stmt.All.combine {lit : Nat → Prop} {mulDiv : Prop} {s : Stmt} (hl : s.All lit True)
    (hm : s.All (fun _ => True) mulDiv) : s.All lit mulDiv := by
  induction s with
  | assign x e => exact Expr.All.combine hl hm
  | ifThen c s ih | whileDo c s ih => exact ⟨hl.1.combine hm.1, ih hl.2 hm.2⟩
  | null => trivial
  | seq l s ihl ihs => exact ⟨ihl hl.1 hm.1, ihs hl.2 hm.2⟩

theorem Stmt.All.quotientsDefined {lit : Nat → Prop} {s : Stmt} (h : s.All lit False) :
    s.QuotientsDefined := by
  induction s with
  | assign x e => exact Expr.All.quotientsDefined h
  | ifThen c s ih | whileDo c s ih => exact ⟨h.1.quotientsDefined, ih h.2⟩
  | null => trivial
  | seq l s ihl ihs => exact ⟨ihl h.1, ihs h.2⟩

theorem Program.All.combine {lit : Nat → Prop} {mulDiv : Prop} {p : Program}
    (hl : p.All lit True) (hm : p.All (fun _ => True) mulDiv) : p.All lit mulDiv :=
  ⟨hl.1.combine hm.1, hl.2.combine hm.2⟩

instance (p : Program) : Decidable p.LiteralsFit := inferInstanceAs (Decidable (p.All _ _))

instance (p : Program) : Decidable p.NoMulDiv := inferInstanceAs (Decidable (p.All _ _))

end CourseCompilers.Structured
