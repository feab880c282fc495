import CourseCompilers.MiniC.FrontEnd
import CourseCompilers.MiniC.Scanner

/-! The grammar of `minic.y`: which tokens a tree is derived from, one constructor
for each production. -/

namespace CourseCompilers.MiniC

/-- The nonterminals for expressions. The ten levels from `logical_OR_expression` (0)
to `multiplicative_expression` (9) are `binary`. -/
inductive ExprLevel where
  | expression
  | assignment
  | constant
  | conditional
  | binary (n : Nat)
  | cast
  | unary
  | postfixed
  | primary
  deriving DecidableEq, Repr

def BinaryOp.level : BinaryOp → Nat
  | .logicalOr => 0
  | .logicalAnd => 1
  | .bitwiseOr => 2
  | .bitwiseXor => 3
  | .ampersand => 4
  | .eq | .neq => 5
  | .lt | .gt | .lte | .gte => 6
  | .lshift | .rshift => 7
  | .plus | .minus => 8
  | .star | .div | .mod => 9

def BinaryOp.token : BinaryOp → Token
  | .logicalOr => .logicalOr
  | .logicalAnd => .logicalAnd
  | .bitwiseOr => .bitwiseOr
  | .bitwiseXor => .bitwiseXor
  | .ampersand => .ampersand
  | .eq => .eq
  | .neq => .neq
  | .lt => .lt
  | .gt => .gt
  | .lte => .lte
  | .gte => .gte
  | .lshift => .lshift
  | .rshift => .rshift
  | .plus => .plus
  | .minus => .minus
  | .star => .star
  | .div => .div
  | .mod => .mod

/-- The nonterminal of the right operand, and of a left operand without operator. -/
def operandLevel (n : Nat) : ExprLevel := if n < 9 then .binary (n + 1) else .cast

def UnaryOp.token : UnaryOp → Token
  | .ampersand => .ampersand
  | .star => .star
  | .minus => .minus
  | .plus => .plus
  | .bitwiseInvert => .bitwiseInvert
  | .not => .not

/-- `&` and `*` apply to a `primary_expression`, the others to a `unary_expression`. -/
def UnaryOp.operandLevel : UnaryOp → ExprLevel
  | .ampersand | .star => .primary
  | .minus | .plus | .bitwiseInvert | .not => .unary

/-- `type_specifier` of the two front ends. -/
inductive TypeSpecifier.Derives : FrontEnd → TypeSpecifier → Token → Prop
  | int (v : FrontEnd) : Derives v .int .intKeyword
  | float : Derives .c .float .floatKeyword
  | void : Derives .c .void .voidKeyword

/-- An optional `STAR`. -/
def starTokens (star : Bool) : List Token := if star then [.star] else []

variable (v : FrontEnd)

inductive Expr.Derives : ExprLevel → Expr → List Token → Prop
  | expression {e ts} : Derives .assignment e ts → Derives .expression e ts
  | assignment {e ts} : Derives .conditional e ts → Derives .assignment e ts
  | assign {star id e ts} : Derives .assignment e ts →
      Derives .assignment (.assign ⟨star, id⟩ e) (starTokens star ++ .id id :: .assign :: ts)
  | constant {e ts} : Derives .conditional e ts → Derives .constant e ts
  | conditional {e ts} : Derives (.binary 0) e ts → Derives .conditional e ts
  | questionMark {c t e ts us ws} : Derives (.binary 0) c ts → Derives .expression t us →
      Derives .conditional e ws →
      Derives .conditional (.conditional c t e) (ts ++ .questionMark :: us ++ .colon :: ws)
  | operand {n e ts} : n ≤ 9 → Derives (operandLevel n) e ts → Derives (.binary n) e ts
  | binary {op : BinaryOp} {a b ts us} : Derives (.binary op.level) a ts →
      Derives (operandLevel op.level) b us →
      Derives (.binary op.level) (.binary op a b) (ts ++ op.token :: us)
  | cast {e ts} : Derives .unary e ts → Derives .cast e ts
  | castTo {type t star e ts} : TypeSpecifier.Derives v type t → Derives .cast e ts →
      Derives .cast (.cast type star e) (.lparen :: t :: starTokens star ++ .rparen :: ts)
  | unary {e ts} : Derives .postfixed e ts → Derives .unary e ts
  | prefixed {op : UnaryOp} {e ts} : Derives op.operandLevel e ts →
      Derives .unary (.unary op e) (op.token :: ts)
  | postfixed {e ts} : Derives .primary e ts → Derives .postfixed e ts
  | id {name} : Derives .primary (.id name) [.id name]
  | constantInteger {text} : Derives .primary (.constantInteger text) [.constantInteger text]
  | constantFloat {text} : Derives .primary (.constantFloat text) [.constantFloat text]
  | paren {e ts} : Derives .expression e ts →
      Derives .primary (.paren e) (.lparen :: ts ++ [.rparen])

/-- `expr_opt`, also for the expression a statement may have. -/
inductive ExprOptDerives : Option Expr → List Token → Prop
  | none : ExprOptDerives none []
  | some {e ts} : Expr.Derives v .expression e ts → ExprOptDerives (some e) ts

inductive Declaration.Derives : Declaration → List Token → Prop
  | plain {type t star id} : TypeSpecifier.Derives v type t →
      Derives ⟨type, star, id, none⟩ (t :: starTokens star ++ [.id id, .semicolon])
  | initialized {type t star id e ts} : TypeSpecifier.Derives v type t →
      Expr.Derives v .constant e ts → Derives ⟨type, star, id, some e⟩
        (t :: starTokens star ++ .id id :: .assign :: ts ++ [.semicolon])

/-- `declaration_list_opt`. -/
inductive DeclarationsDerive : List Declaration → List Token → Prop
  | nil : DeclarationsDerive [] []
  | cons {d ds ts us} : d.Derives v ts → DeclarationsDerive ds us →
      DeclarationsDerive (d :: ds) (ts ++ us)

/-- The nonterminals for statements. -/
inductive StmtLevel where
  | listOpt
  | list
  | statement
  deriving DecidableEq, Repr

inductive Stmt.Derives : StmtLevel → Stmt → List Token → Prop
  | noList : Derives .listOpt .none []
  | listOpt {l ts} : Derives .list l ts → Derives .listOpt l ts
  | first {s ts} : Derives .statement s ts → Derives .list (.list .none s) ts
  | next {l s ts us} : Derives .list l ts → Derives .statement s us →
      Derives .list (.list l s) (ts ++ us)
  | exprStmt {e ts} : ExprOptDerives v e ts →
      Derives .statement (.exprStmt e) (ts ++ [.semicolon])
  | compoundStmt {ds body ts us} : DeclarationsDerive v ds ts → Derives .listOpt body us →
      Derives .statement (.compoundStmt ds body) (.lbrace :: ts ++ us ++ [.rbrace])
  | ifStmt {c t e ts us ws} : Expr.Derives v .expression c ts → Derives .statement t us →
      Derives .statement e ws → Derives .statement (.ifStmt c t e)
        (.ifKeyword :: .lparen :: ts ++ .rparen :: us ++ .elseKeyword :: ws)
  | switchStmt {e s ts us} : Expr.Derives v .expression e ts → Derives .statement s us →
      Derives .statement (.switchStmt e s) (.switchKeyword :: .lparen :: ts ++ .rparen :: us)
  | whileStmt {e s ts us} : Expr.Derives v .expression e ts → Derives .statement s us →
      Derives .statement (.whileStmt e s) (.whileKeyword :: .lparen :: ts ++ .rparen :: us)
  | forStmt {a b c s ts us ws xs} : ExprOptDerives v a ts → ExprOptDerives v b us →
      ExprOptDerives v c ws → Derives .statement s xs →
      Derives .statement (.forStmt a b c s) (.forKeyword :: .lparen :: ts ++ .semicolon :: us ++
        .semicolon :: ws ++ .rparen :: xs)
  | doStmt {s e ts us} : Derives .statement s ts → Expr.Derives v .expression e us →
      Derives .statement (.doStmt s e)
        (.doKeyword :: ts ++ .whileKeyword :: .lparen :: us ++ [.rparen, .semicolon])
  | returnStmt {e ts} : ExprOptDerives v e ts →
      Derives .statement (.returnStmt e) (.returnKeyword :: ts ++ [.semicolon])
  | breakStmt : Derives .statement .breakStmt [.breakKeyword, .semicolon]
  | continueStmt : Derives .statement .continueStmt [.continueKeyword, .semicolon]
  | caseStmt {e ts} : Expr.Derives v .constant e ts →
      Derives .statement (.caseStmt e) (.caseKeyword :: ts ++ [.colon])

/-- An entry of `param_list`; the declarator may be missing after a plain type only. -/
inductive Param.Derives : Param → List Token → Prop
  | named {type t star id} : TypeSpecifier.Derives v type t →
      Derives ⟨type, star, some id⟩ (t :: starTokens star ++ [.id id])
  | unnamed {type t} : TypeSpecifier.Derives v type t → Derives ⟨type, false, none⟩ [t]

/-- `param_list`. -/
inductive ParamsDerive : List Param → List Token → Prop
  | single {p ts} : Param.Derives v p ts → ParamsDerive [p] ts
  | snoc {ps p ts us} : ParamsDerive ps ts → Param.Derives v p us →
      ParamsDerive (ps ++ [p]) (ts ++ .comma :: us)

/-- `param_list_opt`. -/
inductive ParamsOptDerive : List Param → List Token → Prop
  | none : ParamsOptDerive [] []
  | some {ps ts} : ParamsDerive v ps ts → ParamsOptDerive ps ts

inductive FunctionDefinition.Derives : FunctionDefinition → List Token → Prop
  | intro {type t star id params declarations body ts us} : TypeSpecifier.Derives v type t →
      ParamsOptDerive v params ts →
      Stmt.Derives v .statement (.compoundStmt declarations body) us →
      Derives ⟨type, star, id, params, declarations, body⟩
        (t :: starTokens star ++ .id id :: .lparen :: ts ++ .rparen :: us)

inductive ExternalDeclaration.Derives : ExternalDeclaration → List Token → Prop
  | function {f ts} : f.Derives v ts → Derives (.function f) ts
  | declaration {d ts} : d.Derives v ts → Derives (.declaration d) ts

inductive TranslationUnit.Derives : TranslationUnit → List Token → Prop
  | single {d ts} : ExternalDeclaration.Derives v d ts → Derives [d] ts
  | snoc {ds d ts us} : Derives ds ts → ExternalDeclaration.Derives v d us →
      Derives (ds ++ [d]) (ts ++ us)

/-- The grammar accepts a token stream. -/
def Accepted (ts : List Token) : Prop := ∃ tu, TranslationUnit.Derives v tu ts

variable {v}

theorem ExternalDeclaration.Derives.ne_nil {d : ExternalDeclaration} {ts : List Token}
    (h : d.Derives v ts) : ts ≠ [] := by
  cases h with
  | function h => cases h; simp
  | declaration h => cases h <;> simp

/-- There is no empty translation unit. -/
theorem not_accepted_nil : ¬ Accepted v [] := by
  rintro ⟨tu, h⟩
  generalize hts : ([] : List Token) = ts at h
  cases h with
  | single h => exact h.ne_nil hts.symm
  | snoc _ h => exact h.ne_nil (List.append_eq_nil_iff.mp hts.symm).2

/-- What is a `cast_expression` is an expression at every level above. -/
theorem Expr.Derives.binary_of_cast {e : Expr} {ts : List Token} (h : e.Derives v .cast ts)
    {n k : Nat} (hn : n + k = 9) : e.Derives v (.binary n) ts := by
  induction k generalizing n with
  | zero =>
    obtain rfl : n = 9 := hn
    exact .operand le_rfl h
  | succ k ih =>
    refine .operand (by omega) ?_
    rw [operandLevel, if_pos (by omega)]
    exact ih (by omega)

theorem Expr.Derives.expression_of_cast {e : Expr} {ts : List Token} (h : e.Derives v .cast ts) :
    e.Derives v .expression ts :=
  .expression (.assignment (.conditional (h.binary_of_cast (zero_add 9))))

/-- `int x;`. -/
theorem accepted_declaration (id : String) : Accepted v [.intKeyword, .id id, .semicolon] := by
  have h : Declaration.Derives v ⟨.int, false, id, none⟩ [.intKeyword, .id id, .semicolon] :=
    .plain (.int v)
  exact ⟨_, .single (.declaration h)⟩

end CourseCompilers.MiniC
