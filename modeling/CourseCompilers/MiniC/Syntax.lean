/-! The trees of the MiniC grammar, the derivations of `minic.y` without its unit
productions. -/

namespace CourseCompilers.MiniC

/-- `p2cpp` has `int` only. -/
inductive TypeSpecifier where
  | int
  | float
  | void
  deriving DecidableEq, Repr

/-- The operators of the levels from `logical_OR_expression` down to
`multiplicative_expression`. -/
inductive BinaryOp where
  | logicalOr | logicalAnd | bitwiseOr | bitwiseXor | ampersand
  | eq | neq | lt | gt | lte | gte
  | lshift | rshift | plus | minus | star | div | mod
  deriving DecidableEq, Repr

inductive UnaryOp where
  | ampersand | star | minus | plus | bitwiseInvert | not
  deriving DecidableEq, Repr

/-- `lhs_expression: ID | STAR ID`. -/
structure LhsExpression where
  star : Bool
  id : String
  deriving DecidableEq, Repr

inductive Expr where
  | assign (lhs : LhsExpression) (e : Expr)
  | conditional (c t e : Expr)
  | binary (op : BinaryOp) (a b : Expr)
  | cast (type : TypeSpecifier) (star : Bool) (e : Expr)
  | unary (op : UnaryOp) (e : Expr)
  | id (name : String)
  | constantInteger (text : String)
  | constantFloat (text : String)
  | paren (e : Expr)
  deriving DecidableEq, Repr

structure Declaration where
  type : TypeSpecifier
  star : Bool
  id : String
  initializer : Option Expr
  deriving DecidableEq, Repr

/-- `statement`, `statement_list` and `statement_list_opt` in one type: `none` is
the empty `statement_list_opt`, `list l s` is `statement_list: statement_list
statement`. -/
inductive Stmt where
  | none
  | list (l s : Stmt)
  | exprStmt (e : Option Expr)
  | compoundStmt (declarations : List Declaration) (body : Stmt)
  | ifStmt (c : Expr) (t e : Stmt)
  | switchStmt (e : Expr) (s : Stmt)
  | whileStmt (e : Expr) (s : Stmt)
  | forStmt (init test next : Option Expr) (s : Stmt)
  | doStmt (s : Stmt) (e : Expr)
  | returnStmt (e : Option Expr)
  | breakStmt
  | continueStmt
  | caseStmt (e : Expr)
  deriving DecidableEq, Repr

/-- An entry of `param_list`; the declarator may be missing. -/
structure Param where
  type : TypeSpecifier
  star : Bool
  id : Option String
  deriving DecidableEq, Repr

structure FunctionDefinition where
  type : TypeSpecifier
  star : Bool
  id : String
  params : List Param
  declarations : List Declaration
  body : Stmt
  deriving DecidableEq, Repr

inductive ExternalDeclaration where
  | function (f : FunctionDefinition)
  | declaration (d : Declaration)
  deriving DecidableEq, Repr

abbrev TranslationUnit := List ExternalDeclaration

end CourseCompilers.MiniC
