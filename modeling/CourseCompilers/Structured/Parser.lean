import CourseCompilers.Lib.Actions
import CourseCompilers.Structured.Build
import CourseCompilers.Structured.Reading

/-! The parser of the third tutorial, token by token and with its actions, in the order
in which `bison` runs them. A mid-rule action runs as soon as what stands before it is
read; the action of `program` returns before the next token is asked for. The limit
`YYMAXDEPTH` of the parser's stack is left out. -/

namespace CourseCompilers.Structured
open Lib.Precedence Expressions Ir

/-- The tokens of `expr.lex`: those of expressions, and the others. -/
inductive Tok where
  | expr (t : Token Symbol Leaf)
  | assign
  | semi
  | lbrace
  | rbrace
  | ifKeyword
  | whileKeyword
  | returnKeyword
  deriving DecidableEq, Repr

/-! ## Actions -/

section
variable {V : Version}

/-- An action that builds one operand. -/
def Parse.emit (P : Parse V) (f : Builder → Operand × Builder) : Operand × Parse V :=
  ((f P.builder).1, ⟨(f P.builder).2, P.map⟩)

/-- `stmt: ID ASSIGN expr SEMI`. -/
def Parse.assign (P : Parse V) (x : String) (v : Operand) : Parse V :=
  match V.names.find P.map x with
  | some var => ⟨(P.builder.insert (.store v var)).2, P.map⟩
  | none =>
      let (var, B) := P.builder.insert (.alloca .i64)
      ⟨(B.insert (.store v var)).2, V.names.insert x var P.map⟩

/-- The action after the parenthesis of `if` and of `while`; its value is the join block. -/
def Parse.beginBody (F : Folder) (P : Parse V) (v : Operand) : Nat × Parse V :=
  ((branchOnNonzero F v P.builder).1, ⟨(branchOnNonzero F v P.builder).2, P.map⟩)

/-- The action after `WHILE`; its value is the block of the condition. -/
def Parse.beginWhile (P : Parse V) : Nat × Parse V :=
  let (cond, B) := P.builder.appendBlock
  let (_, B) := B.insert (.br cond)
  (cond, ⟨B.positionAtEnd cond, P.map⟩)

/-- The action of `program`. -/
def Parse.ret (P : Parse V) (v : Operand) : Parse V :=
  ⟨(P.builder.insert (.ret (some v))).2, P.map⟩

/-- A body that is open, with the blocks its closing action needs. -/
inductive Branch where
  | ifThen (join : Nat)
  | whileDo (cond exit : Nat)
  deriving DecidableEq, Repr

/-- The closing action of a body. -/
def Branch.close (P : Parse V) : Branch → Parse V
  | .ifThen join => P.close join join
  | .whileDo cond exit => P.close (if V.backEdge then cond else exit) exit

end

/-- The actions of `expr`. -/
def exprActions (F : Folder) (V : Version) : Actions Binary Unary Leaf Operand (Parse V) where
  atom
    | .immediate n, P => some (i64 (n.signExtend 64), P)
    | .id x, P => (V.names.find P.map x).map fun alloca => P.emit fun B => B.insert (.load alloca)
  pre
    | .minus, x, P => P.emit fun B => B.buildOp F (.sub zero x)
    | .not, x, P =>
        let (icmp, P) := P.emit fun B => B.buildOp F (.icmpEq x zero)
        P.emit fun B => B.buildOp F (.zext icmp .i64)
  bin
    | .plus, x, y, P => P.emit fun B => B.buildOp F (.add x y)
    | .minus, x, y, P => P.emit fun B => B.buildOp F (.sub x y)
    | .multiply, x, y, P => if V.mulDiv then P.emit fun B => B.buildOp F (.mul x y) else (x, P)
    | .divide, x, y, P => if V.mulDiv then P.emit fun B => B.buildOp F (.sdiv x y) else (x, P)

/-! ## The parser -/

/-- Where an expression stands: what has been read of its statement. In `whileCond` the
value of the action before it. -/
inductive Slot (β : Type) where
  | assign (x : String)
  | ifCond
  | whileCond (cond : β)
  | result

/-- The token after the expression. -/
def Slot.stop {β : Type} : Slot β → Tok
  | .assign _ | .result => .semi
  | .ifCond | .whileCond _ => .expr .rparen

/-- What has been read of the innermost statement list that is not a statement yet. In
`body` the next token is the brace, in `semi` the last one. -/
inductive Point where
  | program
  | stmtlist (nonempty : Bool)
  | id (x : String)
  | ifKeyword
  | whileKeyword (cond : Nat)
  | expr (slot : Slot Nat) (e : Running Binary Unary Operand)
  | body (b : Branch)
  | semi (v : Operand)
  | done

/-- The parser between two tokens. -/
structure Parser (V : Version) where
  bodies : List Branch
  point : Point
  global : Parse V

section
variable (F : Folder) {V : Version}

/-- The expression is read, and its value is `v`. -/
def Slot.complete (bs : List Branch) (v : Operand) (P : Parse V) : Slot Nat → Parser V
  | .assign x => ⟨bs, .stmtlist true, P.assign x v⟩
  | .ifCond => ⟨bs, .body (.ifThen (P.beginBody F v).1), (P.beginBody F v).2⟩
  | .whileCond cond => ⟨bs, .body (.whileDo cond (P.beginBody F v).1), (P.beginBody F v).2⟩
  | .result => ⟨bs, .semi v, P⟩

/-- Read a token, and run the actions of the rules that it completes. -/
def Parser.step : Parser V → Tok → Except Failure (Parser V)
  | ⟨bs, .program, P⟩, .lbrace => .ok ⟨bs, .stmtlist false, P⟩
  | ⟨bs, .stmtlist _, P⟩, .semi => .ok ⟨bs, .stmtlist true, P⟩
  | ⟨bs, .stmtlist _, P⟩, .expr (.atom (.id x)) => .ok ⟨bs, .id x, P⟩
  | ⟨bs, .stmtlist _, P⟩, .ifKeyword => .ok ⟨bs, .ifKeyword, P⟩
  | ⟨bs, .stmtlist _, P⟩, .whileKeyword => .ok ⟨bs, .whileKeyword P.beginWhile.1, P.beginWhile.2⟩
  | ⟨b :: bs, .stmtlist true, P⟩, .rbrace => .ok ⟨bs, .stmtlist true, b.close P⟩
  | ⟨[], .stmtlist true, P⟩, .returnKeyword => .ok ⟨[], .expr .result .initial, P⟩
  | ⟨bs, .id x, P⟩, .assign => .ok ⟨bs, .expr (.assign x) .initial, P⟩
  | ⟨bs, .ifKeyword, P⟩, .expr .lparen => .ok ⟨bs, .expr .ifCond .initial, P⟩
  | ⟨bs, .whileKeyword cond, P⟩, .expr .lparen => .ok ⟨bs, .expr (.whileCond cond) .initial, P⟩
  | ⟨bs, .expr slot e, P⟩, t =>
      match if t = slot.stop then finishActing (exprActions F V) e P else none, t with
      | some (v, P), _ => .ok (slot.complete F bs v P)
      | none, .expr t =>
          (stepActing (exprActions F V) spelling resolution e P t).map fun x =>
            ⟨bs, .expr slot x.1, x.2⟩
      | none, _ => .error .syntaxError
  | ⟨bs, .body b, P⟩, .lbrace => .ok ⟨b :: bs, .stmtlist false, P⟩
  | ⟨bs, .semi v, P⟩, .rbrace => .ok ⟨bs, .done, P.ret v⟩
  | _, _ => .error .syntaxError

def Point.isDone : Point → Bool
  | .done => true
  | _ => false

/-- `yyparse` on the tokens to come. -/
def Parser.yyparse (s : Parser V) : List Tok → Except Failure (Parse V)
  | [] => if s.point.isDone then .ok s.global else .error .syntaxError
  | t :: ts => if s.point.isDone then .ok s.global else (s.step F t).bind fun s => s.yyparse ts

def Parser.start (V : Version) : Parser V := ⟨[], .program, ⟨Builder.entry, V.names.empty⟩⟩

end

/-! ## Texts of programs -/

/-- The derivation of an expression, its literals as the scanner hands them over. -/
def Expr.tree : Expr → Tree Binary Unary Leaf
  | .immediate n => .atom (.immediate (atoi n))
  | .id x => .atom (.id x)
  | .plus a b => .bin .plus a.tree b.tree
  | .minus a b => .bin .minus a.tree b.tree
  | .multiply a b => .bin .multiply a.tree b.tree
  | .divide a b => .bin .divide a.tree b.tree
  | .paren a => .paren a.tree
  | .neg a => .pre .minus a.tree
  | .not a => .pre .not a.tree

def Expr.text (e : Expr) : Text := e.tree.tokens spelling

def Stmt.tokens : Stmt → List Tok
  | .assign x e => .expr (.atom (.id x)) :: .assign :: (e.text.map .expr ++ [.semi])
  | .ifThen c s =>
      .ifKeyword :: .expr .lparen :: (c.text.map .expr ++
        .expr .rparen :: .lbrace :: (s.tokens ++ [.rbrace]))
  | .whileDo c s =>
      .whileKeyword :: .expr .lparen :: (c.text.map .expr ++
        .expr .rparen :: .lbrace :: (s.tokens ++ [.rbrace]))
  | .null => [.semi]
  | .seq l s => l.tokens ++ s.tokens

def Program.tokens (p : Program) : List Tok :=
  .lbrace :: (p.body.tokens ++ .returnKeyword :: (p.result.text.map .expr ++ [.semi, .rbrace]))

/-- The expression is the one that the precedence declarations choose for its text. -/
def Expr.Declared (e : Expr) : Prop := parseExpr e.text = some e.tree

instance (e : Expr) : Decidable e.Declared := inferInstanceAs (Decidable (_ = _))

def Stmt.Declared : Stmt → Prop
  | .assign _ e => e.Declared
  | .ifThen c s | .whileDo c s => c.Declared ∧ s.Declared
  | .null => True
  | .seq l s => l.Declared ∧ s.Declared

def Program.Declared (p : Program) : Prop := p.body.Declared ∧ p.result.Declared

instance Stmt.decDeclared : (s : Stmt) → Decidable s.Declared
  | .assign _ e => inferInstanceAs (Decidable e.Declared)
  | .ifThen c s | .whileDo c s =>
      have := decDeclared s
      inferInstanceAs (Decidable (c.Declared ∧ s.Declared))
  | .null => inferInstanceAs (Decidable True)
  | .seq l s =>
      have := decDeclared l
      have := decDeclared s
      inferInstanceAs (Decidable (l.Declared ∧ s.Declared))

instance (p : Program) : Decidable p.Declared := inferInstanceAs (Decidable (_ ∧ _))

end CourseCompilers.Structured
