import CourseCompilers.MiniC.Grammar

/-! The `p2` compilers from the command line to the exit status: `main`, the file
chaining of `yywrap` and the ways in which reading may fail. -/

namespace CourseCompilers.MiniC
open Lib Prog

/-! ## The actions of single rules -/

variable (hash : String → Nat) (v : FrontEnd)

/-- The actions of the rules of the grammar that do something, with any semantic values. -/
inductive RuleAction : {α : Type} → Action α → Prop
  | lhsExpression (lhs : LhsExpression) : RuleAction (lhsExpression hash v lhs)
  | primaryId (name : String) : RuleAction (primaryId hash v name)
  | declare (t : Ty) (name : String) : RuleAction (declare hash t name)
  | returnVoid : RuleAction (buildRet none)
  | returnExpression (r : Ref) : RuleAction (returnExpression v r)
  | enterFunction (t : Ty) (name : String) (params : List ParamNode) :
      RuleAction (enterFunction hash v t name params)
  | leaveFunction (type : TypeSpecifier) (star : Bool) : RuleAction (leaveFunction v type star)
  | checkErrors : RuleAction checkErrors

/-- What runs the actions of rules, one after the other, and does nothing else. -/
inductive RunsRules : {α : Type} → Action α → Prop
  | rule {α : Type} {m : Action α} : RuleAction hash v m → RunsRules m
  | pure {α : Type} (a : α) : RunsRules (pure a)
  | bind {α β : Type} {m : Action α} {f : α → Action β} : RunsRules m → (∀ a, RunsRules (f a)) →
      RunsRules (m >>= f)

variable {hash v}

theorem RunsRules.expression (e : Expr) : RunsRules hash v (expression hash v e) := by
  induction e with
  | assign lhs e ih => exact (rule (.lhsExpression lhs)).bind fun r => ih.bind fun _ => .pure r
  | conditional c t e ihc iht ihe =>
    exact ihc.bind fun r => iht.bind fun _ => ihe.bind fun _ => .pure r
  | binary op a b iha ihb => exact iha.bind fun r => ihb.bind fun _ => .pure r
  | cast type star e ih | paren e ih => exact ih
  | unary op e ih => exact ih.bind fun r => .pure _
  | id name => exact rule (.primaryId name)
  | constantInteger text | constantFloat text => exact .pure _

theorem RunsRules.exprOpt (e : Option Expr) : RunsRules hash v (exprOpt hash v e) := by
  cases e with
  | none => exact .pure _
  | some e => exact (RunsRules.expression e).bind fun _ => .pure _

theorem RunsRules.declaration (d : Declaration) : RunsRules hash v (declaration hash v d) :=
  (RunsRules.exprOpt d.initializer).bind fun _ => rule (.declare _ _)

theorem RunsRules.declarationList (ds : List Declaration) :
    RunsRules hash v (declarationList hash v ds) := by
  induction ds with
  | nil => exact .pure _
  | cons d ds ih => exact (RunsRules.declaration d).bind fun _ => ih

theorem RunsRules.statement (s : Stmt) : RunsRules hash v (statement hash v s) := by
  induction s with
  | none | breakStmt | continueStmt => exact .pure _
  | list l s ihl ihs => exact ihl.bind fun _ => ihs
  | exprStmt e => exact RunsRules.exprOpt e
  | compoundStmt ds body ih => exact (RunsRules.declarationList ds).bind fun _ => ih
  | ifStmt c t e iht ihe => exact (RunsRules.expression c).bind fun _ => iht.bind fun _ => ihe
  | switchStmt e s ih | whileStmt e s ih => exact (RunsRules.expression e).bind fun _ => ih
  | forStmt init test next s ih =>
    exact (RunsRules.exprOpt init).bind fun _ => (RunsRules.exprOpt test).bind fun _ =>
      (RunsRules.exprOpt next).bind fun _ => ih
  | doStmt s e ih => exact ih.bind fun _ => (RunsRules.expression e).bind fun _ => .pure _
  | returnStmt e =>
    cases e with
    | none => exact rule .returnVoid
    | some e => exact (RunsRules.expression e).bind fun r => rule (.returnExpression r)
  | caseStmt e => exact (RunsRules.expression e).bind fun _ => .pure _

theorem RunsRules.functionDefinition (f : FunctionDefinition) :
    RunsRules hash v (functionDefinition hash v f) :=
  (rule (.enterFunction _ _ _)).bind fun _ => (RunsRules.statement _).bind fun _ =>
    rule (.leaveFunction _ _)

/-- The actions of a derivation are actions of rules. -/
theorem RunsRules.translationUnit (tu : TranslationUnit) :
    RunsRules hash v (translationUnit hash v tu) := by
  induction tu with
  | nil => exact .pure _
  | cons d ds ih =>
    refine RunsRules.bind ?_ fun _ => ih
    cases d with
    | function f => exact (RunsRules.functionDefinition f).bind fun _ => rule .checkErrors
    | declaration d => exact RunsRules.declaration d

/-! ## No action counts an error -/

/-- The action does not change `num_errors`. -/
abbrev KeepsErrors {α : Type} (m : Action α) : Prop := m.Keeps State.numErrors

theorem KeepsErrors.build (kind : Inst → Bool) (i : Inst) : KeepsErrors (build kind i) := by
  refine Keeps.read.bind fun _ => (Keeps.change fun s t ht => ?_).bind fun _ => .pure _
  obtain ⟨k, _, rfl⟩ := Option.map_eq_some_iff.mp ht
  rfl

theorem KeepsErrors.buildAlloca (t : Ty) (name : Option String) :
    KeepsErrors (buildAlloca t name) := by
  cases name with
  | none => exact .crash
  | some name => exact (KeepsErrors.build _ _).bind fun _ => .pure _

theorem KeepsErrors.buildStore (val ptr : Value) : KeepsErrors (buildStore val ptr) :=
  (KeepsErrors.build _ _).bind fun _ => .pure _

theorem KeepsErrors.buildRet (val : Option Value) : KeepsErrors (buildRet val) :=
  (KeepsErrors.build _ _).bind fun _ => .pure _

theorem KeepsErrors.buildLoad (ptr : Option Value) : KeepsErrors (buildLoad ptr) := by
  refine (Keeps.observe _).bind fun _ => ?_
  cases ptr with
  | none => exact .crash
  | some ptr => exact (KeepsErrors.build _ _).bind fun _ => .pure _

theorem KeepsErrors.pushScope : KeepsErrors pushScope :=
  .change fun s t ht => by cases ht; rfl

theorem KeepsErrors.popScope : KeepsErrors popScope := by
  refine .change fun s t ht => ?_
  obtain ⟨scopes, _, rfl⟩ := Option.map_eq_some_iff.mp ht
  rfl

theorem KeepsErrors.insertSymbol (name : Option String) (val : Value) :
    KeepsErrors (insertSymbol hash name val) := by
  refine Keeps.read.bind fun s => ?_
  split
  · exact .pure _
  · refine (Keeps.observe _).bind fun _ => ?_
    cases name with
    | none => exact .crash
    | some name => exact .change fun s t ht => by cases ht; rfl

theorem KeepsErrors.findSymbol (name : String) : KeepsErrors (findSymbol hash name) :=
  Keeps.read.bind fun _ => (Keeps.observe _).bind fun _ => .pure _

theorem KeepsErrors.bindParamsDown (params : List ParamNode) (n : Nat) :
    KeepsErrors (bindParamsDown hash params n) := by
  induction params generalizing n with
  | nil => exact .pure _
  | cons tmp rest ih =>
    cases n with
    | zero => exact .pure _
    | succ i =>
      exact (KeepsErrors.buildAlloca _ _).bind fun _ => (KeepsErrors.buildStore _ _).bind fun _ =>
        (KeepsErrors.insertSymbol _ _).bind fun _ => ih i

theorem KeepsErrors.bindParamsUp (types : List Ty) (vname : List (Option String)) (i : Nat) :
    KeepsErrors (bindParamsUp hash types vname i) := by
  induction types generalizing vname i with
  | nil => exact .pure _
  | cons t types ih =>
    cases vname with
    | nil => exact .pure _
    | cons name vname =>
      exact (KeepsErrors.buildAlloca _ _).bind fun _ => (KeepsErrors.buildStore _ _).bind fun _ =>
        (KeepsErrors.insertSymbol _ _).bind fun _ => ih vname (i + 1)

theorem KeepsErrors.buildFunction (t : Ty) (name : String) (params : List ParamNode) :
    KeepsErrors (buildFunction hash v t name params) := by
  have hcreate : KeepsErrors (createFunction t name (fillDown ParamNode.type params [])) :=
    .change fun s u hu => by cases hu; rfl
  refine hcreate.bind fun _ => ?_
  cases v with
  | c => exact KeepsErrors.bindParamsDown _ _
  | cpp => exact KeepsErrors.bindParamsUp _ _ _

theorem KeepsErrors.defaultReturn (type : TypeSpecifier) (star : Bool) :
    KeepsErrors (defaultReturn v type star) := by
  cases v <;> cases star <;> cases type <;> first | exact KeepsErrors.buildRet _ | exact .pure _

/-- No action of a rule changes `num_errors`. -/
theorem RuleAction.keepsErrors {α : Type} {m : Action α} (h : RuleAction hash v m) :
    KeepsErrors m := by
  have hload : ∀ ptr : Option Value, KeepsErrors (do return Ref.value (← buildLoad ptr)) :=
    fun ptr => (KeepsErrors.buildLoad ptr).bind fun _ => .pure _
  have htarget : ∀ val, KeepsErrors (setTarget val) :=
    fun val => (Keeps.observe _).bind fun _ => .pure _
  cases h with
  | lhsExpression lhs =>
    obtain ⟨star, id⟩ := lhs
    refine (KeepsErrors.findSymbol id).bind fun val => ?_
    cases v with
    | c =>
      cases star with
      | false => exact htarget val
      | true => exact hload val
    | cpp =>
      cases val with
      | none => exact .pure _
      | some val =>
        cases star with
        | false => exact htarget val
        | true => exact hload val
  | primaryId name =>
    refine (KeepsErrors.findSymbol name).bind fun val => ?_
    cases v with
    | c => exact hload val
    | cpp =>
      cases val with
      | none => exact .pure _
      | some val => exact hload val
  | declare t name =>
    refine Keeps.read.bind fun s => ?_
    split
    · exact .change fun s u hu => by cases hu; rfl
    · exact (KeepsErrors.buildAlloca _ _).bind fun _ => KeepsErrors.insertSymbol _ _
  | returnVoid => exact KeepsErrors.buildRet none
  | returnExpression r =>
    cases v with
    | c => exact .pure _
    | cpp =>
      cases r with
      | null | value val => exact KeepsErrors.buildRet _
      | junk => exact .crash
  | enterFunction t name params =>
    exact KeepsErrors.pushScope.bind fun _ => KeepsErrors.buildFunction _ _ _
  | leaveFunction type star =>
    refine Keeps.read.bind fun s => ?_
    dsimp only
    split
    · exact KeepsErrors.popScope
    · exact (KeepsErrors.defaultReturn type star).bind fun _ => KeepsErrors.popScope
  | checkErrors =>
    refine Keeps.read.bind fun s => ?_
    split
    · exact .crash
    · exact .pure _

theorem RunsRules.keepsErrors {α : Type} {m : Action α} (h : RunsRules hash v m) :
    KeepsErrors m := by
  induction h with
  | rule h => exact h.keepsErrors
  | pure a => exact .pure a
  | bind _ _ ih ihf => exact ih.bind ihf

/-! ## Reading the files -/

/-- The files that `yywrap` opens one after the other; after one that it cannot open it
reports the end of the input. -/
def opened (fopen : String → Option (List Char)) : List String → List (List Char)
  | [] => []
  | f :: fs =>
      match fopen f with
      | none => []
      | some contents => contents :: opened fopen fs

/-- What the scanner reads. If the first file cannot be opened, `yyin` is still null
and the scanner takes the standard input for it. -/
def input (fopen : String → Option (List Char)) (stdin : List Char) : List String → Scan
  | [] => ⟨[], .eof .initial 1⟩
  | f :: fs => scanFiles .initial 1 ((fopen f).getD stdin :: opened fopen fs)

/-- What the parser knows of the token after those it has shifted. -/
inductive Lookahead where
  | unread
  | token (t : Token)
  | endOfInput
  deriving DecidableEq, Repr

/-- Why the parser stops. -/
inductive Stop where
  | accepted
  | unexpectedToken
  | unexpectedEnd
  | memoryExhausted (next : Lookahead)
  | lexicalError
  deriving DecidableEq, Repr

/-- The parser generated from the grammar: whether by its tables it is still without an
error after some tokens, whether they accept these as the whole input, whether its
stack, which holds `YYMAXDEPTH` symbols, gets full after some tokens, and the actions
it has run by the time it stops. -/
structure Parser where
  viable : List Token → Bool
  accepts : List Token → Bool
  exhausted : List Token → Lookahead → Bool
  actions : List Token → Stop → Action Unit

/-- The tokens `yyparse` reads until it stops; `got` are those it has already. -/
def yyparse (P : Parser) (ending : Ending) : List Token → List Token → List Token × Stop
  | got, [] =>
      if P.exhausted got .unread then (got, .memoryExhausted .unread)
      else
        match ending with
        | .lexicalError _ => (got, .lexicalError)
        | .eof _ _ =>
            if P.exhausted got .endOfInput then (got, .memoryExhausted .endOfInput)
            else if P.accepts got then (got, .accepted)
            else (got, .unexpectedEnd)
  | got, t :: ts =>
      if P.exhausted got .unread then (got, .memoryExhausted .unread)
      else if P.exhausted got (.token t) then (got, .memoryExhausted (.token t))
      else if P.viable (got ++ [t]) then yyparse P ending (got ++ [t]) ts
      else (got ++ [t], .unexpectedToken)

/-- `yyerror` prints a message. It does not count the error. -/
def yyerror (s : State) : State := s

/-- How the compiler ends: with a status and the module it has written, or killed by
a crash. -/
inductive Exit where
  | status (code : Int) (output : Option (List Global))
  | killed
  deriving DecidableEq, Repr

/-- `main` after `yyparse`. -/
def finish (s : State) : Exit :=
  if s.numErrors = 0 then .status 0 (some s.module) else .status 1 none

/-- `main` after the command line has been taken apart. -/
def main (P : Parser) (fopen : String → Option (List Char)) (stdin : List Char)
    (infile : List String) : Exit :=
  if infile = [] then .status 1 none
  else
    let source := input fopen stdin infile
    let p := yyparse P source.ending [] (source.tokens.map Prod.fst)
    match ((P.actions p.1 p.2).run .initial).2, p.2 with
    | none, _ => .killed
    | some _, .lexicalError => .status (-1) none
    | some (_, s), .accepted => finish s
    | some (_, s), _ => finish (yyerror s)

/-! ## Generated parsers -/

variable (v) in
/-- What `bison` promises of the tables: they accept the language of the grammar, and
they have an error at the first token that cannot be continued to a sentence. -/
structure Parser.HasTables (P : Parser) : Prop where
  accepts : ∀ ts, P.accepts ts = true ↔ Accepted v ts
  viable : ∀ ts, P.viable ts = true ↔ ∃ rest, Accepted v (ts ++ rest)

section
open Classical

/-- A parser with a stack for every input, which runs the actions of a derivation when it
has accepted it. -/
noncomputable def treeParser (hash : String → Nat) (v : FrontEnd) : Parser where
  viable ts := decide (∃ rest, Accepted v (ts ++ rest))
  accepts ts := decide (Accepted v ts)
  exhausted _ _ := false
  actions ts stop :=
    if h : stop = .accepted ∧ ∃ tu, TranslationUnit.Derives v tu ts then
      translationUnit hash v h.2.choose
    else pure ()

theorem treeParser_hasTables (hash : String → Nat) (v : FrontEnd) :
    (treeParser hash v).HasTables v where
  accepts _ := decide_eq_true_iff
  viable _ := decide_eq_true_iff

end

end CourseCompilers.MiniC
