import CourseCompilers.Lib.Prog
import CourseCompilers.MiniC.Symbol
import CourseCompilers.MiniC.Syntax

/-! The actions of the two `p2` front ends. The parser runs the action of a rule
when the last symbol of the rule has been read, so the actions of a tree run from
its leaves upwards and from left to right. -/

namespace CourseCompilers.MiniC
open Lib

/-- The C front end `p2` and the C++ front end `p2cpp`. -/
inductive FrontEnd where
  | c
  | cpp
  deriving DecidableEq, Repr

inductive Ty where
  | int32
  | float
  | void
  | pointer (t : Ty)
  deriving DecidableEq, Repr

/-- Allocas and loads are numbered in the function they are in, parameters in its
type, global variables in the module. -/
inductive Value where
  | global (n : Nat)
  | param (n : Nat)
  | alloca (n : Nat)
  | load (n : Nat)
  | constInt (n : Int)
  | constReal (n : Int)
  | constPointerNull (t : Ty)
  deriving DecidableEq, Repr

inductive Inst where
  | alloca (t : Ty) (name : String)
  | store (val ptr : Value)
  | load (ptr : Value)
  | ret (val : Option Value)
  deriving DecidableEq, Repr

def Inst.isAlloca : Inst → Bool
  | .alloca _ _ => true
  | _ => false

def Inst.isLoad : Inst → Bool
  | .load _ => true
  | _ => false

def Inst.isTerminator : Inst → Bool
  | .ret _ => true
  | _ => false

/-- A function; `entry` is its only block. -/
structure Function where
  retType : Ty
  name : String
  params : List Ty
  entry : List Inst
  deriving DecidableEq, Repr

/-- An object of the module, with the name that was asked for. -/
inductive Global where
  | variable (t : Ty) (name : String)
  | function (f : Function)
  deriving DecidableEq, Repr

def Global.name : Global → String
  | .variable _ name => name
  | .function f => f.name

/-- The value of a variable that is in the module with this number. -/
def Global.address (n : Nat) : Global → Option Value
  | .variable _ _ => some (.global n)
  | .function _ => none

def Global.append (i : Inst) : Global → Global
  | .variable t name => .variable t name
  | .function f => .function { f with entry := f.entry ++ [i] }

def Global.entry : Global → Option (List Inst)
  | .variable _ _ => none
  | .function f => some f.entry

/-- `LLVMGetNamedGlobal`. A name belongs to the first object that asked for it, later
ones are renamed; functions are not variables. -/
def getNamedGlobal (module : List Global) (name : String) : Option Value :=
  (module.findIdx? (·.name = name)).bind fun n => (module[n]?).bind (Global.address n)

/-- The global variables of the compiler; `builder` is the function whose entry
block instructions are appended to. -/
structure State where
  scopes : Scopes Value
  module : List Global
  builder : Option Nat
  numErrors : Nat

def State.initial : State := ⟨[], [], none, 0⟩

/-- The block instructions are appended to. -/
def State.entry (s : State) : Option (List Inst) :=
  s.builder.bind fun k => (s.module[k]?).bind Global.entry

def State.append (s : State) (i : Inst) : Option State :=
  s.builder.map fun k => { s with module := s.module.modify k (Global.append i) }

/-- The calls the front end makes to look up a name, to insert a name into a live
scope and to build a load, and the addresses it gives to assignment targets. -/
inductive Event where
  | find (name : String) (val : Option Value)
  | insert (name : Option String) (val : Value)
  | load (ptr : Option Value)
  | target (val : Option Value)
  deriving DecidableEq, Repr

abbrev Action (α : Type) := Prog State Event α

/-- The semantic value of an expression; `junk` is a pointer to no value, left by a
rule whose action does not set one. -/
inductive Ref where
  | null
  | value (v : Value)
  | junk
  deriving DecidableEq, Repr

def Ref.ofOption : Option Value → Ref
  | none => .null
  | some v => .value v

section
open Prog

/-! ## Building instructions -/

/-- Append an instruction; its value is numbered among those of its `kind`. -/
def build (kind : Inst → Bool) (i : Inst) : Action Nat := do
  let s ← read
  change fun s => s.append i
  return (s.entry.getD []).countP kind

/-- `LLVMBuildAlloca`; it takes the length of the name. -/
def buildAlloca (t : Ty) (name : Option String) : Action Value := do
  match name with
  | none => crash
  | some name =>
      let n ← build Inst.isAlloca (.alloca t name)
      return .alloca n

def buildStore (val ptr : Value) : Action Unit := do
  let _ ← build (fun _ => false) (.store val ptr)

/-- `LLVMBuildLoad`; it asks the address for its type. -/
def buildLoad (ptr : Option Value) : Action Value := do
  observe (.load ptr)
  match ptr with
  | none => crash
  | some ptr =>
      let n ← build Inst.isLoad (.load ptr)
      return .load n

def buildRet (val : Option Value) : Action Unit := do
  let _ ← build (fun _ => false) (.ret val)

/-! ## The symbol table -/

variable (hash : String → Nat)

def pushScope : Action Unit := change fun s => some { s with scopes := symbolPushScope s.scopes }

def popScope : Action Unit :=
  change fun s => (symbolPopScope s.scopes).map fun scopes => { s with scopes }

/-- `symbol_insert`; in a live scope it takes the length of the name. -/
def insertSymbol (name : Option String) (val : Value) : Action Unit := do
  let s ← read
  if isGlobalScope s.scopes then
    return
  observe (.insert name val)
  match name with
  | none => crash
  | some name => change fun s => some { s with scopes := symbolInsert hash s.scopes name val }

def findSymbol (name : String) : Action (Option Value) := do
  let s ← read
  let val := symbolFind hash (getNamedGlobal s.module) s.scopes name
  observe (.find name val)
  return val

/-! ## Expressions -/

/-- `$$ = val` in `lhs_expression: ID`. -/
def setTarget (val : Option Value) : Action Ref := do
  observe (.target val)
  return .ofOption val

def lhsExpression (v : FrontEnd) (lhs : LhsExpression) : Action Ref := do
  let val ← findSymbol hash lhs.id
  match v with
  | .c =>
      if lhs.star then
        return .value (← buildLoad val)
      else
        setTarget val
  | .cpp =>
      match val with
      | none => return .junk
      | some val =>
          if lhs.star then
            return .value (← buildLoad val)
          else
            setTarget val

/-- `primary_expression: ID`. -/
def primaryId (v : FrontEnd) (name : String) : Action Ref := do
  let val ← findSymbol hash name
  match v with
  | .c => return .value (← buildLoad val)
  | .cpp =>
      match val with
      | none => return .junk
      | some val => return .value (← buildLoad val)

/-- The value of a `unary_expression` from that of its operand. -/
def UnaryOp.value (v : FrontEnd) (op : UnaryOp) (r : Ref) : Ref :=
  match op, v with
  | .star, _ | .plus, _ | .ampersand, .cpp => r
  | _, _ => .junk

/-- The value of a rule that does not set one is that of its first symbol. -/
def expression (v : FrontEnd) : Expr → Action Ref
  | .assign lhs e => do
      let r ← lhsExpression hash v lhs
      let _ ← expression v e
      return r
  | .conditional c t e => do
      let r ← expression v c
      let _ ← expression v t
      let _ ← expression v e
      return r
  | .binary _ a b => do
      let r ← expression v a
      let _ ← expression v b
      return r
  | .cast _ _ e => expression v e
  | .unary op e => do
      let r ← expression v e
      return op.value v r
  | .id name => primaryId hash v name
  | .constantInteger _ | .constantFloat _ => return .junk
  | .paren e => expression v e

def exprOpt (v : FrontEnd) : Option Expr → Action Unit
  | none => return
  | some e => do
      let _ ← expression hash v e

/-! ## Declarations and statements -/

def TypeSpecifier.ty : TypeSpecifier → Ty
  | .int => .int32
  | .float => .float
  | .void => .void

/-- The type of `type_specifier` or of `type_specifier STAR`. -/
def declaredTy (type : TypeSpecifier) (star : Bool) : Ty :=
  if star then .pointer type.ty else type.ty

/-- `LLVMAddGlobal`. -/
def addGlobal (t : Ty) (name : String) : Action Unit :=
  change fun s => some { s with module := s.module ++ [.variable t name] }

/-- The action of `declaration`; it makes nothing of the initializer. -/
def declare (t : Ty) (name : String) : Action Unit := do
  let s ← read
  if isGlobalScope s.scopes then
    addGlobal t name
  else
    insertSymbol hash name (← buildAlloca t name)

def declaration (v : FrontEnd) (d : Declaration) : Action Unit := do
  exprOpt hash v d.initializer
  declare hash (declaredTy d.type d.star) d.id

def declarationList (v : FrontEnd) : List Declaration → Action Unit
  | [] => return
  | d :: ds => do
      declaration hash v d
      declarationList v ds

/-- The C++ action builds the return from a value that may be junk. -/
def returnExpression (v : FrontEnd) (r : Ref) : Action Unit :=
  match v, r with
  | .c, _ => return
  | .cpp, .null => buildRet none
  | .cpp, .value val => buildRet (some val)
  | .cpp, .junk => crash

def statement (v : FrontEnd) : Stmt → Action Unit
  | .none => return
  | .list l s => do
      statement v l
      statement v s
  | .exprStmt e => exprOpt hash v e
  | .compoundStmt ds body => do
      -- the action of `compound_stmt` is empty: it opens no scope
      declarationList hash v ds
      statement v body
  | .ifStmt c t e => do
      let _ ← expression hash v c
      statement v t
      statement v e
  | .switchStmt e s => do
      let _ ← expression hash v e
      statement v s
  | .whileStmt e s => do
      let _ ← expression hash v e
      statement v s
  | .forStmt init test next s => do
      exprOpt hash v init
      exprOpt hash v test
      exprOpt hash v next
      statement v s
  | .doStmt s e => do
      statement v s
      let _ ← expression hash v e
  | .returnStmt none => buildRet none
  | .returnStmt (some e) => do
      let r ← expression hash v e
      returnExpression v r
  | .breakStmt | .continueStmt => return
  | .caseStmt e => do
      let _ ← expression hash v e

/-! ## Functions -/

/-- A node of a `paramlist_t`. -/
structure ParamNode where
  name : Option String
  type : Ty
  deriving DecidableEq, Repr

def pushParam (head : List ParamNode) (name : Option String) (type : Ty) : List ParamNode :=
  ⟨name, type⟩ :: head

/-- `param_list_opt`. -/
def paramList (ps : List Param) : List ParamNode :=
  ps.foldl (fun head p => pushParam head p.id (declaredTy p.type p.star)) []

/-- The loop that fills an array from its last index downwards; `filled` is the
array above the next index. -/
def fillDown {α : Type} (field : ParamNode → α) : List ParamNode → List α → List α
  | [], filled => filled
  | tmp :: rest, filled => fillDown field rest (field tmp :: filled)

/-- The second loop of the C `BuildFunction`, `for (i = size-1; i >= 0; i--)`. -/
def bindParamsDown : List ParamNode → Nat → Action Unit
  | tmp :: rest, i + 1 => do
      let alloca ← buildAlloca tmp.type tmp.name
      buildStore (.param i) alloca
      insertSymbol hash tmp.name alloca
      bindParamsDown rest i
  | _, _ => return

/-- The loop of the C++ `BuildFunction` over the arguments of the function. -/
def bindParamsUp : List Ty → List (Option String) → Nat → Action Unit
  | t :: v, name :: vname, i => do
      let alloca ← buildAlloca t (some "")
      buildStore (.param i) alloca
      insertSymbol hash name alloca
      bindParamsUp v vname (i + 1)
  | _, _, _ => return

/-- Create the function and point the builder at its entry block. -/
def createFunction (retType : Ty) (name : String) (params : List Ty) : Action Unit :=
  change fun s => some { s with
    module := s.module ++ [.function ⟨retType, name, params, []⟩]
    builder := some s.module.length }

def buildFunction (v : FrontEnd) (retType : Ty) (name : String) (params : List ParamNode) :
    Action Unit := do
  createFunction retType name (fillDown ParamNode.type params [])
  match v with
  | .c => bindParamsDown hash params params.length
  | .cpp =>
      bindParamsUp hash (fillDown ParamNode.type params []) (fillDown ParamNode.name params []) 0

/-- What a completed function returns where its block has no terminator; the C++
action for pointers builds nothing. -/
def defaultReturn (v : FrontEnd) (type : TypeSpecifier) (star : Bool) : Action Unit :=
  match v, star, type with
  | .c, true, _ => buildRet (some (.constPointerNull (declaredTy type true)))
  | .c, false, .int => buildRet (some (.constInt 0))
  | .c, false, .float => buildRet (some (.constReal 0))
  | .c, false, .void => buildRet none
  | .cpp, false, _ => buildRet (some (.constInt 0))
  | .cpp, true, _ => return

/-- The action of `function_definition` in front of the body. -/
def enterFunction (v : FrontEnd) (retType : Ty) (name : String) (params : List ParamNode) :
    Action Unit := do
  pushScope
  buildFunction hash v retType name params

/-- The action of `function_definition` after the body. -/
def leaveFunction (v : FrontEnd) (type : TypeSpecifier) (star : Bool) : Action Unit := do
  let s ← read
  unless ((s.entry.getD []).getLast?.any Inst.isTerminator) do
    defaultReturn v type star
  popScope

def functionDefinition (v : FrontEnd) (f : FunctionDefinition) : Action Unit := do
  enterFunction hash v (declaredTy f.type f.star) f.id (paramList f.params)
  statement hash v (.compoundStmt f.declarations f.body)
  leaveFunction v f.type f.star

/-- The action of `external_declaration: function_definition`; past a hundred errors
the compiler exits. -/
def checkErrors : Action Unit := do
  let s ← read
  if s.numErrors > 100 then
    crash

def externalDeclaration (v : FrontEnd) : ExternalDeclaration → Action Unit
  | .function f => do
      functionDefinition hash v f
      checkErrors
  | .declaration d => declaration hash v d

def translationUnit (v : FrontEnd) : TranslationUnit → Action Unit
  | [] => return
  | d :: ds => do
      externalDeclaration hash v d
      translationUnit v ds

end

end CourseCompilers.MiniC
