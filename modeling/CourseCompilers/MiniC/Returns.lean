import CourseCompilers.MiniC.Grammar
import CourseCompilers.MiniC.Scoping

/-! The returns of a function of the C++ front end. The actions of `return` build a
terminator wherever they stand, and the completion of a function adds one only where
the block does not end in one and the return type is no pointer. -/

namespace CourseCompilers.MiniC
open Lib Prog

/-! ## Types of values -/

def Ty.pointee : Ty → Option Ty
  | .pointer t => some t
  | .int32 | .float | .void => none

def Global.variableTy : Global → Option Ty
  | .variable t _ => some t
  | .function _ => none

/-- The types of the variables that a block allocates and of the values it loads, in order. -/
structure BlockTypes where
  allocas : List Ty
  loads : List (Option Ty)
  deriving DecidableEq, Repr

section
variable (module : List Global) (params : List Ty)

/-- `getType` of a value. -/
def BlockTypes.valueTy (types : BlockTypes) : Value → Option Ty
  | .global n => ((module[n]?).bind Global.variableTy).map Ty.pointer
  | .param n => params[n]?
  | .alloca n => (types.allocas[n]?).map Ty.pointer
  | .load n => (types.loads[n]?).join
  | .constInt _ => some .int32
  | .constReal _ => some .float
  | .constPointerNull t => some t

def BlockTypes.next (types : BlockTypes) : Inst → BlockTypes
  | .alloca t _ => { types with allocas := types.allocas ++ [t] }
  | .load ptr =>
      { types with loads := types.loads ++ [(types.valueTy module params ptr).bind Ty.pointee] }
  | .store _ _ | .ret _ => types

def blockTypes (entry : List Inst) : BlockTypes :=
  entry.foldl (BlockTypes.next module params) ⟨[], []⟩

def valueTy (entry : List Inst) (v : Value) : Option Ty :=
  (blockTypes module params entry).valueTy module params v

end

def NoTerminator (l : List Inst) : Prop := ∀ i ∈ l, i.isTerminator = false

/-- The block ends in its only terminator, and that returns a value of the return type. -/
def Function.EndsInReturn (module : List Global) (f : Function) : Prop :=
  ∃ body v, f.entry = body ++ [.ret (some v)] ∧ NoTerminator body ∧
    valueTy module f.params f.entry v = some f.retType

/-! ## Function bodies -/

/-- A declaration or a statement of a body without control flow. -/
inductive Item where
  | declaration (d : Declaration)
  | expression (e : Option Expr)
  | ret (e : Option Expr)
  deriving DecidableEq, Repr

def Item.isReturn : Item → Bool
  | .ret _ => true
  | .declaration _ | .expression _ => false

/-- Nested compound statements, expression statements and returns only. -/
def Stmt.isFlat : Stmt → Bool
  | .none | .exprStmt _ | .returnStmt _ => true
  | .list l s => l.isFlat && s.isFlat
  | .compoundStmt _ body => body.isFlat
  | _ => false

def Stmt.items : Stmt → List Item
  | .list l s => l.items ++ s.items
  | .exprStmt e => [.expression e]
  | .compoundStmt ds body => ds.map Item.declaration ++ body.items
  | .returnStmt e => [.ret e]
  | _ => []

def FunctionDefinition.items (f : FunctionDefinition) : List Item :=
  (Stmt.compoundStmt f.declarations f.body).items

/-- The named parameters with their types. -/
def FunctionDefinition.variables (f : FunctionDefinition) : List (String × Ty) :=
  f.params.filterMap fun p => p.id.map fun id => (id, declaredTy p.type p.star)

section
variable (hash : String → Nat) (module : List Global)

/-- What `symbol_find` answers in a function of the module after these variables. -/
def addressOf (vars : List (String × Ty)) (name : String) : Option Value :=
  symbolFind hash (getNamedGlobal module) [tableAfter hash (numbered 0 (vars.map Prod.fst))] name

/-- The type of the variable at an address. -/
def variableTy (vars : List (String × Ty)) : Value → Option Ty
  | .alloca n => (vars[n]?).map Prod.snd
  | .global n => (module[n]?).bind Global.variableTy
  | _ => none

/-- The type of the value of an expression, which is that of its first operand. A name
stands for its variable or, left of an assignment, for the address of it. -/
def Expr.valueTy (vars : List (String × Ty)) : Expr → Option Ty
  | .assign lhs _ =>
      let t := (addressOf hash module vars lhs.id).bind (variableTy module vars)
      if lhs.star then t else t.map Ty.pointer
  | .conditional e _ _ | .binary _ e _ | .cast _ _ e | .paren e => e.valueTy vars
  | .unary op e =>
      match op with
      | .star | .plus | .ampersand => e.valueTy vars
      | .minus | .bitwiseInvert | .not => none
  | .id name => (addressOf hash module vars name).bind (variableTy module vars)
  | .constantInteger _ | .constantFloat _ => none

/-- Nothing is built for the item. -/
def Item.Silent (vars : List (String × Ty)) : Item → Prop
  | .expression e => ∀ name ∈ exprOptLoads e, addressOf hash module vars name = none
  | .declaration _ | .ret _ => False

/-- The variables that an item declares. -/
def Item.declared : Item → List (String × Ty)
  | .declaration d => [(d.id, declaredTy d.type d.star)]
  | .expression _ | .ret _ => []

/-- There is a return; the first one has a value of the type, and nothing is built for
the items after it. -/
def ReturnsFirst (retType : Ty) : List (String × Ty) → List Item → Prop
  | _, [] => False
  | vars, .declaration d :: items =>
      ReturnsFirst retType (vars ++ [(d.id, declaredTy d.type d.star)]) items
  | vars, .expression _ :: items => ReturnsFirst retType vars items
  | _, .ret none :: _ => False
  | vars, .ret (some e) :: items =>
      e.valueTy hash module vars = some retType ∧ ∀ i ∈ items, i.Silent hash module vars

/-- The body has no return and the return type is `int`, or the first return is as above. -/
def FunctionDefinition.Completed (f : FunctionDefinition) : Prop :=
  (declaredTy f.type f.star = .int32 ∧ ∀ i ∈ f.items, i.isReturn = false) ∨
    ReturnsFirst hash module (declaredTy f.type f.star) f.variables f.items

end

/-! ## Types in a growing block -/

section
variable (module : List Global) (params : List Ty)

theorem blockTypes_append (entry : List Inst) (i : Inst) :
    blockTypes module params (entry ++ [i]) =
      (blockTypes module params entry).next module params i := by
  simp [blockTypes]

theorem countP_isAlloca (entry : List Inst) :
    entry.countP Inst.isAlloca = (blockTypes module params entry).allocas.length := by
  induction entry using List.reverseRecOn with
  | nil => rfl
  | append_singleton entry i ih =>
    rw [blockTypes_append, List.countP_append, ih]
    cases i <;> simp [BlockTypes.next, Inst.isAlloca]

theorem countP_isLoad (entry : List Inst) :
    entry.countP Inst.isLoad = (blockTypes module params entry).loads.length := by
  induction entry using List.reverseRecOn with
  | nil => rfl
  | append_singleton entry i ih =>
    rw [blockTypes_append, List.countP_append, ih]
    cases i <;> simp [BlockTypes.next, Inst.isLoad]

variable {module params}

/-- A value keeps its type when the block grows. -/
theorem valueTy_append {entry : List Inst} {v : Value} {t : Ty}
    (h : valueTy module params entry v = some t) (more : List Inst) :
    valueTy module params (entry ++ more) v = some t := by
  induction more using List.reverseRecOn with
  | nil => simpa using h
  | append_singleton more i ih =>
    rw [← List.append_assoc, valueTy, blockTypes_append]
    rw [valueTy] at ih
    generalize blockTypes module params (entry ++ more) = types at ih ⊢
    cases v with
    | alloca n =>
      obtain ⟨u, hu, rfl⟩ := Option.map_eq_some_iff.mp ih
      cases i with
      | alloca t' name =>
        have hold : (types.allocas ++ [t'])[n]? = some u := by
          rwa [List.getElem?_append_left (List.getElem?_eq_some_iff.mp hu).1]
        simp only [BlockTypes.next, BlockTypes.valueTy, hold, Option.map_some]
      | store val ptr | load ptr | ret val => exact ih
    | load n =>
      have hu : types.loads[n]? = some (some t) := Option.join_eq_some_iff.mp ih
      cases i with
      | load ptr =>
        simp only [BlockTypes.next, BlockTypes.valueTy]
        rw [List.getElem?_append_left (List.getElem?_eq_some_iff.mp hu).1, hu]
        rfl
      | store val ptr | alloca t' name | ret val => exact ih
    | global n | param n | constInt n | constReal n | constPointerNull t =>
      cases i <;> exact ih

end

/-! ## Building in a function -/

variable {hash : String → Nat} {module : List Global} {f : Function}
  {vars : List (String × Ty)} {code : List Inst} {s : State}

/-- The builder is at the end of this code of the function `f`, the last object. -/
structure AtEnd (module : List Global) (f : Function) (code : List Inst) (s : State) : Prop where
  objects : s.module = module ++ [.function { f with entry := code }]
  builder : s.builder = some module.length

theorem AtEnd.append {t : State} {i : Inst} (h : AtEnd module f code s)
    (ht : s.append i = some t) : AtEnd module f (code ++ [i]) t ∧ t.scopes = s.scopes := by
  rw [State.append, h.builder, Option.map_some] at ht
  cases ht
  refine ⟨⟨?_, rfl⟩, rfl⟩
  simp [h.objects, List.modify_eq_take_cons_drop, Global.append]

theorem AtEnd.entry (h : AtEnd module f code s) : s.entry = some code := by
  simp [State.entry, h.builder, h.objects, Global.entry]

variable (hash) in
/-- In the body of the function `f` of a module, after these variables. -/
structure InBody (module : List Global) (f : Function) (vars : List (String × Ty))
    (code : List Inst) (s : State) : Prop extends AtEnd module f code s where
  scopes : s.scopes = [tableAfter hash (numbered 0 (vars.map Prod.fst))]
  allocas : (blockTypes module f.params code).allocas = vars.map Prod.snd

/-- What is built for the names that are loaded. -/
def loadsOf (hash : String → Nat) (module : List Global) (vars : List (String × Ty))
    (names : List String) : List Inst :=
  (names.filterMap (addressOf hash module vars)).map Inst.load

theorem AtEnd.build (h : AtEnd module f code s) (kind : Inst → Bool) (i : Inst) :
    (build kind i).Leaves s fun n t =>
      n = code.countP kind ∧ AtEnd module f (code ++ [i]) t ∧ t.scopes = s.scopes := by
  have happend : (change fun s => s.append i : Action Unit).Leaves s fun _ t =>
      AtEnd module f (code ++ [i]) t ∧ t.scopes = s.scopes := Leaves.change fun _ ht => h.append ht
  refine Leaves.read_bind (happend.bind fun _ t ht => Leaves.pure ⟨?_, ht⟩)
  rw [h.entry]
  rfl

theorem getNamedGlobal_eq_some (vars : List (String × Ty)) {name : String} {a : Value}
    (h : getNamedGlobal module name = some a) :
    ∃ t, variableTy module vars a = some t ∧ ∀ params code,
      valueTy module params code a = some (.pointer t) := by
  obtain ⟨n, -, h⟩ := Option.bind_eq_some_iff.mp h
  obtain ⟨g, hg, h⟩ := Option.bind_eq_some_iff.mp h
  cases g with
  | function g => cases h
  | «variable» t name =>
    cases h
    have hvar : (module[n]?).bind Global.variableTy = some t := by rw [hg]; rfl
    refine ⟨t, hvar, fun params code => ?_⟩
    simp only [valueTy, BlockTypes.valueTy, hvar, Option.map_some]

/-- A name that is known stands for the address of a variable. -/
theorem addressOf_eq_some {name : String} {a : Value}
    (hallocas : (blockTypes module f.params code).allocas = vars.map Prod.snd)
    (ha : addressOf hash module vars name = some a) :
    ∃ t, variableTy module vars a = some t ∧
      valueTy module f.params code a = some (.pointer t) := by
  have hfound := @Use.found_eq hash (getNamedGlobal module) ⟨name, vars.map Prod.fst, []⟩
  simp only [Use.found] at hfound
  rw [addressOf, hfound] at ha
  cases hs : survivor false (history hash name (numbered 0 (vars.map Prod.fst))) with
  | none =>
    rw [hs, Option.none_or] at ha
    obtain ⟨t, hvar, hty⟩ := getNamedGlobal_eq_some vars ha
    exact ⟨t, hvar, hty _ _⟩
  | some v =>
    rw [hs, Option.some_or] at ha
    cases ha
    obtain ⟨n, hn, rfl⟩ := survivor_numbered hs
    rw [List.getElem?_map, Option.map_eq_some_iff] at hn
    obtain ⟨p, hvar, -⟩ := hn
    refine ⟨p.2, by rw [variableTy, hvar]; rfl, ?_⟩
    simp only [valueTy, BlockTypes.valueTy, hallocas, List.getElem?_map, hvar, Option.map_some]

/-! ## Expressions -/

theorem InBody.grow {t : State} {i : Inst} (h : InBody hash module f vars code s)
    (hi : i.isAlloca = false) (ht : AtEnd module f (code ++ [i]) t) (hs : t.scopes = s.scopes) :
    InBody hash module f vars (code ++ [i]) t := by
  refine ⟨ht, hs.trans h.scopes, ?_⟩
  rw [blockTypes_append, ← h.allocas]
  cases i with
  | alloca t name => cases hi
  | store val ptr | load ptr | ret val => rfl

theorem InBody.find_bind {α : Type} {m : Option Value → Action α} {name : String}
    {Q : α → State → Prop} (h : InBody hash module f vars code s)
    (hm : (m (addressOf hash module vars name)).Leaves s Q) :
    (findSymbol hash name >>= m).Leaves s Q := by
  have haddress : symbolFind hash (getNamedGlobal s.module) s.scopes name =
      addressOf hash module vars name := by
    rw [h.objects, getNamedGlobal_function, h.scopes, addressOf]
  have hfind : (findSymbol hash name).Leaves s fun val t =>
      val = addressOf hash module vars name ∧ t = s :=
    Leaves.read_bind (Leaves.bind (Q := fun _ t => t = s) (Leaves.observe rfl)
      fun _ t ht => Leaves.pure ⟨haddress, ht⟩)
  refine hfind.bind ?_
  rintro _ _ ⟨rfl, rfl⟩
  exact hm

/-- A reference to a value has this type. -/
def Ref.HasTy (module : List Global) (f : Function) (code : List Inst) (t : Option Ty) :
    Ref → Prop
  | .null => False
  | .value v => ∃ u, t = some u ∧ MiniC.valueTy module f.params code v = some u
  | .junk => True

theorem Ref.HasTy.append {t : Option Ty} {r : Ref} (h : r.HasTy module f code t)
    (more : List Inst) : r.HasTy module f (code ++ more) t := by
  cases r with
  | null => exact h
  | value v =>
    obtain ⟨u, ht, hv⟩ := h
    exact ⟨u, ht, valueTy_append hv more⟩
  | junk => trivial

theorem InBody.load {a : Value} {t : Ty} (h : InBody hash module f vars code s)
    (ha : valueTy module f.params code a = some (.pointer t)) :
    Leaves (do return Ref.value (← buildLoad (some a))) s fun r u =>
      InBody hash module f vars (code ++ [.load a]) u ∧
        r.HasTy module f (code ++ [.load a]) (some t) := by
  have hload : (buildLoad (some a)).Leaves s fun v u =>
      InBody hash module f vars (code ++ [.load a]) u ∧
        valueTy module f.params (code ++ [.load a]) v = some t := by
    refine Leaves.bind (Q := fun _ u => u = s) (Leaves.observe rfl) ?_
    rintro _ _ rfl
    refine (h.build Inst.isLoad (.load a)).bind ?_
    rintro n u ⟨rfl, hu, hs⟩
    refine Leaves.pure ⟨h.grow rfl hu hs, ?_⟩
    rw [valueTy] at ha ⊢
    rw [blockTypes_append, BlockTypes.next, ha, countP_isLoad module f.params]
    simp [BlockTypes.valueTy, Ty.pointee]
  exact hload.bind fun v u ⟨hu, hv⟩ => Leaves.pure ⟨hu, t, rfl, hv⟩

theorem loadsOf_append (names names' : List String) :
    loadsOf hash module vars (names ++ names') =
      loadsOf hash module vars names ++ loadsOf hash module vars names' := by
  simp [loadsOf]

variable (hash) in
/-- The action builds the loads of the names, and its reference has this type. -/
abbrev Evaluates (module : List Global) (f : Function) (vars : List (String × Ty))
    (code : List Inst) (m : Action Ref) (s : State) (names : List String) (t : Option Ty) : Prop :=
  m.Leaves s fun r u =>
    InBody hash module f vars (code ++ loadsOf hash module vars names) u ∧
      r.HasTy module f (code ++ loadsOf hash module vars names) t

theorem InBody.primaryId (h : InBody hash module f vars code s) (name : String) :
    Evaluates hash module f vars code (primaryId hash .cpp name) s [name]
      ((addressOf hash module vars name).bind (variableTy module vars)) := by
  refine h.find_bind ?_
  cases ha : addressOf hash module vars name with
  | none => exact Leaves.pure (by simpa [loadsOf, ha, Ref.HasTy] using h)
  | some a =>
    obtain ⟨t, hvar, hty⟩ := addressOf_eq_some h.allocas ha
    have hload := h.load hty
    simp only [loadsOf, List.filterMap_cons, ha, Option.bind_some, hvar]
    exact hload

theorem InBody.lhsExpression (h : InBody hash module f vars code s) (lhs : LhsExpression) :
    Evaluates hash module f vars code (lhsExpression hash .cpp lhs) s
      (if lhs.star then [lhs.id] else [])
      (let t := (addressOf hash module vars lhs.id).bind (variableTy module vars)
        if lhs.star then t else t.map Ty.pointer) := by
  obtain ⟨star, id⟩ := lhs
  cases star with
  | true => exact h.primaryId id
  | false =>
    refine h.find_bind ?_
    cases ha : addressOf hash module vars id with
    | none => exact Leaves.pure (by simpa [loadsOf, Ref.HasTy] using h)
    | some a =>
      obtain ⟨t, hvar, hty⟩ := addressOf_eq_some h.allocas ha
      refine Leaves.bind (Q := fun _ t => t = s) (Leaves.observe rfl) ?_
      rintro _ _ rfl
      refine Leaves.pure ⟨by simpa [loadsOf] using h, .pointer t, by simp [hvar], ?_⟩
      simpa [loadsOf] using hty

/-- An expression builds the loads of the names it knows. -/
theorem InBody.expression (h : InBody hash module f vars code s) (e : Expr) :
    Evaluates hash module f vars code (expression hash .cpp e) s e.loads
      (e.valueTy hash module vars) := by
  induction e generalizing code s with
  | assign lhs e ih =>
    rw [Expr.loads, Evaluates, loadsOf_append, ← List.append_assoc]
    refine (h.lhsExpression lhs).bind fun r t ⟨ht, hr⟩ => ?_
    exact (ih ht).bind fun _ u ⟨hu, _⟩ => Leaves.pure ⟨hu, hr.append _⟩
  | conditional c t e ihc iht ihe =>
    rw [Expr.loads, Evaluates, loadsOf_append, loadsOf_append, ← List.append_assoc,
      ← List.append_assoc]
    refine (ihc h).bind fun r s₁ ⟨h₁, hr⟩ => ?_
    refine (iht h₁).bind fun _ s₂ ⟨h₂, _⟩ => ?_
    exact (ihe h₂).bind fun _ s₃ ⟨h₃, _⟩ => Leaves.pure ⟨h₃, (hr.append _).append _⟩
  | binary op a b iha ihb =>
    rw [Expr.loads, Evaluates, loadsOf_append, ← List.append_assoc]
    refine (iha h).bind fun r t ⟨ht, hr⟩ => ?_
    exact (ihb ht).bind fun _ u ⟨hu, _⟩ => Leaves.pure ⟨hu, hr.append _⟩
  | cast type star e ih | paren e ih => exact ih h
  | unary op e ih =>
    refine (ih h).bind fun r t ⟨ht, hr⟩ => Leaves.pure ⟨ht, ?_⟩
    cases op with
    | star | plus | ampersand => exact hr
    | minus | bitwiseInvert | not => trivial
  | id name => exact h.primaryId name
  | constantInteger text | constantFloat text =>
    exact Leaves.pure (by simpa [loadsOf, Expr.loads, Ref.HasTy] using h)

/-! ## Bodies as lists of items -/

variable (hash) in
def Item.action : Item → Action Unit
  | .declaration d => MiniC.declaration hash .cpp d
  | .expression e => exprOpt hash .cpp e
  | .ret e => statement hash .cpp (.returnStmt e)

variable (hash) in
def runItems : List Item → Action Unit
  | [] => return
  | i :: items => do
      i.action hash
      runItems items

theorem runItems_append (items items' : List Item) :
    runItems hash (items ++ items') = (do
      runItems hash items
      runItems hash items') := by
  induction items with
  | nil => simp only [List.nil_append, runItems, return_bind]
  | cons i items ih => simp only [List.cons_append, runItems, ih, bind_bind]

theorem runItems_declarations (ds : List Declaration) :
    runItems hash (ds.map Item.declaration) = declarationList hash .cpp ds := by
  induction ds with
  | nil => rfl
  | cons d ds ih =>
    simp only [List.map_cons, runItems, declarationList, ih]
    rfl

/-- A body without control flow runs its items one after the other. -/
theorem runItems_items (st : Stmt) (h : st.isFlat) :
    runItems hash st.items = statement hash .cpp st := by
  induction st with
  | none => rfl
  | list l r ihl ihr =>
    rw [Stmt.isFlat, Bool.and_eq_true] at h
    rw [Stmt.items, runItems_append, ihl h.1, ihr h.2, statement]
  | exprStmt e | returnStmt e => exact bind_return _
  | compoundStmt ds body ih =>
    rw [Stmt.items, runItems_append, runItems_declarations, ih h, statement]
  | _ => cases h

/-- What is built for an item. -/
def Item.Builds (hash : String → Nat) (module : List Global) (f : Function)
    (vars : List (String × Ty)) (code new : List Inst) : Item → Prop
  | .declaration d =>
      new = loadsOf hash module vars (exprOptLoads d.initializer) ++
        [.alloca (declaredTy d.type d.star) d.id]
  | .expression e => new = loadsOf hash module vars (exprOptLoads e)
  | .ret none => new = [.ret none]
  | .ret (some e) => ∃ v t, new = loadsOf hash module vars e.loads ++ [.ret (some v)] ∧
      e.valueTy hash module vars = some t ∧
      valueTy module f.params (code ++ loadsOf hash module vars e.loads) v = some t

theorem InBody.exprOpt (h : InBody hash module f vars code s) (e : Option Expr) :
    (exprOpt hash .cpp e).Leaves s fun _ t =>
      InBody hash module f vars (code ++ loadsOf hash module vars (exprOptLoads e)) t := by
  cases e with
  | none => exact Leaves.pure (by simpa [exprOptLoads, loadsOf] using h)
  | some e => exact (h.expression e).bind fun _ _ ht => Leaves.pure ht.1

theorem InBody.allocate (h : InBody hash module f vars code s) (t : Ty) (name : String) :
    (buildAlloca t (some name)).Leaves s fun a u =>
      a = .alloca vars.length ∧ AtEnd module f (code ++ [.alloca t name]) u ∧
        u.scopes = s.scopes ∧
        (blockTypes module f.params (code ++ [.alloca t name])).allocas =
          vars.map Prod.snd ++ [t] := by
  refine (h.build Inst.isAlloca (.alloca t name)).bind ?_
  rintro n u ⟨rfl, hu, hs⟩
  refine Leaves.pure ⟨?_, hu, hs, ?_⟩
  · rw [countP_isAlloca module f.params, h.allocas, List.length_map]
  · rw [blockTypes_append, BlockTypes.next, h.allocas]

/-- The alloca that was built last gets its name, if there is one. -/
theorem AtEnd.insertSymbol {t : Ty} (h : AtEnd module f code s)
    (hs : s.scopes = [tableAfter hash (numbered 0 (vars.map Prod.fst))])
    (ht : (blockTypes module f.params code).allocas = vars.map Prod.snd ++ [t])
    (name : Option String) :
    (insertSymbol hash name (.alloca vars.length)).Leaves s fun _ u =>
      ∃ id, name = some id ∧ InBody hash module f (vars ++ [(id, t)]) code u := by
  apply Leaves.read_bind
  rw [if_neg (by simp [hs, isGlobalScope])]
  refine Leaves.bind (Q := fun _ u => u = s) (Leaves.observe rfl) ?_
  rintro _ _ rfl
  cases name with
  | none => exact Leaves.crash
  | some id =>
    refine Leaves.change ?_
    rintro _ ⟨⟩
    refine ⟨id, rfl, ⟨h.objects, h.builder⟩, ?_, by simpa using ht⟩
    simp [hs, symbolInsert, numbered_append, numbered, tableAfter]

theorem InBody.declaration (h : InBody hash module f vars code s) (d : Declaration) :
    (declaration hash .cpp d).Leaves s fun _ t =>
      InBody hash module f (vars ++ [(d.id, declaredTy d.type d.star)])
        (code ++ loadsOf hash module vars (exprOptLoads d.initializer) ++
          [.alloca (declaredTy d.type d.star) d.id]) t := by
  refine (h.exprOpt d.initializer).bind fun _ t ht => Leaves.read_bind ?_
  rw [if_neg (by simp [ht.scopes, isGlobalScope])]
  refine (ht.allocate _ _).bind ?_
  rintro _ u ⟨rfl, hu, hs, hallocas⟩
  refine (hu.insertSymbol (hs.trans ht.scopes) hallocas (some d.id)).mono ?_
  rintro _ w ⟨_, ⟨⟩, hw⟩
  exact hw

theorem InBody.ret (h : InBody hash module f vars code s) (val : Option Value) :
    (buildRet val).Leaves s fun _ t => InBody hash module f vars (code ++ [.ret val]) t :=
  (h.build _ (.ret val)).bind fun _ _ ⟨_, ht, hs⟩ => Leaves.pure (h.grow rfl ht hs)

/-- One item of a body. -/
theorem InBody.item (h : InBody hash module f vars code s) (i : Item) :
    (i.action hash).Leaves s fun _ t => ∃ new, i.Builds hash module f vars code new ∧
      InBody hash module f (vars ++ i.declared) (code ++ new) t := by
  cases i with
  | declaration d =>
    refine (h.declaration d).mono fun _ t ht => ⟨_, rfl, ?_⟩
    rwa [← List.append_assoc]
  | expression e =>
    refine (h.exprOpt e).mono fun _ t ht => ⟨_, rfl, ?_⟩
    rwa [Item.declared, List.append_nil]
  | ret e =>
    cases e with
    | none =>
      refine (h.ret none).mono fun _ t ht => ⟨_, rfl, ?_⟩
      rwa [Item.declared, List.append_nil]
    | some e =>
      refine (h.expression e).bind fun r t ⟨ht, hr⟩ => ?_
      cases r with
      | null => exact hr.elim
      | junk => exact Leaves.crash
      | value v =>
        obtain ⟨u, hu, hv⟩ := hr
        refine (ht.ret (some v)).mono fun _ w hw => ⟨_, ⟨v, u, rfl, hu, hv⟩, ?_⟩
        rwa [Item.declared, List.append_nil, ← List.append_assoc]

/-! ## Where the returns of a body are -/

theorem loadsOf_eq_nil_iff (names : List String) :
    loadsOf hash module vars names = [] ↔
      ∀ name ∈ names, addressOf hash module vars name = none := by
  simp [loadsOf]

theorem loadsOf_noTerminator (names : List String) :
    NoTerminator (loadsOf hash module vars names) := by
  intro i hi
  obtain ⟨a, -, rfl⟩ := List.mem_map.mp hi
  rfl

theorem NoTerminator.append {l l' : List Inst} (h : NoTerminator l) (h' : NoTerminator l') :
    NoTerminator (l ++ l') := by
  intro i hi
  rcases List.mem_append.mp hi with hi | hi
  · exact h i hi
  · exact h' i hi

theorem Item.Builds.eq_nil_iff {i : Item} {new : List Inst}
    (h : i.Builds hash module f vars code new) : new = [] ↔ i.Silent hash module vars := by
  cases i with
  | declaration d =>
    rw [show new = _ from h]
    simp [Item.Silent]
  | expression e =>
    rw [show new = _ from h]
    exact loadsOf_eq_nil_iff _
  | ret e =>
    cases e with
    | none =>
      rw [show new = _ from h]
      simp [Item.Silent]
    | some e =>
      obtain ⟨v, t, rfl, -⟩ := h
      simp [Item.Silent]

theorem Item.Silent.declared {i : Item} (h : i.Silent hash module vars) : i.declared = [] := by
  cases i with
  | declaration d => exact h.elim
  | expression e | ret e => rfl

/-- Nothing is built for a list of items exactly when nothing is built for any of them. -/
theorem InBody.items_nil (h : InBody hash module f vars code s) (items : List Item) :
    (runItems hash items).Leaves s fun _ t => ∃ vars' new,
      InBody hash module f vars' (code ++ new) t ∧
        (new = [] ↔ ∀ i ∈ items, i.Silent hash module vars) := by
  induction items generalizing vars code s with
  | nil => exact Leaves.pure ⟨vars, [], by simpa using h, by simp⟩
  | cons i items ih =>
    refine (h.item i).bind fun _ t ⟨new, hnew, ht⟩ => ?_
    refine (ih ht).mono fun _ u ⟨vars', more, hu, hmore⟩ => ⟨vars', new ++ more, ?_, ?_⟩
    · rwa [← List.append_assoc]
    · rw [List.append_eq_nil_iff, hnew.eq_nil_iff, hmore, List.forall_mem_cons]
      refine and_congr_right fun hi => ?_
      rw [hi.declared, List.append_nil]

/-- The block of a body: it has no terminator and the body no return; or something
stands after the first terminator exactly when something is built after the first return. -/
def BlockOf (hash : String → Nat) (module : List Global) (f : Function)
    (vars : List (String × Ty)) (items : List Item) (code : List Inst) : Prop :=
  (NoTerminator code ∧ ∀ i ∈ items, i.isReturn = false) ∨
    ∃ body val rest, code = body ++ .ret val :: rest ∧ NoTerminator body ∧
      (∃ i ∈ items, i.isReturn = true) ∧
      ((rest = [] ∧ ∃ v, val = some v ∧ valueTy module f.params code v = some f.retType) ↔
        ReturnsFirst hash module f.retType vars items)

/-- An item without a return in front of a body. -/
theorem BlockOf.cons {i : Item} {items : List Item} (hi : i.isReturn = false)
    (h : BlockOf hash module f (vars ++ i.declared) items code) :
    BlockOf hash module f vars (i :: items) code := by
  have hreturns : ReturnsFirst hash module f.retType vars (i :: items) ↔
      ReturnsFirst hash module f.retType (vars ++ i.declared) items := by
    cases i with
    | declaration d => rfl
    | expression e => rw [Item.declared, List.append_nil, ReturnsFirst]
    | ret e => cases hi
  rcases h with ⟨hcode, hitems⟩ | ⟨body, val, rest, hcode, hbody, ⟨j, hj, hret⟩, hiff⟩
  · exact .inl ⟨hcode, by simpa [hi] using hitems⟩
  · exact .inr ⟨body, val, rest, hcode, hbody, ⟨j, List.mem_cons_of_mem _ hj, hret⟩,
      hiff.trans hreturns.symm⟩

theorem InBody.items (h : InBody hash module f vars code s) (hcode : NoTerminator code)
    (items : List Item) :
    (runItems hash items).Leaves s fun _ t => ∃ vars' code',
      InBody hash module f vars' code' t ∧ BlockOf hash module f vars items code' := by
  induction items generalizing vars code s with
  | nil => exact Leaves.pure ⟨vars, code, h, .inl ⟨hcode, by simp⟩⟩
  | cons i items ih =>
    refine (h.item i).bind fun _ t ⟨new, hnew, ht⟩ => ?_
    cases i with
    | declaration d =>
      have hgrown : NoTerminator (code ++ new) := by
        rw [show new = _ from hnew]
        refine hcode.append ((loadsOf_noTerminator _).append ?_)
        simp [NoTerminator, Inst.isTerminator]
      exact (ih ht hgrown).mono fun _ u ⟨vars', code', hu, hblock⟩ =>
        ⟨vars', code', hu, hblock.cons rfl⟩
    | expression e =>
      have hgrown : NoTerminator (code ++ new) := by
        rw [show new = _ from hnew]
        exact hcode.append (loadsOf_noTerminator _)
      exact (ih ht hgrown).mono fun _ u ⟨vars', code', hu, hblock⟩ =>
        ⟨vars', code', hu, hblock.cons rfl⟩
    | ret e =>
      rw [Item.declared, List.append_nil] at ht
      refine (ht.items_nil items).mono fun _ u ⟨vars', rest, hu, hrest⟩ => ⟨vars', _, hu, .inr ?_⟩
      cases e with
      | none =>
        rw [show new = _ from hnew]
        refine ⟨code, none, rest, by simp, hcode, ⟨_, List.mem_cons_self, rfl⟩, ?_⟩
        simp [ReturnsFirst]
      | some e =>
        obtain ⟨v, t, rfl, hty, hv⟩ := hnew
        refine ⟨code ++ loadsOf hash module vars e.loads, some v, rest, by simp,
          hcode.append (loadsOf_noTerminator _), ⟨_, List.mem_cons_self, rfl⟩, ?_⟩
        have hvalue : valueTy module f.params (code ++ (loadsOf hash module vars e.loads ++
            [.ret (some v)]) ++ rest) v = some t := by
          simpa using valueTy_append hv (.ret (some v) :: rest)
        refine ⟨fun ⟨hnil, w, hw, htype⟩ => ?_, fun ⟨htype, hsilent⟩ => ?_⟩
        · cases hw
          exact ⟨hty.trans (hvalue.symm.trans htype), hrest.mp hnil⟩
        · exact ⟨hrest.mpr hsilent, v, rfl, hvalue.trans (hty.symm.trans htype)⟩

/-! ## Functions -/

theorem InBody.bindParamsUp (h : InBody hash module f vars code s) (hcode : NoTerminator code)
    (ps : List ParamNode) (n : Nat) :
    (bindParamsUp hash (ps.map ParamNode.type) (ps.map ParamNode.name) n).Leaves s fun _ t =>
      ∃ code', InBody hash module f
          (vars ++ ps.filterMap fun p => p.name.map fun id => (id, p.type)) code' t ∧
        NoTerminator code' := by
  induction ps generalizing vars code s n with
  | nil => exact Leaves.pure ⟨code, by simpa using h, hcode⟩
  | cons p ps ih =>
    refine (h.allocate p.type "").bind ?_
    rintro _ s₁ ⟨rfl, h₁, hs, hallocas⟩
    have hstore : (buildStore (.param n) (.alloca vars.length)).Leaves s₁ fun _ t =>
        AtEnd module f (code ++ [.alloca p.type ""] ++
          [.store (.param n) (.alloca vars.length)]) t ∧ t.scopes = s₁.scopes :=
      (h₁.build _ _).bind fun _ _ ht => Leaves.pure ht.2
    refine hstore.bind fun _ s₂ ⟨h₂, hs₂⟩ => ?_
    have hscopes := (hs₂.trans hs).trans h.scopes
    have htypes : (blockTypes module f.params (code ++ [.alloca p.type ""] ++
        [.store (.param n) (.alloca vars.length)])).allocas = vars.map Prod.snd ++ [p.type] := by
      rw [blockTypes_append, BlockTypes.next, hallocas]
    refine (h₂.insertSymbol hscopes htypes p.name).bind fun _ s₃ ⟨id, hid, h₃⟩ => ?_
    have hgrown : NoTerminator (code ++ [.alloca p.type ""] ++
        [.store (.param n) (.alloca vars.length)]) := by
      rw [List.append_assoc]
      exact hcode.append (by simp [NoTerminator, Inst.isTerminator])
    refine (ih h₃ hgrown (n + 1)).mono fun _ t ⟨code', ht, hcode'⟩ => ⟨code', ?_, hcode'⟩
    simpa [hid] using ht

theorem paramList_types (ps : List Param) :
    fillDown ParamNode.type (paramList ps) [] = ps.map fun p => declaredTy p.type p.star := by
  rw [fillDown_eq, paramList_eq]
  simp

/-- The function that is created for a definition. -/
def FunctionDefinition.header (d : FunctionDefinition) : Function :=
  ⟨declaredTy d.type d.star, d.id, d.params.map fun p => declaredTy p.type p.star, []⟩

variable (hash) in
theorem enterFunction_leaves (hs : s.scopes = []) (d : FunctionDefinition) :
    (enterFunction hash .cpp (declaredTy d.type d.star) d.id (paramList d.params)).Leaves s
      fun _ t => ∃ code, InBody hash s.module d.header d.variables code t ∧ NoTerminator code := by
  refine Leaves.bind (Q := fun _ t => t = { s with scopes := [none] }) (Leaves.change ?_) ?_
  · rintro _ ⟨⟩
    rw [hs]
    rfl
  rintro _ _ rfl
  refine Leaves.bind (Q := fun _ t => InBody hash s.module d.header [] [] t) (Leaves.change ?_)
    fun _ t ht => ?_
  · rintro _ ⟨⟩
    refine ⟨⟨?_, rfl⟩, rfl, rfl⟩
    rw [paramList_types]
    rfl
  have hbind := ht.bindParamsUp (by simp [NoTerminator]) (paramList d.params).reverse 0
  have hvariables : ((paramList d.params).reverse.filterMap fun p =>
      p.name.map fun id => (id, p.type)) = d.variables := by
    rw [paramList_eq, List.reverse_reverse, List.filterMap_map]
    rfl
  rw [List.map_reverse, List.map_reverse, hvariables] at hbind
  rw [fillDown_eq, fillDown_eq, List.append_nil, List.append_nil]
  exact hbind.mono fun _ _ ⟨code, hcode⟩ => ⟨code, hcode⟩

/-- What the completion of a function adds to its block. -/
def completion (star : Bool) (code : List Inst) : List Inst :=
  if code.getLast?.any Inst.isTerminator || star then [] else [.ret (some (.constInt 0))]

theorem InBody.leaveFunction (h : InBody hash module f vars code s) (type : TypeSpecifier)
    (star : Bool) :
    (leaveFunction .cpp type star).Leaves s fun _ t =>
      t.module = module ++ [.function { f with entry := code ++ completion star code }] := by
  have hpop : ∀ (t : State) (more : List Inst), AtEnd module f (code ++ more) t →
      popScope.Leaves t fun _ u =>
        u.module = module ++ [.function { f with entry := code ++ more }] := by
    intro t more ht
    refine Leaves.change fun u hu => ?_
    obtain ⟨scopes, -, rfl⟩ := Option.map_eq_some_iff.mp hu
    exact ht.objects
  have hnone : AtEnd module f (code ++ []) s := by simpa using h.toAtEnd
  apply Leaves.read_bind
  rw [h.entry, completion]
  by_cases hlast : code.getLast?.any Inst.isTerminator = true
  · simp only [Option.getD_some, hlast, Bool.true_or, ↓reduceIte]
    exact hpop s [] hnone
  · simp only [Option.getD_some, hlast, Bool.false_or]
    cases star with
    | true => exact hpop s [] hnone
    | false => exact (h.ret _).bind fun _ t ht => hpop t _ ht.toAtEnd

/-! ## When the block ends in the right return -/

/-- A block with a terminator ends in the right return if the first terminator is that. -/
theorem endsInReturn_iff_of_split {body rest : List Inst} {val : Option Value}
    (hcode : f.entry = body ++ .ret val :: rest) (hbody : NoTerminator body) :
    f.EndsInReturn module ↔
      rest = [] ∧ ∃ v, val = some v ∧ valueTy module f.params f.entry v = some f.retType := by
  constructor
  · rintro ⟨body', v, hcode', hbody', hty⟩
    rw [hcode] at hcode'
    rcases List.append_eq_append_iff.mp hcode' with ⟨more, rfl, hmore⟩ | ⟨more, rfl, hmore⟩
    · cases more with
      | nil =>
        cases hmore
        exact ⟨rfl, v, rfl, hty⟩
      | cons i more =>
        cases hmore
        exact absurd (hbody' (.ret val) (by simp)) (by simp [Inst.isTerminator])
    · cases more with
      | nil =>
        cases hmore
        exact ⟨rfl, v, rfl, hty⟩
      | cons i more => simp at hmore
  · rintro ⟨rfl, v, rfl, hty⟩
    exact ⟨body, v, hcode, hbody, hty⟩

theorem not_endsInReturn (h : NoTerminator f.entry) : ¬ f.EndsInReturn module := by
  rintro ⟨body, v, hcode, -, -⟩
  rw [hcode] at h
  exact absurd (h (.ret (some v)) (by simp)) (by simp [Inst.isTerminator])

theorem ReturnsFirst.isReturn {retType : Ty} {items : List Item}
    (h : ReturnsFirst hash module retType vars items) : ∃ i ∈ items, i.isReturn = true := by
  induction items generalizing vars with
  | nil => exact h.elim
  | cons i items ih =>
    cases i with
    | declaration d | expression e =>
      obtain ⟨j, hj, hret⟩ := ih h
      exact ⟨j, List.mem_cons_of_mem _ hj, hret⟩
    | ret e => exact ⟨_, List.mem_cons_self, rfl⟩

/-- After the completion the block ends in the right return in these two cases only. -/
theorem BlockOf.endsInReturn_iff {items : List Item} (h : BlockOf hash module f vars items code)
    (star : Bool) (hstar : star = true → f.retType ≠ .int32) :
    Function.EndsInReturn module { f with entry := code ++ completion star code } ↔
      (f.retType = .int32 ∧ ∀ i ∈ items, i.isReturn = false) ∨
        ReturnsFirst hash module f.retType vars items := by
  rcases h with ⟨hcode, hitems⟩ | ⟨body, val, rest, rfl, hbody, hitems, hiff⟩
  · have hfirst : ¬ ReturnsFirst hash module f.retType vars items := by
      intro hfirst
      obtain ⟨i, hi, hret⟩ := hfirst.isReturn
      simp [hitems i hi] at hret
    have hlast : code.getLast?.any Inst.isTerminator = false := by
      cases hi : code.getLast? with
      | none => rfl
      | some i => exact hcode i (List.mem_of_getLast? hi)
    cases star with
    | true =>
      have hnot : ¬ Function.EndsInReturn module { f with entry := code ++ completion true code } :=
        not_endsInReturn (by simpa [completion] using hcode)
      simp [hnot, hstar rfl, hfirst]
    | false =>
      have hdefault : Function.EndsInReturn module
          { f with entry := code ++ completion false code } ↔ some .int32 = some f.retType := by
        have hentry : code ++ completion false code = code ++ .ret (some (.constInt 0)) :: [] := by
          simp [completion, hlast]
        rw [endsInReturn_iff_of_split hentry hcode]
        simp [valueTy, BlockTypes.valueTy]
      rw [hdefault, Option.some.injEq]
      exact ⟨fun heq => .inl ⟨heq.symm, hitems⟩, fun h => (h.resolve_right hfirst).1.symm⟩
  · have hsome : ¬ ∀ i ∈ items, i.isReturn = false := by
      obtain ⟨i, hi, hret⟩ := hitems
      intro hno
      simp [hno i hi] at hret
    have hentry : body ++ .ret val :: rest ++ completion star (body ++ .ret val :: rest) =
        body ++ .ret val :: (rest ++ completion star (body ++ .ret val :: rest)) := by simp
    rw [endsInReturn_iff_of_split hentry hbody, ← hiff]
    cases rest with
    | nil =>
      have hcompletion : completion star (body ++ [.ret val]) = [] := by
        simp [completion, Inst.isTerminator]
      simp [hcompletion, hsome]
    | cons i rest => simp [hsome]

theorem variableTy_function (module : List Global) (g : Function) (n : Nat) :
    ((module ++ [.function g])[n]?).bind Global.variableTy =
      (module[n]?).bind Global.variableTy := by
  rcases Nat.lt_trichotomy n module.length with h | rfl | h
  · rw [List.getElem?_append_left h]
  · simp [Global.variableTy]
  · rw [List.getElem?_eq_none (by simp; omega), List.getElem?_eq_none (by omega)]

/-- A function adds no variable to its module. -/
theorem valueTy_function (module : List Global) (g : Function) (params : List Ty) :
    valueTy (module ++ [.function g]) params = valueTy module params := by
  have hvalue : BlockTypes.valueTy (module ++ [.function g]) params =
      BlockTypes.valueTy module params := by
    funext types v
    cases v with
    | global n => simp only [BlockTypes.valueTy, variableTy_function]
    | _ => rfl
  have hnext : BlockTypes.next (module ++ [.function g]) params =
      BlockTypes.next module params := by
    funext types i
    cases i with
    | load ptr => simp only [BlockTypes.next, hvalue]
    | _ => rfl
  funext code v
  simp only [valueTy, blockTypes, hvalue, hnext]

theorem endsInReturn_function (module : List Global) (g f : Function) :
    f.EndsInReturn (module ++ [.function g]) ↔ f.EndsInReturn module := by
  simp only [Function.EndsInReturn, valueTy_function]

/-- After any external declarations: a function definition that the C++ front end
completes, with a body without control flow, is a function whose block ends in its only
terminator, the return of a value of the declared type, exactly in these cases. -/
theorem functionDefinition_endsInReturn_iff (hash : String → Nat) (before : TranslationUnit)
    (d : FunctionDefinition) (hflat : d.body.isFlat) (es es' : List Event) (s t : State)
    (hbefore : (translationUnit hash .cpp before).run .initial = (es, some ((), s)))
    (hrun : (functionDefinition hash .cpp d).run s = (es', some ((), t))) :
    (∃ f : Function, t.module = s.module ++ [.function f] ∧
        f.retType = declaredTy d.type d.star ∧ f.EndsInReturn t.module) ↔
      d.Completed hash s.module := by
  have hs : s.scopes = [] := translationUnit_leaves .cpp before rfl es () s hbefore
  have hleaves : (functionDefinition hash .cpp d).Leaves s fun _ t => ∃ code,
      t.module = s.module ++ [.function { d.header with entry := code ++ completion d.star code }] ∧
        BlockOf hash s.module d.header d.variables d.items code := by
    refine (enterFunction_leaves hash hs d).bind fun _ u ⟨code, hu, hcode⟩ => ?_
    rw [← runItems_items (.compoundStmt d.declarations d.body) hflat]
    refine (hu.items hcode _).bind fun _ w ⟨vars, code', hw, hblock⟩ => ?_
    exact (hw.leaveFunction d.type d.star).mono fun _ t ht => ⟨code', ht, hblock⟩
  obtain ⟨code, ht, hblock⟩ := hleaves es' () t hrun
  have hstar : d.star = true → d.header.retType ≠ .int32 := by
    intro hstar
    simp [FunctionDefinition.header, declaredTy, hstar]
  have hends := hblock.endsInReturn_iff d.star hstar
  rw [ht]
  refine Iff.trans ⟨?_, fun h => ⟨_, rfl, rfl, (endsInReturn_function _ _ _).mpr h⟩⟩ hends
  rintro ⟨f, hf, -, h⟩
  obtain rfl : _ = f := by simpa using hf
  exact (endsInReturn_function _ _ _).mp h

/-- `int f() { return g; }`. -/
def returnGlobal : FunctionDefinition :=
  ⟨.int, false, "f", [], [], .list .none (.returnStmt (some (.id "g")))⟩

/-- After `int g;`. -/
def afterGlobal : State := ⟨[], [.variable .int32 "g"], none, 0⟩

/-- After `int g;` and `returnGlobal`. -/
def afterReturnGlobal : State where
  scopes := []
  module := afterGlobal.module ++
    [.function ⟨.int32, "f", [], [.load (.global 0), .ret (some (.load 0))]⟩]
  builder := some 1
  numErrors := 0

theorem functionDefinition_endsInReturn_iff_returnGlobal :
    (∃ f : Function, afterReturnGlobal.module = afterGlobal.module ++ [.function f] ∧
        f.retType = .int32 ∧ f.EndsInReturn afterReturnGlobal.module) ↔
      returnGlobal.Completed Uthash.hashJen afterGlobal.module :=
  functionDefinition_endsInReturn_iff Uthash.hashJen [.declaration ⟨.int, false, "g", none⟩]
    returnGlobal rfl [] [.find "g" (some (.global 0)), .load (some (.global 0))] afterGlobal
    afterReturnGlobal rfl rfl

/-- `int *f() { }`. -/
def emptyPointer : FunctionDefinition := ⟨.int, true, "f", [], [], .none⟩

/-- The C++ front end accepts `emptyPointer` and leaves its block empty. -/
theorem emptyPointer_noReturn :
    emptyPointer.Derives .cpp
        [.intKeyword, .star, .id "f", .lparen, .rparen, .lbrace, .rbrace] ∧
      emptyPointer.body.isFlat ∧
      ∃ t, (functionDefinition Uthash.hashJen .cpp emptyPointer).run .initial =
          ([], some ((), t)) ∧
        ¬ ∃ f : Function, t.module = State.initial.module ++ [.function f] ∧
          f.retType = .pointer .int32 ∧ f.EndsInReturn t.module := by
  refine ⟨.intro (.int .cpp) .none (.compoundStmt .nil .noList), rfl,
    ⟨[], [.function ⟨.pointer .int32, "f", [], []⟩], some 0, 0⟩, rfl, ?_⟩
  rintro ⟨f, hf, -, body, v, hentry, -⟩
  obtain rfl : _ = f := by simpa [State.initial] using hf
  simp at hentry

end CourseCompilers.MiniC