import CourseCompilers.MiniC.NullCalls

/-! Which actions crash the compiler. The parser runs the actions of rules one after the
other; whether one of them crashes can be told from the names in their tokens. -/

namespace CourseCompilers.MiniC
open Lib Prog

/-! ## Sequences of reductions -/

/-- A rule whose action does something, with what it takes from its tokens. The actions
of a whole `RETURN expression` are taken together. -/
inductive Reduction where
  | lhsExpression (lhs : LhsExpression)
  | primaryId (name : String)
  | declare (t : Ty) (name : String)
  | returnVoid
  | returnExpression (e : Expr)
  | enterFunction (t : Ty) (name : String) (params : List ParamNode)
  | leaveFunction (type : TypeSpecifier) (star : Bool)
  | checkErrors
  deriving DecidableEq, Repr

section
variable (hash : String → Nat) (v : FrontEnd)

def Reduction.action : Reduction → Action Unit
  | .lhsExpression lhs => (MiniC.lhsExpression hash v lhs).void
  | .primaryId name => (MiniC.primaryId hash v name).void
  | .declare t name => MiniC.declare hash t name
  | .returnVoid => buildRet none
  | .returnExpression e => do MiniC.returnExpression v (← expression hash v e)
  | .enterFunction t name params => MiniC.enterFunction hash v t name params
  | .leaveFunction type star => MiniC.leaveFunction v type star
  | .checkErrors => MiniC.checkErrors

def runReductions : List Reduction → Action Unit
  | [] => return
  | r :: rs => do
      r.action hash v
      runReductions rs

end

def Expr.reductions : Expr → List Reduction
  | .assign lhs e => .lhsExpression lhs :: e.reductions
  | .conditional c t e => c.reductions ++ t.reductions ++ e.reductions
  | .binary _ a b => a.reductions ++ b.reductions
  | .cast _ _ e | .unary _ e | .paren e => e.reductions
  | .id name => [.primaryId name]
  | .constantInteger _ | .constantFloat _ => []

def exprOptReductions : Option Expr → List Reduction
  | none => []
  | some e => e.reductions

def Declaration.reductions (d : Declaration) : List Reduction :=
  exprOptReductions d.initializer ++ [.declare (declaredTy d.type d.star) d.id]

def Stmt.reductions : Stmt → List Reduction
  | .none | .breakStmt | .continueStmt => []
  | .list l s => l.reductions ++ s.reductions
  | .exprStmt e => exprOptReductions e
  | .compoundStmt ds body => ds.flatMap Declaration.reductions ++ body.reductions
  | .ifStmt c t e => c.reductions ++ t.reductions ++ e.reductions
  | .switchStmt e s | .whileStmt e s => e.reductions ++ s.reductions
  | .forStmt init test next s => exprOptReductions init ++ exprOptReductions test ++
      exprOptReductions next ++ s.reductions
  | .doStmt s e => s.reductions ++ e.reductions
  | .returnStmt .none => [.returnVoid]
  | .returnStmt (.some e) => [.returnExpression e]
  | .caseStmt e => e.reductions

def FunctionDefinition.reductions (f : FunctionDefinition) : List Reduction :=
  .enterFunction (declaredTy f.type f.star) f.id (paramList f.params) ::
    (Stmt.compoundStmt f.declarations f.body).reductions ++ [.leaveFunction f.type f.star]

def ExternalDeclaration.reductions : ExternalDeclaration → List Reduction
  | .function f => f.reductions ++ [.checkErrors]
  | .declaration d => d.reductions

def TranslationUnit.reductions (tu : TranslationUnit) : List Reduction :=
  tu.flatMap ExternalDeclaration.reductions

/-! ## The actions of a tree are those of its reductions -/

variable {hash : String → Nat} {v : FrontEnd}

theorem runReductions_append (rs rs' : List Reduction) : runReductions hash v (rs ++ rs') = (do
    runReductions hash v rs
    runReductions hash v rs') := by
  induction rs with
  | nil => rw [List.nil_append, runReductions, return_bind]
  | cons r rs ih => rw [List.cons_append, runReductions, runReductions, ih, bind_bind]

theorem runReductions_singleton (r : Reduction) : runReductions hash v [r] = r.action hash v :=
  bind_return _

theorem expression_void (e : Expr) :
    (expression hash v e).void = runReductions hash v e.reductions := by
  induction e with
  | assign lhs e ih =>
    rw [expression, void_bind, Expr.reductions, runReductions, ← ih, Reduction.action, bind_void]
    simp only [void_bind, void_pure]
    rfl
  | conditional c t e ihc iht ihe =>
    rw [Expr.reductions, List.append_assoc, runReductions_append, runReductions_append, ← ihc,
      ← iht, ← ihe, bind_void, bind_void]
    simp only [expression, void_bind, void_pure]
    rfl
  | binary op a b iha ihb =>
    rw [Expr.reductions, runReductions_append, ← iha, ← ihb, bind_void]
    simp only [expression, void_bind, void_pure]
    rfl
  | cast type star e ih | paren e ih => exact ih
  | unary op e ih =>
    rw [expression, void_bind]
    exact ih
  | id name => exact (runReductions_singleton (.primaryId name)).symm
  | constantInteger text | constantFloat text => exact void_pure _

theorem exprOpt_eq (e : Option Expr) :
    exprOpt hash v e = runReductions hash v (exprOptReductions e) := by
  cases e with
  | none => rfl
  | some e => exact expression_void e

theorem declaration_eq (d : Declaration) :
    declaration hash v d = runReductions hash v d.reductions := by
  rw [Declaration.reductions, runReductions_append, runReductions_singleton, ← exprOpt_eq]
  rfl

theorem declarationList_eq (ds : List Declaration) :
    declarationList hash v ds = runReductions hash v (ds.flatMap Declaration.reductions) := by
  induction ds with
  | nil => rfl
  | cons d ds ih =>
    rw [declarationList, declaration_eq, ih, List.flatMap_cons, runReductions_append]

theorem statement_eq (s : Stmt) : statement hash v s = runReductions hash v s.reductions := by
  induction s with
  | none | breakStmt | continueStmt => rfl
  | list l s ihl ihs => rw [statement, Stmt.reductions, runReductions_append, ihl, ihs]
  | exprStmt e => exact exprOpt_eq e
  | compoundStmt ds body ih =>
    rw [statement, Stmt.reductions, runReductions_append, ih, declarationList_eq]
  | ifStmt c t e iht ihe =>
    rw [statement, Stmt.reductions, List.append_assoc, runReductions_append, runReductions_append,
      ← expression_void, bind_void, iht, ihe]
  | switchStmt e s ih | whileStmt e s ih =>
    rw [statement, Stmt.reductions, runReductions_append, ← expression_void, bind_void, ih]
  | forStmt init test next s ih =>
    simp only [statement, Stmt.reductions, runReductions_append, exprOpt_eq, ih, bind_bind]
  | doStmt s e ih =>
    rw [statement, Stmt.reductions, runReductions_append, ih, ← expression_void]
    rfl
  | returnStmt e =>
    cases e with
    | none => exact (runReductions_singleton .returnVoid).symm
    | some e => exact (runReductions_singleton (.returnExpression e)).symm
  | caseStmt e => exact expression_void e

theorem functionDefinition_eq (f : FunctionDefinition) :
    functionDefinition hash v f = runReductions hash v f.reductions := by
  rw [FunctionDefinition.reductions, List.cons_append, runReductions, runReductions_append,
    runReductions_singleton, ← statement_eq]
  rfl

theorem translationUnit_eq (tu : TranslationUnit) :
    translationUnit hash v tu = runReductions hash v tu.reductions := by
  induction tu with
  | nil => rfl
  | cons d ds ih =>
    have hd : externalDeclaration hash v d = runReductions hash v d.reductions := by
      cases d with
      | function f =>
        rw [ExternalDeclaration.reductions, runReductions_append, runReductions_singleton,
          ← functionDefinition_eq]
        rfl
      | declaration d => exact declaration_eq d
    rw [translationUnit, hd, ih, TranslationUnit.reductions, TranslationUnit.reductions,
      List.flatMap_cons, runReductions_append]

/-! ## Fatal reductions -/

/-- What is known of names: those declared in each live scope, the objects of the module
and which of them are variables, and whether a function has been begun. -/
structure Names where
  scopes : List (List String)
  objects : List (String × Bool)
  begun : Bool
  deriving DecidableEq, Repr

def Names.initial : Names := ⟨[], [], false⟩

/-- The name has been declared in a live scope, or its first object is a variable. -/
def Names.resolves (n : Names) (name : String) : Bool :=
  n.scopes.any (·.contains name) || (n.objects.find? (·.1 = name)).any Prod.snd

def Reduction.next (n : Names) : Reduction → Names
  | .declare _ name =>
      match n.scopes with
      | [] => { n with objects := n.objects ++ [(name, true)] }
      | scope :: scopes => { n with scopes := (name :: scope) :: scopes }
  | .enterFunction _ name params =>
      ⟨params.filterMap ParamNode.name :: n.scopes, n.objects ++ [(name, false)], true⟩
  | .leaveFunction _ _ => { n with scopes := n.scopes.tail }
  | .lhsExpression _ | .primaryId _ | .returnVoid | .returnExpression _ | .checkErrors => n

/-- The load of the name crashes: the C version loads from `NULL` if the name stands for
nothing, and in front of the first function no version has a builder. -/
def Names.badLoad (n : Names) (v : FrontEnd) (name : String) : Bool :=
  match v with
  | .c => !n.resolves name || !n.begun
  | .cpp => n.resolves name && !n.begun

/-- The name whose address or value an expression has. -/
def Expr.source : Expr → Option String
  | .assign lhs _ => some lhs.id
  | .conditional e _ _ | .binary _ e _ | .cast _ _ e | .paren e => e.source
  | .unary op e =>
      match op with
      | .star | .plus | .ampersand => e.source
      | .minus | .bitwiseInvert | .not => none
  | .id name => some name
  | .constantInteger _ | .constantFloat _ => none

/-- The C++ version crashes where the returned expression has no value. -/
def Names.badReturn (n : Names) (v : FrontEnd) (e : Expr) : Bool :=
  match v with
  | .c => false
  | .cpp => !e.source.any n.resolves || !n.begun

/-- The action of the rule crashes. -/
def Reduction.fatal (v : FrontEnd) (n : Names) : Reduction → Bool
  | .lhsExpression lhs => lhs.star && n.badLoad v lhs.id
  | .primaryId name => n.badLoad v name
  | .declare _ _ | .checkErrors => false
  | .returnVoid => !n.begun
  | .returnExpression e => e.loads.any (n.badLoad v) || n.badReturn v e
  | .enterFunction _ _ params => params.any (·.name.isNone)
  | .leaveFunction _ _ => n.scopes.isEmpty

/-- What is known after a sequence of reductions. -/
def Names.after (n : Names) (rs : List Reduction) : Names := rs.foldl Reduction.next n

/-- One of the reductions is fatal. -/
def crashes (v : FrontEnd) : Names → List Reduction → Bool
  | _, [] => false
  | n, r :: rs => r.fatal v n || crashes v (r.next n) rs

/-! ## What the names describe -/

variable (hash) in
/-- The names that the state of the compiler knows. -/
structure Outlined (n : Names) (s : State) : Prop where
  scopes : ∃ l : Lexical Value, s.scopes = l.map (tableAfter hash) ∧
    List.Forall₂ (fun scope ins => ∀ name, name ∈ scope ↔ name ∈ ins.map Prod.fst) n.scopes l
  objects : s.headers = n.objects
  builder : s.builder.isSome = n.begun
  live : n.scopes ≠ [] → n.begun = true

/-- The program does not crash exactly when `E` holds; then it ends as `Q` says. -/
abbrev EndsIff {α : Type} (m : Action α) (s : State) (E : Prop) (Q : α → State → Prop) : Prop :=
  m.Settles (fun _ => True) s True E Q

variable {n : Names} {s : State}

theorem ends_pure {α : Type} {a : α} {E : Prop} {Q : α → State → Prop} (h : Q a s) (hE : E) :
    EndsIff (pure a) s E Q := (Settles.pure h).iff Iff.rfl (iff_of_true trivial hE)

theorem latestIn_eq_none_iff {V : Type} (name : String) (ins : List (String × V)) :
    latestIn name ins = none ↔ name ∉ ins.map Prod.fst := by
  simp only [latestIn, Option.map_eq_none_iff, List.find?_eq_none, decide_eq_true_eq, List.mem_map,
    not_exists, not_and]

/-- `symbol_find` answers to the names that are known. -/
theorem Outlined.resolves_iff (h : Outlined hash n s) (name : String) :
    s.Resolves hash name ↔ n.resolves name = true := by
  obtain ⟨l, hscopes, hnames⟩ := h.scopes
  have hlive : getSymbolInScope hash name s.scopes = none ↔
      n.scopes.any (·.contains name) = false := by
    rw [hscopes, getSymbolInScope_eq_none_iff, List.findSome?_eq_none_iff]
    generalize n.scopes = scopes at hnames
    clear hscopes
    induction hnames with
    | nil => simp
    | cons hmem _ ih =>
      rw [List.forall_mem_cons, List.any_cons, Bool.or_eq_false_iff, ih, latestIn_eq_none_iff,
        ← hmem]
      simp
  have hglobal : (getNamedGlobal s.module name).isSome =
      (n.objects.find? (·.1 = name)).any Prod.snd := by rw [getNamedGlobal_isSome, h.objects]
  rw [State.Resolves, symbolFind, Names.resolves, ← hglobal]
  cases hget : getSymbolInScope hash name s.scopes with
  | none => rw [hlive.mp hget, Bool.false_or]
  | some val =>
    have hany : n.scopes.any (·.contains name) = true := by
      rw [← Bool.not_eq_false, ← hlive, hget]
      simp
    simp only [hany, Bool.true_or, Option.isSome_some]

theorem Outlined.same {t : State} (h : Outlined hash n s) (hst : SamePlace s t) :
    Outlined hash n t where
  scopes := hst.scopes ▸ h.scopes
  objects := hst.headers.trans h.objects
  builder := (congrArg Option.isSome hst.builder).trans h.builder
  live := h.live

/-! ## Expressions -/

/-- The value of an expression with this source; only the C++ version depends on it. -/
def Ref.Stands (v : FrontEnd) (n : Names) (source : Option String) (r : Ref) : Prop :=
  v = .cpp → if source.any n.resolves then ∃ val, r = .value val else r = .junk

theorem Outlined.load_ends (h : Outlined hash n s) (ptr : Option Value) :
    EndsIff (do return Ref.value (← buildLoad ptr)) s (n.begun = true ∧ ptr.isSome) fun r t =>
      SamePlace s t ∧ ∃ val, r = .value val := by
  have hload : EndsIff (buildLoad ptr) s (n.begun = true ∧ ptr.isSome) fun _ t => SamePlace s t :=
    (buildLoad_settles s ptr).ends_only.iff Iff.rfl (by rw [h.builder])
  exact hload.result fun val _ ht => ⟨ht, val, rfl⟩

theorem target_ends (s : State) (val : Option Value) :
    EndsIff (setTarget val) s True fun r t => SamePlace s t ∧ r = .ofOption val := by
  have htarget : (setTarget val).Settles (fun _ => True) s (True ∧ True) True fun r t =>
      SamePlace s t ∧ r = .ofOption val :=
    Settles.observe_bind (Settles.pure ⟨SamePlace.refl s, rfl⟩)
  exact htarget.iff (by simp) Iff.rfl

theorem Outlined.primaryId_ends (h : Outlined hash n s) (name : String) :
    EndsIff (primaryId hash v name) s (n.badLoad v name = false) fun r t =>
      SamePlace s t ∧ r.Stands v n (some name) := by
  refine findSymbol_bind (fun _ _ => trivial) ?_
  have hres := h.resolves_iff name
  rw [State.Resolves] at hres
  cases v with
  | c =>
    refine ((h.load_ends _).iff Iff.rfl ?_).mono fun r t ht => ⟨ht.1, by simp [Ref.Stands]⟩
    simp [Names.badLoad, hres, and_comm]
  | cpp =>
    cases hval : symbolFind hash (getNamedGlobal s.module) s.scopes name with
    | none =>
      have hno : n.resolves name = false := by simpa [hval] using hres
      refine ends_pure ⟨SamePlace.refl s, ?_⟩ (by simp [Names.badLoad, hno])
      simp [Ref.Stands, hno]
    | some val =>
      have hyes : n.resolves name = true := by simpa [hval] using hres
      refine ((h.load_ends (some val)).iff Iff.rfl ?_).mono fun r t ht => ⟨ht.1, ?_⟩
      · simp [Names.badLoad, hyes]
      · simpa [Ref.Stands, hyes] using ht.2

theorem Outlined.lhsExpression_ends (h : Outlined hash n s) (lhs : LhsExpression) :
    EndsIff (lhsExpression hash v lhs) s ((lhs.star && n.badLoad v lhs.id) = false) fun r t =>
      SamePlace s t ∧ r.Stands v n (some lhs.id) := by
  obtain ⟨star, id⟩ := lhs
  cases star with
  | true =>
    rw [Bool.true_and]
    exact h.primaryId_ends id
  | false =>
    refine findSymbol_bind (fun _ _ => trivial) ?_
    have hres := h.resolves_iff id
    rw [State.Resolves] at hres
    cases v with
    | c =>
      refine ((target_ends s _).iff Iff.rfl (by simp)).mono fun r t ht => ⟨ht.1, ?_⟩
      simp [Ref.Stands]
    | cpp =>
      cases hval : symbolFind hash (getNamedGlobal s.module) s.scopes id with
      | none =>
        have hno : n.resolves id = false := by simpa [hval] using hres
        exact ends_pure ⟨SamePlace.refl s, by simp [Ref.Stands, hno]⟩ (by simp)
      | some val =>
        have hyes : n.resolves id = true := by simpa [hval] using hres
        refine ((target_ends s (some val)).iff Iff.rfl (by simp)).mono fun r t ht => ⟨ht.1, ?_⟩
        simp [Ref.Stands, hyes, ht.2, Ref.ofOption]

theorem unary_stands (op : UnaryOp) (e : Expr) {r : Ref} (hr : r.Stands v n e.source) :
    (op.value v r).Stands v n (Expr.unary op e).source := by
  rintro rfl
  cases op with
  | star | plus | ampersand => exact hr rfl
  | minus | bitwiseInvert | not => rfl

/-- An expression crashes exactly when one of its loads does. -/
theorem Outlined.expression_ends (h : Outlined hash n s) (e : Expr) :
    EndsIff (expression hash v e) s (e.loads.any (n.badLoad v) = false) fun r t =>
      SamePlace s t ∧ r.Stands v n e.source := by
  induction e generalizing s with
  | assign lhs e ih =>
    have hbind := (h.lhsExpression_ends (v := v) lhs).bind (R := fun r t => SamePlace s t ∧
        r.Stands v n (some lhs.id)) fun r t ht => (ih (h.same ht.1)).result (g := fun _ => r)
          fun _ u hu => ⟨ht.1.trans hu.1, ht.2⟩
    refine hbind.iff (by simp) ?_
    rw [Expr.loads, List.any_append, Bool.or_eq_false_iff]
    cases lhs.star <;> simp
  | conditional c t e ihc iht ihe =>
    have hbind := (ihc h).bind (R := fun r t => SamePlace s t ∧ r.Stands v n c.source)
      fun r s₁ h₁ => (iht (h.same h₁.1)).bind fun _ s₂ h₂ =>
        (ihe ((h.same h₁.1).same h₂.1)).result (g := fun _ => r)
          fun _ u hu => ⟨(h₁.1.trans h₂.1).trans hu.1, h₁.2⟩
    refine hbind.iff (by simp) ?_
    rw [Expr.loads, List.any_append, List.any_append, Bool.or_eq_false_iff, Bool.or_eq_false_iff,
      and_assoc]
  | binary op a b iha ihb =>
    have hbind := (iha h).bind (R := fun r t => SamePlace s t ∧ r.Stands v n a.source)
      fun r t ht => (ihb (h.same ht.1)).result (g := fun _ => r)
        fun _ u hu => ⟨ht.1.trans hu.1, ht.2⟩
    refine hbind.iff (by simp) ?_
    rw [Expr.loads, List.any_append, Bool.or_eq_false_iff]
  | cast type star e ih | paren e ih => exact ih h
  | unary op e ih => exact (ih h).result fun r t ht => ⟨ht.1, unary_stands op e ht.2⟩
  | id name => exact (h.primaryId_ends name).iff Iff.rfl (by simp [Expr.loads])
  | constantInteger text | constantFloat text =>
    exact ends_pure ⟨SamePlace.refl s, fun _ => rfl⟩ (by simp [Expr.loads])

theorem Outlined.buildRet_ends (h : Outlined hash n s) (val : Option Value) :
    EndsIff (buildRet val) s (n.begun = true) fun _ t => SamePlace s t := by
  have hbuild : EndsIff (buildRet val) s s.builder.isSome fun _ t => SamePlace s t :=
    (build_settles s _ (.ret val)).ends_only.result fun _ _ ht => State.append_samePlace ht rfl
  exact hbuild.iff Iff.rfl (by rw [h.builder])

theorem Outlined.returnExpression_ends (h : Outlined hash n s) (e : Expr) {r : Ref}
    (hr : r.Stands v n e.source) :
    EndsIff (returnExpression v r) s (n.badReturn v e = false) fun _ t => SamePlace s t := by
  cases v with
  | c => exact ends_pure (SamePlace.refl s) rfl
  | cpp =>
    have hr := hr rfl
    by_cases hsource : e.source.any n.resolves = true
    · rw [if_pos hsource] at hr
      obtain ⟨val, rfl⟩ := hr
      exact (h.buildRet_ends (some val)).iff Iff.rfl (by simp [Names.badReturn, hsource])
    · rw [if_neg hsource] at hr
      subst hr
      exact Settles.crash.iff Iff.rfl (by simp [Names.badReturn, hsource])

/-! ## Functions -/

theorem Outlined.allocate_ends (h : Outlined hash n s) (hbegun : n.begun = true) (t : Ty)
    (name : Option String) :
    EndsIff (buildAlloca t name) s name.isSome fun _ u => Outlined hash n u := by
  cases name with
  | none => exact Settles.crash.iff Iff.rfl (by simp)
  | some name =>
    have halloca : EndsIff (buildAlloca t (some name)) s s.builder.isSome
        fun _ u => Outlined hash n u := by
      refine (build_settles s _ (.alloca t name)).ends_only.result fun _ u hu => ?_
      obtain ⟨hscopes, _, _⟩ := State.append_eq hu
      obtain ⟨hbuilder, hheaders⟩ := State.append_place hu
      exact ⟨hscopes ▸ h.scopes, hheaders.trans h.objects,
        (congrArg Option.isSome hbuilder).trans h.builder, h.live⟩
    exact halloca.iff Iff.rfl (by simp [h.builder, hbegun])

/-- A name that is inserted into the innermost live scope is known there. -/
theorem Outlined.insertSymbol_ends (h : Outlined hash n s) {scope : List String}
    {scopes : List (List String)} (hn : n.scopes = scope :: scopes) (name : Option String)
    (val : Value) :
    EndsIff (insertSymbol hash name val) s name.isSome fun _ t =>
      Outlined hash { n with scopes := (name.toList ++ scope) :: scopes } t := by
  obtain ⟨l, hscopes, hnames⟩ := h.scopes
  rw [hn] at hnames
  obtain ⟨ins, l, hmem, hrest, rfl⟩ := List.forall₂_cons_left_iff.mp hnames
  refine Settles.read_bind ?_
  rw [if_neg (by simp [hscopes, isGlobalScope])]
  cases name with
  | none => exact (Settles.observe_bind Settles.crash).iff (by simp) (by simp)
  | some name =>
    have hchange : EndsIff (change fun s => some { s with
        scopes := symbolInsert hash s.scopes name val }) s True fun _ t =>
          Outlined hash { n with scopes := ((some name).toList ++ scope) :: scopes } t := by
      refine (Settles.change ?_).iff Iff.rfl (by simp)
      rintro _ ⟨⟩
      refine ⟨⟨((name, val) :: ins) :: l, ?_, .cons (fun x => ?_) hrest⟩, h.objects, h.builder,
        fun _ => h.live (by simp [hn])⟩
      · rw [hscopes]
        rfl
      · simp [hmem]
    exact (Settles.observe_bind hchange).iff (by simp) (by simp)

/-- One parameter: an alloca, the store of the argument and the name. -/
theorem Outlined.bindParam_ends (h : Outlined hash n s) {scope : List String}
    {scopes : List (List String)} (hn : n.scopes = scope :: scopes) (t : Ty)
    {label name : Option String} (hlabel : name.isSome → label.isSome) (i : Nat)
    {rest : Action Unit} {E : Prop} {Q : Unit → State → Prop}
    (hrest : ∀ u, Outlined hash { n with scopes := (name.toList ++ scope) :: scopes } u →
      EndsIff rest u E Q) :
    EndsIff (do
      let alloca ← buildAlloca t label
      buildStore (.param i) alloca
      insertSymbol hash name alloca
      rest) s (name.isSome ∧ E) Q := by
  have hbegun : n.begun = true := h.live (by simp [hn])
  have hparam := (h.allocate_ends hbegun t label).bind (R := Q)
    (f := fun a => do
      buildStore (.param i) a
      insertSymbol hash name a
      rest) fun a u hu => by
    have hstore : EndsIff (buildStore (.param i) a) u True fun _ w => SamePlace u w := by
      have hbuild : EndsIff (buildStore (.param i) a) u u.builder.isSome
          fun _ w => SamePlace u w :=
        (build_settles u _ (.store (.param i) a)).ends_only.result fun _ _ hw =>
          State.append_samePlace hw rfl
      exact hbuild.iff Iff.rfl (by simp [hu.builder, hbegun])
    exact Meets.after hstore fun _ w hw =>
      ((hu.same hw).insertSymbol_ends hn name a).bind fun _ => hrest
  refine hparam.iff (by simp) ?_
  tauto

theorem Outlined.bindParamsDown_ends (h : Outlined hash n s) {scope : List String}
    {scopes : List (List String)} (hn : n.scopes = scope :: scopes) (ps : List ParamNode) :
    EndsIff (bindParamsDown hash ps ps.length) s (∀ p ∈ ps, p.name.isSome) fun _ t =>
      Outlined hash { n with
        scopes := ((ps.filterMap ParamNode.name).reverse ++ scope) :: scopes } t := by
  induction ps generalizing n s scope with
  | nil =>
    obtain ⟨_, objects, begun⟩ := n
    cases hn
    exact ends_pure h (by simp)
  | cons p ps ih =>
    rw [List.forall_mem_cons]
    refine h.bindParam_ends hn p.type (fun hname => hname) ps.length fun u hu => ?_
    refine (ih hu rfl).mono fun _ t ht => ?_
    cases hp : p.name <;> simpa [hp] using ht

theorem Outlined.bindParamsUp_ends (h : Outlined hash n s) {scope : List String}
    {scopes : List (List String)} (hn : n.scopes = scope :: scopes) (ps : List ParamNode)
    (i : Nat) : EndsIff (bindParamsUp hash (ps.map ParamNode.type) (ps.map ParamNode.name) i) s
      (∀ p ∈ ps, p.name.isSome) fun _ t => Outlined hash { n with
        scopes := ((ps.filterMap ParamNode.name).reverse ++ scope) :: scopes } t := by
  induction ps generalizing n s scope i with
  | nil =>
    obtain ⟨_, objects, begun⟩ := n
    cases hn
    exact ends_pure h (by simp)
  | cons p ps ih =>
    rw [List.forall_mem_cons]
    refine h.bindParam_ends hn p.type (fun _ => rfl) i fun u hu => ?_
    refine (ih hu rfl (i + 1)).mono fun _ t ht => ?_
    cases hp : p.name <;> simpa [hp] using ht

/-- The order of the names in a scope does not matter. -/
theorem Outlined.reorder {scope scope' : List String} {scopes : List (List String)}
    {objects : List (String × Bool)} {begun : Bool}
    (h : Outlined hash ⟨scope :: scopes, objects, begun⟩ s)
    (hmem : ∀ name, name ∈ scope' ↔ name ∈ scope) :
    Outlined hash ⟨scope' :: scopes, objects, begun⟩ s := by
  obtain ⟨l, hscopes, hnames⟩ := h.scopes
  obtain ⟨ins, l, hscope, hrest, rfl⟩ := List.forall₂_cons_left_iff.mp hnames
  exact ⟨⟨_, hscopes, .cons (fun name => (hmem name).trans (hscope name)) hrest⟩, h.objects,
    h.builder, fun _ => h.live (by simp)⟩

theorem Outlined.enterFunction_ends (h : Outlined hash n s) (t : Ty) (name : String)
    (params : List ParamNode) :
    EndsIff (enterFunction hash v t name params) s (∀ p ∈ params, p.name.isSome) fun _ u =>
      Outlined hash (Reduction.next n (.enterFunction t name params)) u := by
  refine Settles.change_bind rfl (Settles.change_bind rfl ?_)
  obtain ⟨l, hscopes, hnames⟩ := h.scopes
  have hstart : Outlined hash ⟨[] :: n.scopes, n.objects ++ [(name, false)], true⟩
      { s with
        scopes := symbolPushScope s.scopes
        module := s.module ++ [.function ⟨t, name, fillDown ParamNode.type params [], []⟩]
        builder := some s.module.length } := by
    refine ⟨⟨[] :: l, ?_, .cons (by simp) hnames⟩, ?_, rfl, fun _ => rfl⟩
    · rw [hscopes]
      rfl
    · rw [← h.objects]
      exact List.map_append
  cases v with
  | c =>
    refine (hstart.bindParamsDown_ends rfl params).mono fun _ u hu => hu.reorder ?_
    simp
  | cpp =>
    have hup := hstart.bindParamsUp_ends rfl params.reverse 0
    have hfields : ∀ {α : Type} (field : ParamNode → α),
        params.reverse.map field = fillDown field params [] := fun field => by simp [fillDown_eq]
    rw [hfields, hfields] at hup
    have hall : (∀ p ∈ params.reverse, p.name.isSome) ↔ ∀ p ∈ params, p.name.isSome := by simp
    refine (hup.iff Iff.rfl hall).mono fun _ u hu => hu.reorder ?_
    simp

/-! ## The runs that crash -/

variable (hash) in
/-- Outlined, and without an error so far. -/
structure Described (n : Names) (s : State) : Prop extends Outlined hash n s where
  numErrors : s.numErrors = 0

theorem described_initial (hash : String → Nat) : Described hash .initial .initial :=
  ⟨⟨⟨[], rfl, .nil⟩, rfl, rfl, fun h => absurd rfl h⟩, rfl⟩

theorem Outlined.isGlobalScope (h : Outlined hash n s) :
    isGlobalScope s.scopes = n.scopes.isEmpty := by
  obtain ⟨l, hl, hnames⟩ := h.scopes
  rw [hl]
  generalize n.scopes = scopes at hnames
  cases hnames <;> rfl

theorem popScope_crashes (hs : s.scopes = []) {Q : Unit → State → Prop} :
    EndsIff popScope s False Q :=
  (Settles.change (by simp [hs, symbolPopScope])).iff Iff.rfl (by simp [hs, symbolPopScope])

theorem Outlined.popScope_ends {scope : List String} {scopes : List (List String)}
    {objects : List (String × Bool)} {begun : Bool}
    (h : Outlined hash ⟨scope :: scopes, objects, begun⟩ s) :
    EndsIff popScope s True fun _ t => Outlined hash ⟨scopes, objects, begun⟩ t := by
  obtain ⟨l, hl, hnames⟩ := h.scopes
  obtain ⟨ins, l, -, hrest, rfl⟩ := List.forall₂_cons_left_iff.mp hnames
  refine (Settles.change ?_).iff Iff.rfl (by simp [hl, symbolPopScope])
  simp only [hl, List.map_cons, symbolPopScope, Option.map_some, Option.some.injEq]
  rintro _ rfl
  exact ⟨⟨l, rfl, hrest⟩, h.objects, h.builder, fun _ => h.live (by simp)⟩

theorem Outlined.defaultReturn_ends (h : Outlined hash n s) (hbegun : n.begun = true)
    (type : TypeSpecifier) (star : Bool) :
    EndsIff (defaultReturn v type star) s True fun _ t => SamePlace s t := by
  have hret : ∀ val, EndsIff (buildRet val) s True fun _ t => SamePlace s t := fun val =>
    (h.buildRet_ends val).iff Iff.rfl (by simp [hbegun])
  cases v <;> cases star <;> cases type <;>
    first
    | exact hret _
    | exact Settles.pure (SamePlace.refl s)

theorem Outlined.leaveFunction_ends (h : Outlined hash n s) (type : TypeSpecifier) (star : Bool) :
    EndsIff (leaveFunction v type star) s (n.scopes ≠ []) fun _ t =>
      Outlined hash (Reduction.next n (.leaveFunction type star)) t := by
  obtain ⟨scopes, objects, begun⟩ := n
  have hreturn := (defaultReturn_follows v type star s).leaves
  apply Settles.read_bind
  dsimp only
  cases scopes with
  | nil =>
    -- the scope stack is empty, and closing a scope crashes
    have hempty : s.scopes = [] := by simpa [MiniC.isGlobalScope] using h.isGlobalScope
    have hclosed : ∀ t, SameNames s t → EndsIff popScope t False fun _ u =>
        Outlined hash ⟨[], objects, begun⟩ u := fun t ht =>
      popScope_crashes (ht.scopes.trans hempty)
    split
    · exact (hclosed s (SameNames.refl s)).iff Iff.rfl (by simp)
    · have hends : EndsIff (defaultReturn v type star) s
          ((defaultReturn v type star).run s).2.isSome fun _ t => SameNames s t :=
        ⟨by simp, Iff.rfl, hreturn⟩
      exact (hends.bind fun _ => hclosed).iff (by simp) (by simp)
  | cons scope scopes =>
    have hopen : ∀ t, SamePlace s t → EndsIff popScope t (scope :: scopes ≠ []) fun _ u =>
        Outlined hash ⟨scopes, objects, begun⟩ u := fun t ht =>
      (h.same ht).popScope_ends.iff Iff.rfl (by simp)
    split
    · exact hopen s (SamePlace.refl s)
    · exact Meets.after (h.defaultReturn_ends (h.live (by simp)) type star) fun _ => hopen

theorem Outlined.declare_ends (h : Outlined hash n s) (t : Ty) (name : String) :
    EndsIff (declare hash t name) s True fun _ u =>
      Outlined hash (Reduction.next n (.declare t name)) u := by
  obtain ⟨scopes, objects, begun⟩ := n
  apply Settles.read_bind
  rw [h.isGlobalScope]
  cases scopes with
  | nil =>
    rw [if_pos (by simp)]
    refine (Settles.change ?_).iff Iff.rfl (by simp)
    rintro _ ⟨⟩
    refine ⟨h.scopes, ?_, h.builder, h.live⟩
    have hobjects : s.headers = objects := h.objects
    change _ = objects ++ [(name, true)]
    rw [← hobjects]
    exact List.map_append
  | cons scope scopes =>
    rw [if_neg (by simp)]
    have halloca := h.allocate_ends (h.live (by simp)) t (some name)
    exact (halloca.bind fun a u hu => hu.insertSymbol_ends rfl (some name) a).iff (by simp)
      (by simp)

theorem Outlined.action_ends (h : Outlined hash n s) (hs : s.numErrors = 0) (r : Reduction) :
    EndsIff (r.action hash v) s (r.fatal v n = false) fun _ t => Outlined hash (r.next n) t := by
  have hsame : ∀ {α : Type} {m : Action α} {E : Prop} {Q : α → State → Prop},
      EndsIff m s E (fun a t => SamePlace s t ∧ Q a t) →
        EndsIff m.void s E fun _ t => Outlined hash n t := fun hm =>
    hm.result fun _ _ ht => h.same ht.1
  cases r with
  | lhsExpression lhs => exact hsame (h.lhsExpression_ends lhs)
  | primaryId name => exact hsame (h.primaryId_ends name)
  | declare t name => exact (h.declare_ends t name).iff Iff.rfl (by simp [Reduction.fatal])
  | returnVoid =>
    refine ((h.buildRet_ends none).iff Iff.rfl ?_).mono fun _ _ ht => h.same ht
    simp [Reduction.fatal]
  | returnExpression e =>
    have hreturn := (h.expression_ends (v := v) e).bind fun r t ht =>
      ((h.same ht.1).returnExpression_ends e ht.2).mono fun _ u hu => (h.same ht.1).same hu
    exact hreturn.iff (by simp) (by rw [Reduction.fatal, Bool.or_eq_false_iff])
  | enterFunction t name params =>
    exact (h.enterFunction_ends t name params).iff Iff.rfl
      (by simp [Reduction.fatal, Option.isSome_iff_ne_none])
  | leaveFunction type star =>
    exact (h.leaveFunction_ends type star).iff Iff.rfl (by simp [Reduction.fatal])
  | checkErrors =>
    refine Settles.read_bind ?_
    rw [if_neg (by simp [hs])]
    exact ends_pure h rfl

theorem Reduction.runsRules (r : Reduction) : RunsRules hash v (r.action hash v) := by
  cases r with
  | lhsExpression lhs => exact (RunsRules.rule (.lhsExpression lhs)).bind fun _ => .pure _
  | primaryId name => exact (RunsRules.rule (.primaryId name)).bind fun _ => .pure _
  | declare t name => exact .rule (.declare t name)
  | returnVoid => exact .rule .returnVoid
  | returnExpression e =>
    exact (RunsRules.expression e).bind fun r => .rule (.returnExpression r)
  | enterFunction t name params => exact .rule (.enterFunction t name params)
  | leaveFunction type star => exact .rule (.leaveFunction type star)
  | checkErrors => exact .rule .checkErrors

/-- The action of a rule crashes exactly when the reduction is fatal. -/
theorem Described.action_ends (h : Described hash n s) (r : Reduction) :
    EndsIff (r.action hash v) s (r.fatal v n = false) fun _ t => Described hash (r.next n) t :=
  (h.toOutlined.action_ends h.numErrors r).leaving (r.runsRules.keepsErrors s)
    fun _ _ ht hn => ⟨ht, hn.trans h.numErrors⟩

/-- A run crashes exactly when one of its reductions is fatal. -/
theorem Described.runReductions_ends (h : Described hash n s) (rs : List Reduction) :
    EndsIff (runReductions hash v rs) s (crashes v n rs = false) fun _ t =>
      Described hash (n.after rs) t := by
  induction rs generalizing n s with
  | nil => exact ends_pure h rfl
  | cons r rs ih =>
    refine ((h.action_ends r).bind fun _ t ht => ih ht).iff (by simp) ?_
    rw [crashes, Bool.or_eq_false_iff]

/-! ## The addresses of the uses in a function -/

variable (hash v) in
theorem described_after {before : TranslationUnit} {es : List Event}
    (h : (translationUnit hash v before).run .initial = (es, some ((), s))) :
    Described hash (Names.initial.after before.reductions) s := by
  rw [translationUnit_eq] at h
  exact ((described_initial hash).runReductions_ends before.reductions).leaves es () s h

/-- After any external declarations, in both front ends and for any hash function: the
compiler gets through a function definition exactly when none of its reductions is
fatal; then it uses an address for every identifier in it, and before a crash for those
up to the crash. The address is the one that block scoping gives the identifier exactly
when no other declaration gets in the way. -/
theorem functionDefinition_address_iff (hash : String → Nat) (v : FrontEnd)
    (before : TranslationUnit) (f : FunctionDefinition) (es : List Event) (s : State)
    (h : (translationUnit hash v before).run .initial = (es, some ((), s))) :
    (((functionDefinition hash v f).run s).2.isSome ↔
      crashes v (Names.initial.after before.reductions) f.reductions = false) ∧
    ∃ reached rest : List Use, f.uses v = reached ++ rest ∧
      (((functionDefinition hash v f).run s).2.isSome → rest = []) ∧
      List.Forall₂ (fun u p => p.1 = u.name ∧
          (p.2 = u.lexical (getNamedGlobal s.module) ↔ u.Undisturbed hash))
        reached (usedAddresses ((functionDefinition hash v f).run s).1) := by
  have hs : s.scopes = [] := translationUnit_leaves v before rfl es () s h
  have hfollows := functionDefinition_follows hash v hs f
  have hends := (described_after hash v h).runReductions_ends (v := v) f.reductions
  rw [← functionDefinition_eq] at hends
  obtain ⟨others, hothers⟩ := hfollows.seen
  obtain ⟨reached, rest, huses, hreached, hrest⟩ := List.map_eq_append_iff.mp hothers.symm
  refine ⟨hends.ends, reached, rest, huses, fun hsome => ?_, ?_⟩
  · rw [← hfollows.all hsome, List.append_right_eq_self] at hothers
    rw [← List.map_eq_nil_iff, hrest, hothers]
  · change List.Forall₂ _ reached (addresses.see _)
    rw [← hreached, List.forall₂_map_right_iff, List.forall₂_same]
    exact fun u _ => ⟨rfl, u.found_eq_lexical_iff s.module⟩

/-- `int f(int x) { int a; { int a; } return a; }`. -/
def innerBlock : FunctionDefinition where
  type := .int
  star := false
  id := "f"
  params := [⟨.int, false, some "x"⟩]
  declarations := [⟨.int, false, "a", none⟩]
  body := .list (.list .none (.compoundStmt [⟨.int, false, "a", none⟩] .none))
    (.returnStmt (some (.id "a")))

theorem functionDefinition_address_iff_innerBlock :
    (translationUnit Uthash.hashJen .c [.declaration ⟨.int, false, "g", none⟩]).run .initial =
        ([], some ((), ⟨[], [.variable .int32 "g"], none, 0⟩)) ∧
      (((functionDefinition Uthash.hashJen .c innerBlock).run
          ⟨[], [.variable .int32 "g"], none, 0⟩).2.isSome ↔
        crashes .c ⟨[], [("g", true)], false⟩ innerBlock.reductions = false) ∧
      ∃ reached rest : List Use, innerBlock.uses .c = reached ++ rest ∧
        (((functionDefinition Uthash.hashJen .c innerBlock).run
          ⟨[], [.variable .int32 "g"], none, 0⟩).2.isSome → rest = []) ∧
        List.Forall₂ (fun u p => p.1 = u.name ∧
            (p.2 = u.lexical (getNamedGlobal [.variable .int32 "g"]) ↔
              u.Undisturbed Uthash.hashJen))
          reached (usedAddresses ((functionDefinition Uthash.hashJen .c innerBlock).run
            ⟨[], [.variable .int32 "g"], none, 0⟩).1) :=
  ⟨rfl, functionDefinition_address_iff Uthash.hashJen .c [.declaration ⟨.int, false, "g", none⟩]
    innerBlock [] ⟨[], [.variable .int32 "g"], none, 0⟩ rfl⟩

/-- Both front ends get through `innerBlock` and, with any hash function, take the alloca
of the closed block for the one of the outer `a`. -/
theorem innerBlock_used (hash : String → Nat) (v : FrontEnd) :
    ((functionDefinition hash v innerBlock).run .initial).2.isSome ∧
      usedAddresses ((functionDefinition hash v innerBlock).run .initial).1 =
        [("a", some (.alloca 2))] := by
  have hends := (described_initial hash).runReductions_ends (v := v) innerBlock.reductions
  rw [← functionDefinition_eq] at hends
  have hsome : ((functionDefinition hash v innerBlock).run .initial).2.isSome :=
    hends.ends.mpr (by cases v <;> rfl)
  have huses : innerBlock.uses v = [⟨"a", ["x", "a", "a"], [⟨1, ["a"]⟩, ⟨0, ["x"]⟩]⟩] := by
    cases v <;> rfl
  have hall := (functionDefinition_follows hash v (s := .initial) rfl innerBlock).all hsome
  rw [huses, answers, List.map_singleton, Use.found_eq_last _ _ (by decide)] at hall
  exact ⟨hsome, hall⟩

/-- Block scoping gives the use in `innerBlock` the outer `a`. -/
theorem innerBlock_address :
    (∀ v, ((functionDefinition Uthash.hashJen v innerBlock).run .initial).2.isSome ∧
      usedAddresses ((functionDefinition Uthash.hashJen v innerBlock).run .initial).1 =
        [("a", some (.alloca 2))]) ∧
      ∃ u, innerBlock.uses .c = [u] ∧ innerBlock.uses .cpp = [u] ∧ u.name = "a" ∧
        u.lexical (getNamedGlobal State.initial.module) = some (.alloca 1) :=
  ⟨innerBlock_used _, ⟨"a", ["x", "a", "a"], [⟨1, ["a"]⟩, ⟨0, ["x"]⟩]⟩, rfl, rfl, rfl, rfl⟩

end CourseCompilers.MiniC
