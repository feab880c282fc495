import CourseCompilers.MiniC.Driver
import CourseCompilers.MiniC.Scoping

/-! The null names and null addresses of the C front end. `symbol_find` answers `NULL`
for a name it does not know, and the address is loaded from nevertheless. The null
name of an unnamed parameter is never inserted: building its alloca crashes first. -/

namespace CourseCompilers.MiniC
open Lib Prog

/-- A call of `symbol_insert` in a live scope has a name and one of `LLVMBuildLoad` an
address. -/
def Event.NonNull : Event → Prop
  | .find _ _ | .target _ => True
  | .insert name _ => name.isSome
  | .load ptr => ptr.isSome

/-! ## The names that are loaded -/

/-- The names are known one after the other; after the first one the compiler goes on
only if it has a builder. -/
def Loadable (known : String → Prop) (builder : Prop) : List String → Prop
  | [] => True
  | id :: ids => known id ∧ (builder → Loadable known builder ids)

section
variable (globals : String → Prop)

/-- The names are among those the function has inserted or else global variables. -/
def Known (inserted ids : List String) : Prop := ∀ id ∈ ids, id ∈ inserted ∨ globals id

def declarationsKnown : List String → List Declaration → Prop
  | _, [] => True
  | inserted, d :: ds =>
      Known globals inserted (exprOptLoads d.initializer) ∧
        declarationsKnown (inserted ++ [d.id]) ds

/-- Each name that a statement loads is known there. -/
def Stmt.NamesKnown : Stmt → List String → Prop
  | .none, _ | .breakStmt, _ | .continueStmt, _ => True
  | .list l s, inserted => l.NamesKnown inserted ∧ s.NamesKnown (inserted ++ l.declared)
  | .exprStmt e, inserted | .returnStmt e, inserted => Known globals inserted (exprOptLoads e)
  | .compoundStmt ds body, inserted =>
      declarationsKnown globals inserted ds ∧ body.NamesKnown (inserted ++ ds.map Declaration.id)
  | .ifStmt c t e, inserted =>
      Known globals inserted c.loads ∧ t.NamesKnown inserted ∧
        e.NamesKnown (inserted ++ t.declared)
  | .switchStmt e s, inserted | .whileStmt e s, inserted =>
      Known globals inserted e.loads ∧ s.NamesKnown inserted
  | .forStmt init test next s, inserted =>
      Known globals inserted (exprOptLoads init) ∧ Known globals inserted (exprOptLoads test) ∧
        Known globals inserted (exprOptLoads next) ∧ s.NamesKnown inserted
  | .doStmt s e, inserted =>
      s.NamesKnown inserted ∧ Known globals (inserted ++ s.declared) e.loads
  | .caseStmt e, inserted => Known globals inserted e.loads

/-- Each name that the body loads is known there. -/
def FunctionDefinition.NamesKnown (f : FunctionDefinition) : Prop :=
  (Stmt.compoundStmt f.declarations f.body).NamesKnown globals (f.paramNames .c)

end

def FunctionDefinition.ParamsNamed (f : FunctionDefinition) : Prop :=
  ∀ p ∈ f.params, p.id.isSome

def ExternalDeclaration.id : ExternalDeclaration → String
  | .function f => f.id
  | .declaration d => d.id

def ExternalDeclaration.isVariable : ExternalDeclaration → Bool
  | .function _ => false
  | .declaration _ => true

/-- The first external declaration of the name declares a variable. -/
def TranslationUnit.declaresVariable (tu : TranslationUnit) (name : String) : Bool :=
  (tu.find? (·.id = name)).any ExternalDeclaration.isVariable

def TranslationUnit.hasFunction (tu : TranslationUnit) : Bool := tu.any (! ·.isVariable)

/-- Each function definition knows the names its body loads, and so does each initializer
of a global variable. A function with an unnamed parameter crashes the compiler before
its body, so nothing from there on counts. Before the first function there is no
builder: the compiler crashes at the first load, so only that one counts and nothing
after it. -/
def TranslationUnit.NamesKnown (before : TranslationUnit) : TranslationUnit → Prop
  | [] => True
  | .function f :: ds =>
      f.ParamsNamed → f.NamesKnown (fun name => before.declaresVariable name) ∧
        NamesKnown (before ++ [.function f]) ds
  | .declaration d :: ds =>
      match exprOptLoads d.initializer with
      | [] => NamesKnown (before ++ [.declaration d]) ds
      | id :: ids =>
          before.declaresVariable id ∧ (before.hasFunction →
            (∀ id ∈ ids, before.declaresVariable id) ∧
              NamesKnown (before ++ [.declaration d]) ds)

/-! ## Expressions -/

/-- The name of an object and whether it is a variable. -/
def Global.header : Global → String × Bool
  | .variable _ name => (name, true)
  | .function f => (f.name, false)

/-- The names of the objects of the module. -/
def State.headers (s : State) : List (String × Bool) := s.module.map Global.header

/-- From `s` to `t` no name was bound, no alloca built and no object made. -/
structure SamePlace (s t : State) : Prop extends SameNames s t where
  builder : t.builder = s.builder
  headers : t.headers = s.headers

theorem SamePlace.refl (s : State) : SamePlace s s := ⟨SameNames.refl s, rfl, rfl⟩

theorem SamePlace.trans {s t u : State} (h : SamePlace s t) (h' : SamePlace t u) :
    SamePlace s u :=
  ⟨h.toSameNames.trans h'.toSameNames, h'.builder.trans h.builder, h'.headers.trans h.headers⟩

theorem header_append (g : Global) (i : Inst) : (g.append i).header = g.header := by
  cases g <;> rfl

theorem map_header_modify (module : List Global) (k : Nat) (i : Inst) :
    (module.modify k (Global.append i)).map Global.header = module.map Global.header := by
  induction module generalizing k with
  | nil => simp
  | cons g module ih => cases k <;> simp [List.modify_cons, header_append, ih]

theorem State.append_place {s t : State} {i : Inst} (h : s.append i = some t) :
    t.builder = s.builder ∧ t.headers = s.headers := by
  obtain ⟨k, -, rfl⟩ := Option.map_eq_some_iff.mp h
  exact ⟨rfl, map_header_modify s.module k i⟩

theorem loadable_append (known : String → Prop) (builder : Prop) (ids ids' : List String) :
    Loadable known builder (ids ++ ids') ↔ Loadable known builder ids ∧
      ((∀ id ∈ ids, builder ∧ known id) → Loadable known builder ids') := by
  induction ids with
  | nil => simp [Loadable]
  | cons id ids ih =>
    simp only [List.cons_append, Loadable, ih, List.mem_cons, forall_eq_or_imp]
    tauto

theorem loadable_iff_of_builder (known : String → Prop) {builder : Prop} (hb : builder)
    (ids : List String) : Loadable known builder ids ↔ ∀ id ∈ ids, known id := by
  induction ids with
  | nil => simp [Loadable]
  | cons id ids ih =>
    rw [Loadable, ih, List.forall_mem_cons]
    simp [hb]

variable {hash : String → Nat} {s : State}

variable (hash) in
/-- `symbol_find` has an answer to the name. -/
def State.Resolves (s : State) (id : String) : Prop :=
  (symbolFind hash (getNamedGlobal s.module) s.scopes id).isSome

variable (hash) in
/-- Names are loaded in this state. -/
abbrev LoadsNames {α : Type} (m : Action α) (s : State) (ids : List String) : Prop :=
  m.Settles Event.NonNull s (Loadable (s.Resolves hash) s.builder.isSome ids)
    (∀ id ∈ ids, s.builder.isSome ∧ s.Resolves hash id) fun _ t => SamePlace s t

theorem SamePlace.resolves {t : State} (h : SamePlace s t) : t.Resolves hash = s.Resolves hash := by
  funext id
  rw [State.Resolves, State.Resolves, h.globals, h.scopes]

theorem LoadsNames.none {α : Type} (a : α) : LoadsNames hash (pure a) s [] := by
  have hpure : (pure a : Action α).Settles Event.NonNull s True True fun _ t => SamePlace s t :=
    Settles.pure (SamePlace.refl s)
  exact hpure.iff (by simp [Loadable]) (by simp)

theorem LoadsNames.bind {α β : Type} {m : Action α} {f : α → Action β} {ids ids' : List String}
    (h : LoadsNames hash m s ids) (hf : ∀ a t, SamePlace s t → LoadsNames hash (f a) t ids') :
    LoadsNames hash (m >>= f) s (ids ++ ids') := by
  have hrest : ∀ a t, SamePlace s t → (f a).Settles Event.NonNull t
      (Loadable (s.Resolves hash) s.builder.isSome ids')
      (∀ id ∈ ids', s.builder.isSome ∧ s.Resolves hash id) fun _ u => SamePlace s u := by
    intro a t ht
    have hfa := hf a t ht
    rw [LoadsNames, ht.resolves, ht.builder] at hfa
    exact hfa.mono fun _ _ hu => ht.trans hu
  exact (Settles.bind h hrest).iff (loadable_append _ _ ids ids').symm
    List.forall_mem_append.symm

theorem LoadsNames.result {α β : Type} {m : Action α} {ids : List String}
    (h : LoadsNames hash m s ids) (g : α → β) : LoadsNames hash (do return g (← m)) s ids := by
  simpa using LoadsNames.bind h fun a t _ => LoadsNames.none (s := t) (g a)

theorem build_settles (s : State) (kind : Inst → Bool) (i : Inst) :
    (build kind i).Settles Event.NonNull s True s.builder.isSome
      fun _ t => s.append i = some t := by
  have hchange : (change fun s => s.append i : Action Unit).Settles Event.NonNull s True
      s.builder.isSome fun _ t => s.append i = some t :=
    (Settles.change fun _ ht => ht).iff Iff.rfl (by simp [State.append])
  exact Settles.read_bind (hchange.result fun _ _ ht => ht)

theorem State.append_samePlace {s t : State} {i : Inst} (h : s.append i = some t)
    (hi : i.isAlloca = false) : SamePlace s t :=
  ⟨State.append_sameNames h hi, (State.append_place h).1, (State.append_place h).2⟩

theorem buildLoad_settles (s : State) (ptr : Option Value) :
    (buildLoad ptr).Settles Event.NonNull s ptr.isSome (s.builder.isSome ∧ ptr.isSome)
      fun _ t => SamePlace s t := by
  cases ptr with
  | none => exact (Settles.observe_bind Settles.crash).iff (by simp [Event.NonNull]) (by simp)
  | some ptr =>
    have hload := (build_settles s Inst.isLoad (.load ptr)).result (g := Value.load)
      (R := fun _ t => SamePlace s t) fun _ _ ht => State.append_samePlace ht rfl
    exact (Settles.observe_bind hload).iff (by simp [Event.NonNull]) (by simp)

theorem findSymbol_bind {α : Type} {good : Event → Prop} (hgood : ∀ name val, good (.find name val))
    {f : Option Value → Action α} {name : String} {C E : Prop} {Q : α → State → Prop}
    (h : (f (symbolFind hash (getNamedGlobal s.module) s.scopes name)).Settles good s C E Q) :
    (findSymbol hash name >>= f).Settles good s C E Q := by
  have hfind : (findSymbol hash name).Settles good s (good (.find name _) ∧ True) True fun val t =>
      val = symbolFind hash (getNamedGlobal s.module) s.scopes name ∧ t = s :=
    Settles.read_bind (Settles.observe_bind (Settles.pure ⟨rfl, rfl⟩))
  refine Meets.after (hfind.iff (by simp [hgood]) Iff.rfl) ?_
  rintro _ _ ⟨rfl, rfl⟩
  exact h

theorem nonNull_find (name : String) (val : Option Value) : Event.NonNull (.find name val) :=
  trivial

theorem LoadsNames.load (name : String) : LoadsNames hash (do
    let val ← findSymbol hash name
    return Ref.value (← buildLoad val)) s [name] := by
  have hload := (buildLoad_settles s (symbolFind hash (getNamedGlobal s.module) s.scopes
    name)).result (g := Ref.value) (R := fun _ t => SamePlace s t) fun _ _ ht => ht
  exact findSymbol_bind nonNull_find (hload.iff (by simp [Loadable, State.Resolves])
    (by simp [State.Resolves]))

theorem LoadsNames.target (val : Option Value) : LoadsNames hash (setTarget val) s [] := by
  have htarget : (setTarget val).Settles Event.NonNull s (True ∧ True) True
      fun _ t => SamePlace s t := Settles.observe_bind (Settles.pure (SamePlace.refl s))
  exact htarget.iff (by simp [Loadable]) (by simp)

theorem LoadsNames.lhsExpression (lhs : LhsExpression) :
    LoadsNames hash (lhsExpression hash .c lhs) s (if lhs.star then [lhs.id] else []) := by
  obtain ⟨star, id⟩ := lhs
  cases star with
  | false =>
    have htarget (val : Option Value) : LoadsNames hash (setTarget val) s [] := .target val
    exact findSymbol_bind nonNull_find (htarget _)
  | true => exact LoadsNames.load id

/-- An expression loads its names from left to right. -/
theorem LoadsNames.expression (e : Expr) : LoadsNames hash (expression hash .c e) s e.loads := by
  induction e generalizing s with
  | assign lhs e ih =>
    exact (LoadsNames.lhsExpression lhs).bind fun r _ _ => ih.result fun _ => r
  | conditional c t e ihc iht ihe =>
    rw [Expr.loads, List.append_assoc]
    exact ihc.bind fun r _ _ => iht.bind fun _ _ _ => ihe.result fun _ => r
  | binary op a b iha ihb => exact iha.bind fun r _ _ => ihb.result fun _ => r
  | cast type star e ih | paren e ih => exact ih
  | unary op e ih => exact ih.result _
  | id name => exact LoadsNames.load name
  | constantInteger text | constantFloat text => exact LoadsNames.none _

theorem LoadsNames.exprOpt (e : Option Expr) :
    LoadsNames hash (exprOpt hash .c e) s (exprOptLoads e) := by
  cases e with
  | none => exact LoadsNames.none _
  | some e => exact (LoadsNames.expression e).result _

/-! ## Statements -/

variable {G : String → Option Value} {H : List (String × Bool)} {names : List String} {k : Nat}

variable (hash) in
/-- In the scope of a function, with the names of the objects of the module. -/
structure InBlock (G : String → Option Value) (H : List (String × Bool)) (names : List String)
    (k : Nat) (s : State) : Prop extends InScope hash G names k s where
  headers : s.headers = H

variable (hash) in
/-- The calls of an action in a function have no null in them exactly when `C` holds,
and then it goes on with these names inserted. -/
abbrev CallsMeet {α : Type} (G : String → Option Value) (H : List (String × Bool)) (m : Action α)
    (s : State) (C : Prop) (names : List String) : Prop :=
  m.Meets Event.NonNull s C fun _ t => InBlock hash G H names names.length t

theorem InBlock.same {t : State} (h : InBlock hash G H names k s) (hst : SamePlace s t) :
    InBlock hash G H names k t :=
  ⟨h.toInScope.same hst.toSameNames, hst.headers.trans h.headers⟩

theorem InScope.builder (h : InScope hash G names k s) : s.builder.isSome := by
  obtain ⟨l, hl, -⟩ := Option.map_eq_some_iff.mp h.allocas
  obtain ⟨b, hb, -⟩ := Option.bind_eq_some_iff.mp hl
  simp [hb]

theorem InScope.resolves_iff (h : InScope hash G names k s) (id : String) :
    s.Resolves hash id ↔ id ∈ names ∨ (G id).isSome := by
  have hfound := @Use.found_eq hash G ⟨id, names, []⟩
  simp only [Use.found] at hfound
  rw [State.Resolves, h.scopes, h.globals, hfound]
  have hnone : survivor false (history hash id (numbered 0 names)) = none ↔ id ∉ names := by
    rw [survivor_eq_none_iff, latest_history, latestIn_numbered_eq_none_iff]
  rw [Option.isSome_or, Bool.or_eq_true, Option.isSome_iff_ne_none, Ne, hnone, not_not]

theorem LoadsNames.meets {α : Type} {m : Action α} {ids : List String}
    (h : LoadsNames hash m s ids) (hs : InBlock hash G H names k s) :
    m.Meets Event.NonNull s (Known (fun id => (G id).isSome) names ids)
      fun _ t => InBlock hash G H names k t := by
  have hknown : (∀ id ∈ ids, s.Resolves hash id) ↔ Known (fun id => (G id).isSome) names ids := by
    simp only [hs.resolves_iff, Known]
  refine (h.iff ((loadable_iff_of_builder _ hs.builder ids).trans hknown) ?_).mono
    fun _ _ ht => hs.same ht
  simpa [hs.builder] using hknown

theorem InBlock.build_meets (h : InBlock hash G H names k s) (kind : Inst → Bool) (i : Inst) :
    (build kind i).Meets Event.NonNull s True fun _ t => s.append i = some t :=
  (build_settles s kind i).iff Iff.rfl (by simp [h.builder])

theorem InBlock.buildAlloca_meets (h : InBlock hash G H names k s) (t : Ty) (name : String) :
    (MiniC.buildAlloca t (some name)).Meets Event.NonNull s True fun a u =>
      a = .alloca k ∧ InBlock hash G H names (k + 1) u := by
  have hbuild : (MiniC.buildAlloca t (some name)).Meets Event.NonNull s True fun _ u =>
      u.headers = s.headers :=
    Settles.result (h.build_meets Inst.isAlloca (.alloca t name)) fun _ _ hu =>
      (State.append_place hu).2
  exact Settles.leaving hbuild (h.toInScope.buildAlloca t (some name)).leaves
    fun _ _ hu ⟨ha, hs⟩ => ⟨ha, hs, hu.trans h.headers⟩

theorem InBlock.insertSymbol_meets (h : InBlock hash G H names (names.length + 1) s)
    (name : String) :
    CallsMeet hash G H (MiniC.insertSymbol hash (some name) (.alloca names.length)) s True
      (names ++ [name]) := by
  have hinsert : (MiniC.insertSymbol hash (some name) (.alloca names.length)).Meets Event.NonNull
      s True fun _ t => t.headers = s.headers := by
    refine Settles.read_bind ?_
    rw [if_neg (by simp [h.scopes, isGlobalScope])]
    have hchange : (change fun s => some { s with
        scopes := symbolInsert hash s.scopes name (.alloca names.length) } : Action Unit).Meets
          Event.NonNull s True fun _ t => t.headers = s.headers := by
      refine (Settles.change ?_).iff Iff.rfl (by simp)
      rintro _ ⟨⟩
      rfl
    exact (Settles.observe_bind hchange).iff (by simp [Event.NonNull]) Iff.rfl
  exact Settles.leaving hinsert (h.toInScope.insertSymbol name).leaves fun _ _ ht hs =>
    ⟨hs, ht.trans h.headers⟩

theorem InBlock.declaration_meets (h : InBlock hash G H names names.length s) (d : Declaration) :
    CallsMeet hash G H (MiniC.declaration hash .c d) s
      (Known (fun id => (G id).isSome) names (exprOptLoads d.initializer)) (names ++ [d.id]) := by
  refine Meets.before ((LoadsNames.exprOpt d.initializer).meets h) fun _ t ht =>
    Settles.read_bind ?_
  rw [if_neg (by simp [ht.scopes, isGlobalScope])]
  apply Meets.after (ht.buildAlloca_meets _ _)
  rintro _ u ⟨rfl, hu⟩
  exact hu.insertSymbol_meets d.id

theorem InBlock.declarationList_meets (h : InBlock hash G H names names.length s)
    (ds : List Declaration) :
    CallsMeet hash G H (MiniC.declarationList hash .c ds) s
      (declarationsKnown (fun id => (G id).isSome) names ds)
      (names ++ ds.map Declaration.id) := by
  induction ds generalizing names s with
  | nil => exact Settles.pure (by simpa using h)
  | cons d ds ih =>
    refine Meets.bind (h.declaration_meets d) fun _ t ht => ?_
    simpa [CallsMeet] using ih ht

theorem InBlock.buildRet_meets (h : InBlock hash G H names k s) (val : Option Value) :
    (MiniC.buildRet val).Meets Event.NonNull s True fun _ t => SamePlace s t :=
  Settles.result (h.build_meets _ (.ret val)) fun _ _ ht => State.append_samePlace ht rfl

/-- An action that loads names and inserts none. -/
theorem InBlock.loads {α : Type} {m : Action α} {ids : List String}
    (h : InBlock hash G H names names.length s) (hm : LoadsNames hash m s ids) :
    CallsMeet hash G H m s (Known (fun id => (G id).isSome) names ids) (names ++ []) := by
  simpa [CallsMeet] using hm.meets h

/-- A statement has no null in its calls exactly when it knows its names. -/
theorem InBlock.statement_meets (h : InBlock hash G H names names.length s) (st : Stmt) :
    CallsMeet hash G H (MiniC.statement hash .c st) s
      (st.NamesKnown (fun id => (G id).isSome) names) (names ++ st.declared) := by
  induction st generalizing names s with
  | none | breakStmt | continueStmt => exact Settles.pure (by simpa [Stmt.declared] using h)
  | list l r ihl ihr =>
    refine Meets.bind (ihl h) fun _ t ht => ?_
    simpa [CallsMeet, Stmt.declared] using ihr ht
  | exprStmt e => exact h.loads (LoadsNames.exprOpt e)
  | compoundStmt ds body ih =>
    refine Meets.bind (h.declarationList_meets ds) fun _ t ht => ?_
    simpa [CallsMeet, Stmt.declared] using ih ht
  | ifStmt c t e iht ihe =>
    refine Meets.bind ((LoadsNames.expression c).meets h) fun _ s₁ h₁ => ?_
    refine Meets.bind (iht h₁) fun _ s₂ h₂ => ?_
    simpa [CallsMeet, Stmt.declared] using ihe h₂
  | switchStmt e r ih | whileStmt e r ih =>
    exact Meets.bind ((LoadsNames.expression e).meets h) fun _ t ht => ih ht
  | forStmt init test next r ih =>
    refine Meets.bind ((LoadsNames.exprOpt init).meets h) fun _ s₁ h₁ => ?_
    refine Meets.bind ((LoadsNames.exprOpt test).meets h₁) fun _ s₂ h₂ => ?_
    exact Meets.bind ((LoadsNames.exprOpt next).meets h₂) fun _ s₃ h₃ => ih h₃
  | doStmt r e ih =>
    refine Meets.bind (ih h) fun _ t ht => ?_
    exact ((LoadsNames.expression e).result fun _ => ()).meets ht
  | returnStmt e =>
    cases e with
    | none =>
      have hret := h.buildRet_meets none
      refine (hret.iff ?_ ?_).mono fun _ t ht => ?_
      · simp [Stmt.NamesKnown, Known, exprOptLoads]
      · simp [Stmt.NamesKnown, Known, exprOptLoads]
      · simpa [Stmt.declared] using h.same ht
    | some e => exact h.loads ((LoadsNames.expression e).result fun _ => ())
  | caseStmt e => exact h.loads ((LoadsNames.expression e).result fun _ => ())

/-! ## Functions -/

/-- The parameters are bound without a null in a call; the first unnamed one crashes. -/
theorem InBlock.bindParamsDown_settles (h : InBlock hash G H names names.length s)
    (ps : List ParamNode) :
    (MiniC.bindParamsDown hash ps ps.length).Settles Event.NonNull s True
      (∀ p ∈ ps, p.name.isSome) fun _ t => InBlock hash G H (names ++ ps.filterMap ParamNode.name)
        (names ++ ps.filterMap ParamNode.name).length t := by
  induction ps generalizing names s with
  | nil => exact (Settles.pure (by simpa using h)).iff Iff.rfl (by simp)
  | cons p ps ih =>
    obtain ⟨name, type⟩ := p
    cases name with
    | none =>
      have hcrash : (MiniC.bindParamsDown hash (⟨none, type⟩ :: ps) (ps.length + 1)).run s =
          ([], none) := rfl
      exact ⟨by simp [hcrash], by simp [hcrash], fun es a t hrun => by simp [hcrash] at hrun⟩
    | some name =>
      rw [paramNames_cons]
      simp only [List.forall_mem_cons, Option.isSome_some, true_and]
      apply Meets.after (h.buildAlloca_meets type name)
      rintro _ s₁ ⟨rfl, h₁⟩
      have hstore : (buildStore (.param ps.length) (.alloca names.length)).Meets Event.NonNull s₁
          True fun _ t => SamePlace s₁ t :=
        Settles.result (h₁.build_meets _ _) fun _ _ ht => State.append_samePlace ht rfl
      refine Meets.after hstore fun _ s₂ h₂ => ?_
      exact Meets.after ((h₁.same h₂).insertSymbol_meets name) fun _ t ht => ih ht

variable (hash) in
theorem enterFunction_settles (hs : s.scopes = []) (f : FunctionDefinition) :
    (enterFunction hash .c (declaredTy f.type f.star) f.id (paramList f.params)).Settles
      Event.NonNull s True f.ParamsNamed fun _ t =>
        InBlock hash (getNamedGlobal s.module) (s.headers ++ [(f.id, false)]) (f.paramNames .c)
          (f.paramNames .c).length t := by
  refine Settles.change_bind rfl (Settles.change_bind rfl ?_)
  have hpush : symbolPushScope s.scopes = [none] := by simp [hs, symbolPushScope]
  have hstart := (@InScope.start hash { s with scopes := symbolPushScope s.scopes } hpush
    (declaredTy f.type f.star) f.id (fillDown ParamNode.type (paramList f.params) [])).leaves
      [] () _ rfl
  have hblock : InBlock hash (getNamedGlobal s.module) (s.headers ++ [(f.id, false)]) [] 0 _ :=
    ⟨hstart, by simp [State.headers, Global.header]⟩
  have hnames : (∀ p ∈ paramList f.params, p.name.isSome) ↔ f.ParamsNamed := by
    simp [paramList_eq, FunctionDefinition.ParamsNamed]
  have hbind := hblock.bindParamsDown_settles (paramList f.params)
  refine (hbind.iff Iff.rfl hnames).mono fun _ t ht => ?_
  rwa [List.nil_append, paramList_names] at ht

/-- A completed function leaves no scope open and a builder. -/
theorem InBlock.leaveFunction_meets (h : InBlock hash G H names k s) (type : TypeSpecifier)
    (star : Bool) :
    (MiniC.leaveFunction .c type star).Meets Event.NonNull s True fun _ t =>
      t.scopes = [] ∧ t.headers = H ∧ t.builder.isSome := by
  have hpop : ∀ t, SamePlace s t → popScope.Meets Event.NonNull t True fun _ u =>
      u.scopes = [] ∧ u.headers = H ∧ u.builder.isSome := by
    intro t ht
    have hscopes := (h.same ht).scopes
    refine (Settles.change fun u hu => ?_).iff Iff.rfl (by simp [hscopes, symbolPopScope])
    rw [hscopes] at hu
    cases hu
    exact ⟨rfl, (h.same ht).headers, (h.same ht).builder⟩
  have hreturn : (defaultReturn .c type star).Meets Event.NonNull s True fun _ t =>
      SamePlace s t := by
    cases star <;> cases type <;> exact h.buildRet_meets _
  apply Settles.read_bind
  dsimp only
  split
  · exact hpop s (SamePlace.refl s)
  · exact Meets.after hreturn fun _ t ht => hpop t ht

variable (hash) in
theorem functionDefinition_settles (hs : s.scopes = []) (f : FunctionDefinition) :
    (functionDefinition hash .c f).Settles Event.NonNull s
      (f.ParamsNamed → f.NamesKnown fun name => (getNamedGlobal s.module name).isSome)
      (f.ParamsNamed ∧ f.NamesKnown fun name => (getNamedGlobal s.module name).isSome) fun _ t =>
        t.scopes = [] ∧ t.headers = s.headers ++ [(f.id, false)] ∧ t.builder.isSome := by
  have hbody : (functionDefinition hash .c f).Settles Event.NonNull s (True ∧ (f.ParamsNamed →
      f.NamesKnown fun name => (getNamedGlobal s.module name).isSome)) _ _ :=
    (enterFunction_settles hash hs f).bind fun _ t ht =>
      Meets.before (ht.statement_meets (.compoundStmt f.declarations f.body)) fun _ u hu =>
        hu.leaveFunction_meets f.type f.star
  exact hbody.iff (by simp) Iff.rfl

/-! ## Translation units -/

def ExternalDeclaration.header (d : ExternalDeclaration) : String × Bool := (d.id, d.isVariable)

theorem getNamedGlobal_isSome (s : State) (name : String) :
    (getNamedGlobal s.module name).isSome = (s.headers.find? (·.1 = name)).any Prod.snd := by
  have hname : ∀ g : Global, g.header.1 = g.name := by
    intro g
    cases g <;> rfl
  have haddress : ∀ (n : Nat) (g : Global), (g.address n).isSome = g.header.2 := by
    intro n g
    cases g <;> rfl
  have hcomp : ((fun p => decide (p.1 = name)) ∘ Global.header) =
      fun g : Global => decide (g.name = name) := by
    funext g
    simp [hname]
  rw [getNamedGlobal, State.headers, List.find?_map, Option.any_map, hcomp]
  cases hn : s.module.findIdx? (·.name = name) with
  | none =>
    rw [List.find?_eq_none.mpr (by simpa using List.findIdx?_eq_none_iff.mp hn)]
    rfl
  | some n =>
    obtain ⟨hlt, hfound, hfirst⟩ := List.findIdx?_eq_some_iff_getElem.mp hn
    have hfind : s.module.find? (·.name = name) = some s.module[n] :=
      List.find?_eq_some_iff_getElem.mpr ⟨hfound, n, hlt, rfl, by simpa using hfirst⟩
    simp [hfind, hlt, haddress]

theorem declaresVariable_eq (tu : TranslationUnit) (name : String) :
    tu.declaresVariable name =
      ((tu.map ExternalDeclaration.header).find? (·.1 = name)).any Prod.snd := by
  rw [TranslationUnit.declaresVariable, List.find?_map, Option.any_map]
  rfl

variable {before : TranslationUnit}

/-- What holds between external declarations, after those `before`. -/
structure Between (before : TranslationUnit) (s : State) : Prop where
  scopes : s.scopes = []
  headers : s.headers = before.map ExternalDeclaration.header
  builder : s.builder.isSome ↔ before.hasFunction
  numErrors : s.numErrors = 0

theorem Between.known (h : Between before s) :
    (fun name => ((getNamedGlobal s.module name).isSome : Prop)) =
      fun name => (before.declaresVariable name : Prop) := by
  funext name
  rw [getNamedGlobal_isSome, h.headers, ← declaresVariable_eq]

theorem Between.function (h : Between before s) (f : FunctionDefinition) :
    (externalDeclaration hash .c (.function f)).Settles Event.NonNull s
      (f.ParamsNamed → f.NamesKnown fun name => before.declaresVariable name)
      (f.ParamsNamed ∧ f.NamesKnown fun name => before.declaresVariable name) fun _ t =>
        Between (before ++ [.function f]) t := by
  have hf := functionDefinition_settles hash h.scopes f
  rw [h.known] at hf
  have hbetween := hf.leaving (P := fun _ t => Between (before ++ [.function f]) t)
    ((RunsRules.functionDefinition f).keepsErrors s) fun _ t ⟨hs, hh, hb⟩ hn => by
      refine ⟨hs, ?_, ?_, hn.trans h.numErrors⟩
      · rw [hh, h.headers, List.map_append]
        rfl
      · simp [hb, TranslationUnit.hasFunction, ExternalDeclaration.isVariable]
  have hcheck : ∀ t, Between (before ++ [.function f]) t → checkErrors.Meets Event.NonNull t True
      fun _ u => Between (before ++ [.function f]) u := by
    intro t ht
    refine Settles.read_bind ?_
    rw [if_neg (by simp [ht.numErrors])]
    exact Settles.pure ht
  exact (hbetween.bind fun _ => hcheck).iff (by simp) (by simp)

theorem Between.declaration (h : Between before s) (d : Declaration) :
    (externalDeclaration hash .c (.declaration d)).Settles Event.NonNull s
      (Loadable (fun name => before.declaresVariable name) before.hasFunction
        (exprOptLoads d.initializer))
      (∀ id ∈ exprOptLoads d.initializer, before.hasFunction ∧ before.declaresVariable id)
      fun _ t => Between (before ++ [.declaration d]) t := by
  have hresolves : s.Resolves hash = fun name => (before.declaresVariable name : Prop) := by
    rw [← h.known]
    funext name
    rw [State.Resolves, h.scopes]
    rfl
  have hload : LoadsNames hash (exprOpt hash .c d.initializer) s (exprOptLoads d.initializer) :=
    LoadsNames.exprOpt d.initializer
  rw [LoadsNames, hresolves, h.builder] at hload
  have hdeclare : ∀ t, SamePlace s t → (declare hash (declaredTy d.type d.star) d.id).Meets
      Event.NonNull t True fun _ u => u.scopes = [] ∧ u.builder = s.builder ∧
        u.headers = s.headers ++ [(d.id, true)] := by
    intro t ht
    apply Settles.read_bind
    rw [if_pos (by simp [ht.scopes, h.scopes, isGlobalScope])]
    refine (Settles.change ?_).iff Iff.rfl (by simp)
    rintro _ ⟨⟩
    refine ⟨ht.scopes.trans h.scopes, ht.builder, ?_⟩
    rw [← ht.headers]
    exact List.map_append
  have hdeclaration := hload.bind fun _ => hdeclare
  refine Settles.leaving (hdeclaration.iff (by simp) (by simp))
    ((RunsRules.declaration d).keepsErrors s) ?_
  intro _ t ht hn
  obtain ⟨hs, hb, hh⟩ := ht
  refine ⟨hs, ?_, ?_, hn.trans h.numErrors⟩
  · rw [hh, h.headers, List.map_append]
    rfl
  · rw [hb, h.builder]
    simp [TranslationUnit.hasFunction, ExternalDeclaration.isVariable]

theorem Between.events (h : Between before s) (ds : TranslationUnit) :
    (∀ e ∈ ((translationUnit hash .c ds).run s).1, e.NonNull) ↔ before.NamesKnown ds := by
  induction ds generalizing before s with
  | nil => simp [translationUnit, TranslationUnit.NamesKnown, pure]
  | cons d ds ih =>
    cases d with
    | function f =>
      refine (Settles.events_bind (h.function f) fun _ t ht => ih ht).trans ?_
      rw [TranslationUnit.NamesKnown]
      tauto
    | declaration d =>
      refine ((h.declaration d).events_bind fun _ t ht => ih ht).trans ?_
      rw [TranslationUnit.NamesKnown]
      cases exprOptLoads d.initializer with
      | nil => simp [Loadable]
      | cons id ids =>
        by_cases hb : before.hasFunction = true
        · rw [loadable_iff_of_builder _ hb]
          simp only [hb, true_and, true_implies, List.forall_mem_cons]
          tauto
        · rw [List.forall_mem_cons]
          simp [Loadable, hb]

/-- The C front end makes no call with a null name or a null address exactly when every
name that it comes to load is known. -/
theorem translationUnit_nonNull_iff (hash : String → Nat) (tu : TranslationUnit) :
    (∀ e ∈ ((translationUnit hash .c tu).run .initial).1, e.NonNull) ↔
      TranslationUnit.NamesKnown [] tu := by
  have hstart : Between [] .initial := ⟨rfl, rfl, by rfl, rfl⟩
  exact hstart.events tu

/-- `int f() { return x; }`. -/
def undeclared : TranslationUnit :=
  [.function ⟨.int, false, "f", [], [], .list .none (.returnStmt (some (.id "x")))⟩]

theorem undeclared_derives (v : FrontEnd) :
    undeclared.Derives v [.intKeyword, .id "f", .lparen, .rparen, .lbrace, .returnKeyword, .id "x",
      .semicolon, .rbrace] := by
  have hx : Expr.Derives v .expression (.id "x") [.id "x"] :=
    Expr.Derives.expression_of_cast (.cast (.unary (.postfixed .id)))
  have hbody : Stmt.Derives v .listOpt (.list .none (.returnStmt (some (.id "x"))))
      [.returnKeyword, .id "x", .semicolon] := .listOpt (.first (.returnStmt (.some hx)))
  have hf : FunctionDefinition.Derives v
      ⟨.int, false, "f", [], [], .list .none (.returnStmt (some (.id "x")))⟩ _ :=
    .intro (.int v) .none (.compoundStmt .nil hbody)
  exact .single (.function hf)

/-- It is accepted by the grammar, and the C front end loads from `NULL`. -/
theorem undeclared_null :
    (∃ ts, undeclared.Derives .c ts) ∧
      ¬ ∀ e ∈ ((translationUnit Uthash.hashJen .c undeclared).run .initial).1, e.NonNull := by
  have hload : .load none ∈ ((translationUnit Uthash.hashJen .c undeclared).run .initial).1 := by
    decide
  exact ⟨⟨_, undeclared_derives .c⟩, fun h => by simpa [Event.NonNull] using h _ hload⟩

end CourseCompilers.MiniC
