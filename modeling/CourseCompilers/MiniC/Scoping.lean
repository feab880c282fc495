import CourseCompilers.MiniC.FrontEnd

/-! Which declaration a MiniC identifier refers to. By the rules of C every
compound statement is a scope; the front ends open one scope for a whole
function. -/

namespace CourseCompilers.MiniC
open Lib Prog

/-! ## What the actions leave unchanged -/

/-- The number of allocas in the block instructions are appended to. -/
def State.allocas (s : State) : Option Nat := s.entry.map (·.countP Inst.isAlloca)

/-- From `s` to `t` no name was bound and no alloca built. -/
structure SameNames (s t : State) : Prop where
  scopes : t.scopes = s.scopes
  globals : getNamedGlobal t.module = getNamedGlobal s.module
  allocas : t.allocas = s.allocas

theorem SameNames.refl (s : State) : SameNames s s := ⟨rfl, rfl, rfl⟩

theorem SameNames.trans {s t u : State} (h : SameNames s t) (h' : SameNames t u) :
    SameNames s u :=
  ⟨h'.scopes.trans h.scopes, h'.globals.trans h.globals, h'.allocas.trans h.allocas⟩

theorem findIdx?_modify {α : Type} (p : α → Bool) (f : α → α) (hp : ∀ a, p (f a) = p a)
    (l : List α) (k : Nat) : (l.modify k f).findIdx? p = l.findIdx? p := by
  induction l generalizing k with
  | nil => simp
  | cons a l ih => cases k <;> simp [List.modify_cons, List.findIdx?_cons, hp, ih]

theorem getNamedGlobal_modify (module : List Global) (k : Nat) (i : Inst) :
    getNamedGlobal (module.modify k (Global.append i)) = getNamedGlobal module := by
  funext name
  have hname : ∀ g : Global, decide ((g.append i).name = name) = decide (g.name = name) := by
    intro g
    cases g <;> rfl
  have haddress : ∀ n (g : Global), (g.append i).address n = g.address n := by
    intro n g
    cases g <;> rfl
  unfold getNamedGlobal
  rw [findIdx?_modify _ _ hname]
  congr 1
  funext n
  rw [List.getElem?_modify]
  cases module[n]? with
  | none => rfl
  | some g => by_cases hkn : k = n <;> simp [hkn, haddress]

/-- A new function has no address as a variable, whether or not its name was free. -/
theorem getNamedGlobal_function (module : List Global) (f : Function) :
    getNamedGlobal (module ++ [.function f]) = getNamedGlobal module := by
  funext name
  unfold getNamedGlobal
  rw [List.findIdx?_append]
  cases h : module.findIdx? (·.name = name) with
  | none =>
    by_cases hf : f.name = name <;> simp [List.findIdx?_cons, Global.name, hf, Global.address]
  | some n =>
    have hn : n < module.length := (List.findIdx?_eq_some_iff_getElem.mp h).1
    simp [List.getElem?_append_left hn]

theorem State.append_eq {s t : State} {i : Inst} (h : s.append i = some t) :
    t.scopes = s.scopes ∧ getNamedGlobal t.module = getNamedGlobal s.module ∧
      t.entry = s.entry.map (· ++ [i]) := by
  obtain ⟨k, hk, rfl⟩ := Option.map_eq_some_iff.mp h
  refine ⟨rfl, getNamedGlobal_modify _ k i, ?_⟩
  simp only [State.entry, hk, Option.bind_some, List.getElem?_modify, ↓reduceIte]
  cases s.module[k]? with
  | none => rfl
  | some g => cases g <;> rfl

/-! ## The addresses that the actions use -/

/-- The address that is loaded from or assigned to before the next name is looked up. -/
def addressUsed : List Event → Option Value
  | [] | .find _ _ :: _ => none
  | .insert _ _ :: es => addressUsed es
  | .load ptr :: _ => ptr
  | .target val :: _ => val

/-- The names that are looked up, each with the address that is used for it. -/
def usedAddresses : List Event → List (String × Option Value)
  | [] => []
  | .find name _ :: es => (name, addressUsed es) :: usedAddresses es
  | .insert _ _ :: es | .load _ :: es | .target _ :: es => usedAddresses es

theorem addressUsed_append {es es' : List Event} (h : addressUsed es' = none) :
    addressUsed (es ++ es') = addressUsed es := by
  induction es with
  | nil => exact h
  | cons e es ih =>
    cases e with
    | find | load | target => rfl
    | insert => exact ih

theorem usedAddresses_append {es es' : List Event} (h : addressUsed es' = none) :
    usedAddresses (es ++ es') = usedAddresses es ++ usedAddresses es' := by
  induction es with
  | nil => rfl
  | cons e es ih =>
    cases e with
    | find name val =>
      rw [List.cons_append, usedAddresses, usedAddresses, addressUsed_append h, ih]
      rfl
    | insert | load | target => exact ih

/-- Events that begin with no address leave the names before them as they were. -/
def addresses : View Event (String × Option Value) where
  see := usedAddresses
  Apart es := addressUsed es = none
  see_nil := rfl
  apart_nil := rfl
  see_append _ _ := usedAddresses_append
  apart_append _ _ h h' := (addressUsed_append h').trans h

variable (hash : String → Nat)

/-- The names with what `symbol_find` answers to them. -/
def State.finds (s : State) (ids : List String) : List (String × Option Value) :=
  ids.map fun id => (id, symbolFind hash (getNamedGlobal s.module) s.scopes id)

/-- The identifiers of an expression in the order in which they are looked up. -/
def Expr.ids : Expr → List String
  | .assign lhs e => lhs.id :: e.ids
  | .conditional c t e => c.ids ++ t.ids ++ e.ids
  | .binary _ a b => a.ids ++ b.ids
  | .cast _ _ e | .unary _ e | .paren e => e.ids
  | .id name => [name]
  | .constantInteger _ | .constantFloat _ => []

def exprOptIds : Option Expr → List String
  | none => []
  | some e => e.ids

/-- Those of the identifiers whose addresses are loaded. -/
def Expr.loads : Expr → List String
  | .assign lhs e => (if lhs.star then [lhs.id] else []) ++ e.loads
  | .conditional c t e => c.loads ++ t.loads ++ e.loads
  | .binary _ a b => a.loads ++ b.loads
  | .cast _ _ e | .unary _ e | .paren e => e.loads
  | .id name => [name]
  | .constantInteger _ | .constantFloat _ => []

def exprOptLoads : Option Expr → List String
  | none => []
  | some e => e.loads

theorem SameNames.finds {s t : State} (h : SameNames s t) (ids : List String) :
    t.finds hash ids = s.finds hash ids := by
  simp only [State.finds, h.scopes, h.globals]

theorem State.finds_append (s : State) (ids ids' : List String) :
    s.finds hash (ids ++ ids') = s.finds hash ids ++ s.finds hash ids' := List.map_append

theorem State.append_sameNames {s t : State} {i : Inst} (h : s.append i = some t)
    (hi : i.isAlloca = false) : SameNames s t := by
  obtain ⟨hs, hg, he⟩ := State.append_eq h
  refine ⟨hs, hg, ?_⟩
  rw [State.allocas, State.allocas, he, Option.map_map]
  congr 1
  funext l
  simp [hi]

theorem build_follows (s : State) (kind : Inst → Bool) {i : Inst} (hi : i.isAlloca = false) :
    (build kind i).Follows addresses s [] fun _ t => SameNames s t :=
  Follows.read_bind (Follows.change_bind fun _ ht => Follows.pure (State.append_sameNames ht hi))

theorem buildAlloca_follows {s : State} {k : Nat} (hk : s.allocas = some k) (t : Ty)
    (name : Option String) : (buildAlloca t name).Follows addresses s [] fun a u =>
      a = .alloca k ∧ u.scopes = s.scopes ∧ getNamedGlobal u.module = getNamedGlobal s.module ∧
        u.allocas = some (k + 1) := by
  cases name with
  | none => exact Follows.crash
  | some name =>
    obtain ⟨l, hl, rfl⟩ := Option.map_eq_some_iff.mp hk
    have hbuild : (build Inst.isAlloca (.alloca t name)).Follows addresses s [] fun n u =>
        n = l.countP Inst.isAlloca ∧ u.scopes = s.scopes ∧
          getNamedGlobal u.module = getNamedGlobal s.module ∧
            u.allocas = some (l.countP Inst.isAlloca + 1) := by
      refine Follows.read_bind (Follows.change_bind fun u hu => Follows.pure ?_)
      obtain ⟨hs, hg, he⟩ := State.append_eq hu
      exact ⟨by rw [hl]; rfl, hs, hg, by simp [State.allocas, he, hl, Inst.isAlloca]⟩
    exact hbuild.silent fun n u ⟨hn, hu⟩ => Follows.pure ⟨congrArg Value.alloca hn, hu⟩

theorem buildRet_follows (s : State) (val : Option Value) :
    (buildRet val).Follows addresses s [] fun _ t => SameNames s t :=
  (build_follows s _ rfl).silent fun _ _ h => Follows.pure h

/-- The action looks nothing up and uses the address. -/
structure Uses (m : Action Ref) (s : State) (val : Option Value) : Prop where
  found : usedAddresses (m.run s).1 = []
  address : addressUsed (m.run s).1 = val
  leaves : m.Leaves s fun _ t => SameNames s t

theorem buildLoad_events (s : State) (ptr : Option Value) :
    ((buildLoad ptr).run s).1 = [.load ptr] := by
  cases ptr with
  | none => rfl
  | some ptr =>
    simp only [buildLoad, build, bind, pure, Prog.read, change, observe, Option.elim_some,
      Option.bind_some, List.nil_append]
    cases s.append (.load ptr) <;> rfl

theorem buildLoad_leaves (s : State) (ptr : Option Value) :
    (buildLoad ptr).Leaves s fun _ t => SameNames s t := by
  refine Leaves.bind (Q := fun _ t => t = s) (Leaves.observe rfl) ?_
  rintro _ _ rfl
  cases ptr with
  | none => exact Leaves.crash
  | some ptr => exact (build_follows _ _ rfl).leaves.bind fun _ _ h => Leaves.pure h

theorem Uses.load (s : State) (ptr : Option Value) :
    Uses (do return Ref.value (← buildLoad ptr)) s ptr := by
  have hevents : ((do return Ref.value (← buildLoad ptr) : Action Ref).run s).1 = [.load ptr] := by
    rw [run_result_events, buildLoad_events]
  exact ⟨by rw [hevents]; rfl, by rw [hevents]; rfl,
    (buildLoad_leaves s ptr).bind fun _ _ h => Leaves.pure h⟩

theorem Uses.target (s : State) (val : Option Value) : Uses (setTarget val) s val where
  found := rfl
  address := rfl
  leaves := Leaves.bind (Q := fun _ t => t = s) (Leaves.observe rfl) fun _ _ ht =>
    Leaves.pure (ht ▸ SameNames.refl s)

theorem Uses.junk (s : State) : Uses (pure .junk) s none :=
  ⟨rfl, rfl, Leaves.pure (SameNames.refl s)⟩

/-- What is found is used. -/
theorem findSymbol_follows {s : State} {name : String} {m : Option Value → Action Ref}
    (hm : ∀ val, Uses (m val) s val) :
    (findSymbol hash name >>= m).Follows addresses s (s.finds hash [name])
      fun _ t => SameNames s t := by
  obtain ⟨hfound, haddress, hleaves⟩ :=
    hm (symbolFind hash (getNamedGlobal s.module) s.scopes name)
  have hsee : usedAddresses ((findSymbol hash name >>= m).run s).1 = s.finds hash [name] := by
    have hevents : ((findSymbol hash name >>= m).run s).1 =
        .find name (symbolFind hash (getNamedGlobal s.module) s.scopes name) ::
          ((m (symbolFind hash (getNamedGlobal s.module) s.scopes name)).run s).1 := rfl
    rw [hevents, usedAddresses, hfound, haddress]
    rfl
  refine ⟨rfl, hsee ▸ List.prefix_rfl, fun _ => hsee, ?_⟩
  refine Leaves.bind (Q := fun val t =>
    val = symbolFind hash (getNamedGlobal s.module) s.scopes name ∧ t = s) ?_ ?_
  · exact Leaves.read_bind (Leaves.bind (Q := fun _ t => t = s) (Leaves.observe rfl)
      fun _ _ ht => Leaves.pure ⟨rfl, ht⟩)
  · rintro _ _ ⟨rfl, rfl⟩
    exact hleaves

theorem lhsExpression_follows (v : FrontEnd) (s : State) (lhs : LhsExpression) :
    (lhsExpression hash v lhs).Follows addresses s (s.finds hash [lhs.id])
      fun _ t => SameNames s t := by
  obtain ⟨star, id⟩ := lhs
  refine findSymbol_follows hash fun val => ?_
  cases v with
  | c =>
    cases star with
    | false => exact Uses.target s val
    | true => exact Uses.load s val
  | cpp =>
    cases val with
    | none => exact Uses.junk s
    | some val =>
      cases star with
      | false => exact Uses.target s (some val)
      | true => exact Uses.load s (some val)

theorem primaryId_follows (v : FrontEnd) (s : State) (name : String) :
    (primaryId hash v name).Follows addresses s (s.finds hash [name])
      fun _ t => SameNames s t := by
  refine findSymbol_follows hash fun val => ?_
  cases v with
  | c => exact Uses.load s val
  | cpp =>
    cases val with
    | none => exact Uses.junk s
    | some val => exact Uses.load s (some val)

/-- An expression uses the addresses of its identifiers and binds nothing. -/
theorem expression_follows (v : FrontEnd) (e : Expr) (s : State) :
    (expression hash v e).Follows addresses s (s.finds hash e.ids) fun _ t => SameNames s t := by
  induction e generalizing s with
  | assign lhs e ih =>
    rw [Expr.ids, ← List.singleton_append, State.finds_append]
    refine (lhsExpression_follows hash v s lhs).bind fun r t ht => ?_
    rw [← ht.finds]
    exact (ih t).quiet fun _ u hu => Follows.pure (ht.trans hu)
  | conditional c t e ihc iht ihe =>
    rw [Expr.ids, List.append_assoc, State.finds_append, State.finds_append]
    refine (ihc s).bind fun r s₁ h₁ => ?_
    rw [← h₁.finds]
    refine (iht s₁).bind fun _ s₂ h₂ => ?_
    rw [← h₁.finds, ← h₂.finds]
    exact (ihe s₂).quiet fun _ s₃ h₃ => Follows.pure ((h₁.trans h₂).trans h₃)
  | binary op a b iha ihb =>
    rw [Expr.ids, State.finds_append]
    refine (iha s).bind fun r t ht => ?_
    rw [← ht.finds]
    exact (ihb t).quiet fun _ u hu => Follows.pure (ht.trans hu)
  | cast type star e ih => exact ih s
  | unary op e ih => exact (ih s).quiet fun _ _ h => Follows.pure h
  | id name => exact primaryId_follows hash v s name
  | constantInteger text | constantFloat text => exact Follows.pure (SameNames.refl s)
  | paren e ih => exact ih s

theorem exprOpt_follows (v : FrontEnd) (e : Option Expr) (s : State) :
    (exprOpt hash v e).Follows addresses s (s.finds hash (exprOptIds e))
      fun _ t => SameNames s t := by
  cases e with
  | none => exact Follows.pure (SameNames.refl s)
  | some e => exact (expression_follows hash v e s).quiet fun _ _ h => Follows.pure h

/-! ## The uses in a function -/

/-- Names for the allocas from number `k` on, the last name first. -/
def numbered (k : Nat) : List String → List (String × Value)
  | [] => []
  | name :: names => numbered (k + 1) names ++ [(name, .alloca k)]

/-- The declarations of a block: its names in order and the number of the first alloca. -/
structure Block where
  first : Nat
  names : List String
  deriving DecidableEq, Repr

/-- The names with their allocas, the last name first. -/
def Block.bindings (b : Block) : List (String × Value) := numbered b.first b.names

/-- A use of an identifier: the names its function has declared before it, in order,
and the blocks around it, from the innermost one to the parameters. -/
structure Use where
  name : String
  inserted : List String
  blocks : List Block
  deriving DecidableEq, Repr

def usesOf (blocks : List Block) (inserted : List String) (ids : List String) : List Use :=
  ids.map fun id => ⟨id, inserted, blocks⟩

/-- The uses in the initializers of a block. -/
def declarationUses (blocks : List Block) : List String → List Declaration → List Use
  | _, [] => []
  | inserted, d :: ds =>
      usesOf blocks inserted (exprOptIds d.initializer) ++
        declarationUses blocks (inserted ++ [d.id]) ds

/-- The names declared in a statement, in order. -/
def Stmt.declared : Stmt → List String
  | .list l s => l.declared ++ s.declared
  | .compoundStmt ds body => ds.map Declaration.id ++ body.declared
  | .ifStmt _ t e => t.declared ++ e.declared
  | .switchStmt _ s | .whileStmt _ s | .forStmt _ _ _ s | .doStmt s _ => s.declared
  | .none | .exprStmt _ | .returnStmt _ | .breakStmt | .continueStmt | .caseStmt _ => []

def Stmt.uses : Stmt → List Block → List String → List Use
  | .none, _, _ | .breakStmt, _, _ | .continueStmt, _, _ => []
  | .list l s, blocks, inserted =>
      l.uses blocks inserted ++ s.uses blocks (inserted ++ l.declared)
  | .exprStmt e, blocks, inserted | .returnStmt e, blocks, inserted =>
      usesOf blocks inserted (exprOptIds e)
  | .compoundStmt ds body, blocks, inserted =>
      let names := ds.map Declaration.id
      let blocks := ⟨inserted.length, names⟩ :: blocks
      declarationUses blocks inserted ds ++ body.uses blocks (inserted ++ names)
  | .ifStmt c t e, blocks, inserted =>
      usesOf blocks inserted c.ids ++ t.uses blocks inserted ++
        e.uses blocks (inserted ++ t.declared)
  | .switchStmt e s, blocks, inserted | .whileStmt e s, blocks, inserted =>
      usesOf blocks inserted e.ids ++ s.uses blocks inserted
  | .forStmt init test next s, blocks, inserted =>
      usesOf blocks inserted (exprOptIds init ++ exprOptIds test ++ exprOptIds next) ++
        s.uses blocks inserted
  | .doStmt s e, blocks, inserted =>
      s.uses blocks inserted ++ usesOf blocks (inserted ++ s.declared) e.ids
  | .caseStmt e, blocks, inserted => usesOf blocks inserted e.ids

/-- The named parameters in the order in which `BuildFunction` inserts them. -/
def FunctionDefinition.paramNames (v : FrontEnd) (f : FunctionDefinition) : List String :=
  match v with
  | .c => (f.params.filterMap Param.id).reverse
  | .cpp => f.params.filterMap Param.id

def FunctionDefinition.uses (v : FrontEnd) (f : FunctionDefinition) : List Use :=
  let names := f.paramNames v
  (Stmt.compoundStmt f.declarations f.body).uses [⟨0, names⟩] names

/-- What block scoping says a use refers to: the declaration of the innermost block
that declares the name, else the parameter, else the global variable. -/
def Use.lexical (namedGlobal : String → Option Value) (u : Use) : Option Value :=
  lexFind namedGlobal (u.blocks.map Block.bindings) u.name

/-- What `symbol_find` answers: the whole function is one scope. -/
def Use.found (namedGlobal : String → Option Value) (u : Use) : Option Value :=
  symbolFind hash namedGlobal [tableAfter hash (numbered 0 u.inserted)] u.name

/-! ## The front ends follow the uses -/

/-- The names inserted into the only live scope and the number of allocas. -/
structure InScope (G : String → Option Value) (names : List String) (k : Nat) (s : State) :
    Prop where
  scopes : s.scopes = [tableAfter hash (numbered 0 names)]
  globals : getNamedGlobal s.module = G
  allocas : s.allocas = some k

/-- The answers to a list of uses. -/
def answers (G : String → Option Value) (us : List Use) : List (String × Option Value) :=
  us.map fun u => (u.name, u.found hash G)

variable {hash} {G : String → Option Value} {names : List String} {k : Nat} {s : State}

theorem numbered_append (k : Nat) (names names' : List String) :
    numbered k (names ++ names') = numbered (k + names.length) names' ++ numbered k names := by
  induction names generalizing k with
  | nil => simp [numbered]
  | cons name names ih =>
    simp [numbered, ih, Nat.add_right_comm, Nat.add_assoc]

theorem answers_append (us us' : List Use) :
    answers hash G (us ++ us') = answers hash G us ++ answers hash G us' := List.map_append

theorem usesOf_append (blocks : List Block) (inserted ids ids' : List String) :
    usesOf blocks inserted (ids ++ ids') =
      usesOf blocks inserted ids ++ usesOf blocks inserted ids' := List.map_append

theorem numbered_length (k : Nat) (names : List String) :
    (numbered k names).length = names.length := by
  induction names generalizing k with
  | nil => rfl
  | cons name names ih => simp [numbered, ih]

theorem InScope.same {t : State} (h : InScope hash G names k s) (hst : SameNames s t) :
    InScope hash G names k t :=
  ⟨hst.scopes.trans h.scopes, hst.globals.trans h.globals, hst.allocas.trans h.allocas⟩

theorem InScope.finds (h : InScope hash G names k s) (blocks : List Block) (ids : List String) :
    s.finds hash ids = answers hash G (usesOf blocks names ids) := by
  simp only [State.finds, answers, usesOf, Use.found, h.scopes, h.globals, List.map_map]
  rfl

theorem InScope.expression (h : InScope hash G names k s) (v : FrontEnd) (blocks : List Block)
    (e : Expr) : (expression hash v e).Follows addresses s
      (answers hash G (usesOf blocks names e.ids)) fun _ t => InScope hash G names k t :=
  h.finds blocks e.ids ▸ (expression_follows hash v e s).mono fun _ _ ht => h.same ht

theorem InScope.exprOpt (h : InScope hash G names k s) (v : FrontEnd) (blocks : List Block)
    (e : Option Expr) : (exprOpt hash v e).Follows addresses s
      (answers hash G (usesOf blocks names (exprOptIds e))) fun _ t => InScope hash G names k t :=
  h.finds blocks _ ▸ (exprOpt_follows hash v e s).mono fun _ _ ht => h.same ht

theorem InScope.buildAlloca (h : InScope hash G names k s) (t : Ty) (name : Option String) :
    (buildAlloca t name).Follows addresses s [] fun a u =>
      a = .alloca k ∧ InScope hash G names (k + 1) u :=
  (buildAlloca_follows h.allocas t name).mono fun _ _ ⟨ha, hs, hg, hk⟩ =>
    ⟨ha, hs.trans h.scopes, hg.trans h.globals, hk⟩

theorem InScope.insertSymbol (h : InScope hash G names (names.length + 1) s) (name : String) :
    (insertSymbol hash (some name) (.alloca names.length)).Follows addresses s [] fun _ t =>
      InScope hash G (names ++ [name]) (names ++ [name]).length t := by
  apply Follows.read_bind
  rw [if_neg (by simp [h.scopes, isGlobalScope])]
  refine Follows.observe_bind (V := addresses) rfl (Follows.change fun t ht => ?_)
  cases ht
  refine ⟨?_, h.globals, by simpa [State.allocas, State.entry] using h.allocas⟩
  simp [h.scopes, symbolInsert, numbered_append, numbered, tableAfter]

/-- A declaration in a function: its initializer is read before its name is bound. -/
theorem InScope.declaration (h : InScope hash G names names.length s) (v : FrontEnd)
    (blocks : List Block) (d : Declaration) :
    (declaration hash v d).Follows addresses s
      (answers hash G (usesOf blocks names (exprOptIds d.initializer)))
      fun _ t => InScope hash G (names ++ [d.id]) (names ++ [d.id]).length t := by
  refine (h.exprOpt v blocks d.initializer).quiet fun _ t ht => Follows.read_bind ?_
  rw [if_neg (by simp [ht.scopes, isGlobalScope])]
  apply (ht.buildAlloca _ _).silent
  rintro _ u ⟨rfl, hu⟩
  exact hu.insertSymbol d.id

theorem returnExpression_follows (v : FrontEnd) (r : Ref) (s : State) :
    (returnExpression v r).Follows addresses s [] fun _ t => SameNames s t := by
  cases v with
  | c => exact Follows.pure (SameNames.refl s)
  | cpp =>
    cases r with
    | null => exact buildRet_follows s none
    | value val => exact buildRet_follows s (some val)
    | junk => exact Follows.crash

theorem InScope.declarationList (h : InScope hash G names names.length s) (v : FrontEnd)
    (blocks : List Block) (ds : List Declaration) :
    (declarationList hash v ds).Follows addresses s
      (answers hash G (declarationUses blocks names ds)) fun _ t =>
        InScope hash G (names ++ ds.map Declaration.id)
          (names ++ ds.map Declaration.id).length t := by
  induction ds generalizing names s with
  | nil => exact Follows.pure (by simpa using h)
  | cons d ds ih =>
    rw [declarationUses, answers_append]
    refine (h.declaration v blocks d).bind fun _ t ht => ?_
    simpa using ih ht

/-- A statement makes its uses and inserts the names declared in it. -/
theorem InScope.statement (h : InScope hash G names names.length s) (v : FrontEnd)
    (blocks : List Block) (st : Stmt) :
    (statement hash v st).Follows addresses s (answers hash G (st.uses blocks names)) fun _ t =>
      InScope hash G (names ++ st.declared) (names ++ st.declared).length t := by
  induction st generalizing names s blocks with
  | none | breakStmt | continueStmt => exact Follows.pure (by simpa [Stmt.declared] using h)
  | list l r ihl ihr =>
    rw [Stmt.uses, answers_append]
    refine (ihl h blocks).bind fun _ t ht => ?_
    simpa [Stmt.declared] using ihr ht blocks
  | exprStmt e => exact (h.exprOpt v blocks e).mono fun _ t ht => by simpa [Stmt.declared] using ht
  | compoundStmt ds body ih =>
    rw [Stmt.uses, answers_append]
    refine (h.declarationList v _ ds).bind fun _ t ht => ?_
    simpa [Stmt.declared] using ih ht _
  | ifStmt c t e iht ihe =>
    rw [Stmt.uses, answers_append, answers_append, List.append_assoc]
    refine (h.expression v blocks c).bind fun _ s₁ h₁ => ?_
    refine (iht h₁ blocks).bind fun _ s₂ h₂ => ?_
    simpa [Stmt.declared] using ihe h₂ blocks
  | switchStmt e r ih | whileStmt e r ih =>
    rw [Stmt.uses, answers_append]
    refine (h.expression v blocks e).bind fun _ t ht => ?_
    simpa [Stmt.declared] using ih ht blocks
  | forStmt init test next r ih =>
    rw [Stmt.uses, usesOf_append, usesOf_append]
    simp only [answers_append, List.append_assoc]
    refine (h.exprOpt v blocks init).bind fun _ s₁ h₁ => ?_
    refine (h₁.exprOpt v blocks test).bind fun _ s₂ h₂ => ?_
    refine (h₂.exprOpt v blocks next).bind fun _ s₃ h₃ => ?_
    simpa [Stmt.declared] using ih h₃ blocks
  | doStmt r e ih =>
    rw [Stmt.uses, answers_append]
    refine (ih h blocks).bind fun _ t ht => ?_
    exact (ht.expression v blocks e).quiet fun _ u hu => Follows.pure hu
  | returnStmt e =>
    cases e with
    | none =>
      refine (buildRet_follows s none).mono fun _ t ht => ?_
      simpa [Stmt.declared] using h.same ht
    | some e =>
      refine (h.expression v blocks e).quiet fun r t ht => ?_
      refine (returnExpression_follows v r t).mono fun _ u hu => ?_
      simpa [Stmt.declared] using ht.same hu
  | caseStmt e =>
    refine (h.expression v blocks e).quiet fun _ t ht => Follows.pure ?_
    simpa [Stmt.declared] using ht

/-! ## Functions -/

theorem paramList_eq (ps : List Param) :
    paramList ps = (ps.map fun p => ⟨p.id, declaredTy p.type p.star⟩).reverse := by
  simp [paramList, pushParam]

theorem paramList_names (ps : List Param) :
    (paramList ps).filterMap ParamNode.name = (ps.filterMap Param.id).reverse := by
  rw [paramList_eq, List.filterMap_reverse, List.filterMap_map]
  rfl

theorem fillDown_eq {α : Type} (field : ParamNode → α) (params : List ParamNode) (filled : List α) :
    fillDown field params filled = (params.map field).reverse ++ filled := by
  induction params generalizing filled with
  | nil => rfl
  | cons tmp rest ih => simp [fillDown, ih]

theorem paramNames_cons (names : List String) (p : ParamNode) (ps : List ParamNode) :
    names ++ (p :: ps).filterMap ParamNode.name =
      names ++ p.name.toList ++ ps.filterMap ParamNode.name := by
  cases hp : p.name with
  | none => simp [hp]
  | some name => simp [hp]

/-- One parameter: an alloca, the store of the argument and the name. -/
theorem InScope.bindParam (h : InScope hash G names names.length s) (t : Ty)
    (llvmName name : Option String) (i : Nat) (rest : Action Unit) {Q : Unit → State → Prop}
    (hrest : ∀ u, InScope hash G (names ++ name.toList) (names ++ name.toList).length u →
      rest.Follows addresses u [] Q) :
    Follows addresses (do
      let alloca ← MiniC.buildAlloca t llvmName
      buildStore (.param i) alloca
      MiniC.insertSymbol hash name alloca
      rest) s [] Q := by
  apply (h.buildAlloca t llvmName).silent
  rintro _ s₁ ⟨rfl, h₁⟩
  have hstore : (buildStore (.param i) (.alloca names.length)).Follows addresses s₁ []
      fun _ t => SameNames s₁ t := (build_follows s₁ _ rfl).silent fun _ _ h => Follows.pure h
  refine hstore.silent fun _ s₂ h₂ => ?_
  cases name with
  | none =>
    refine Follows.silent (Q := fun _ _ => False) (Follows.read_bind ?_) fun _ _ h => h.elim
    rw [if_neg (by simp [h₂.scopes, h₁.scopes, isGlobalScope])]
    exact Follows.observe_bind (V := addresses) rfl Follows.crash
  | some name => exact ((h₁.same h₂).insertSymbol name).silent fun _ u hu => hrest u hu

theorem InScope.bindParamsDown (h : InScope hash G names names.length s) (ps : List ParamNode) :
    (bindParamsDown hash ps ps.length).Follows addresses s [] fun _ t =>
      InScope hash G (names ++ ps.filterMap ParamNode.name)
        (names ++ ps.filterMap ParamNode.name).length t := by
  induction ps generalizing names s with
  | nil => exact Follows.pure (by simpa using h)
  | cons p ps ih =>
    refine h.bindParam _ _ _ _ _ fun u hu => (ih hu).mono fun _ t ht => ?_
    rwa [← paramNames_cons] at ht

theorem InScope.bindParamsUp (h : InScope hash G names names.length s) (ps : List ParamNode)
    (i : Nat) : (bindParamsUp hash (ps.map ParamNode.type) (ps.map ParamNode.name) i).Follows
      addresses s [] fun _ t => InScope hash G (names ++ ps.filterMap ParamNode.name)
        (names ++ ps.filterMap ParamNode.name).length t := by
  induction ps generalizing names s i with
  | nil => exact Follows.pure (by simpa using h)
  | cons p ps ih =>
    refine h.bindParam _ _ _ _ _ fun u hu => (ih hu _).mono fun _ t ht => ?_
    rwa [← paramNames_cons] at ht

theorem InScope.start (hs : s.scopes = [none]) (retType : Ty) (name : String)
    (params : List Ty) :
    (createFunction retType name params).Follows addresses s [] fun _ t =>
      InScope hash (getNamedGlobal s.module) [] 0 t := by
  refine Follows.change fun t ht => ?_
  cases ht
  refine ⟨hs, getNamedGlobal_function _ _, ?_⟩
  simp [State.allocas, State.entry, Global.entry]

variable (hash) in
theorem enterFunction_follows (v : FrontEnd) (hs : s.scopes = []) (f : FunctionDefinition) :
    (enterFunction hash v (declaredTy f.type f.star) f.id (paramList f.params)).Follows
      addresses s [] fun _ t => InScope hash (getNamedGlobal s.module) (f.paramNames v)
        (f.paramNames v).length t := by
  refine Follows.change_bind fun s₁ h₁ => ?_
  cases h₁
  refine Follows.silent (Q := fun _ t => InScope hash (getNamedGlobal s.module) [] 0 t)
    (InScope.start (by simp [hs, symbolPushScope]) _ _ _) fun _ t ht => ?_
  have hnames := paramList_names f.params
  cases v with
  | c =>
    refine (InScope.bindParamsDown ht (paramList f.params)).mono fun _ u hu => ?_
    rwa [List.nil_append, hnames] at hu
  | cpp =>
    have hup := InScope.bindParamsUp ht (paramList f.params).reverse 0
    rw [List.map_reverse, List.map_reverse, List.filterMap_reverse, hnames,
      List.reverse_reverse] at hup
    rw [fillDown_eq, fillDown_eq, List.append_nil, List.append_nil]
    exact hup

theorem defaultReturn_follows (v : FrontEnd) (type : TypeSpecifier) (star : Bool) (s : State) :
    (defaultReturn v type star).Follows addresses s [] fun _ t => SameNames s t := by
  cases v <;> cases star <;> cases type <;>
    first
    | exact buildRet_follows s _
    | exact Follows.pure (SameNames.refl s)

/-- The only live scope is closed at the end of a function. -/
theorem InScope.leaveFunction (h : InScope hash G names k s) (v : FrontEnd)
    (type : TypeSpecifier) (star : Bool) :
    (leaveFunction v type star).Follows addresses s [] fun _ t => t.scopes = [] := by
  have hpop : ∀ s', SameNames s s' →
      popScope.Follows addresses s' [] fun _ t => t.scopes = [] := by
    intro s' hs'
    refine Follows.change fun t ht => ?_
    rw [hs'.scopes, h.scopes] at ht
    cases ht
    rfl
  apply Follows.read_bind
  dsimp only
  split
  · exact hpop s (SameNames.refl s)
  · exact (defaultReturn_follows v type star s).silent fun _ s' hs' => hpop s' hs'

variable (hash) in
/-- A function definition makes its uses, and no scope of it stays open. -/
theorem functionDefinition_follows (v : FrontEnd) (hs : s.scopes = []) (f : FunctionDefinition) :
    (functionDefinition hash v f).Follows addresses s
      (answers hash (getNamedGlobal s.module) (f.uses v)) fun _ t => t.scopes = [] := by
  refine (enterFunction_follows hash v hs f).silent fun _ t ht => ?_
  refine (ht.statement v _ (.compoundStmt f.declarations f.body)).quiet fun _ u hu => ?_
  exact hu.leaveFunction v f.type f.star

/-- Between external declarations no scope is open. -/
theorem translationUnit_leaves (v : FrontEnd) (ds : TranslationUnit) (hs : s.scopes = []) :
    (translationUnit hash v ds).Leaves s fun _ t => t.scopes = [] := by
  induction ds generalizing s with
  | nil => exact Leaves.pure hs
  | cons d ds ih =>
    refine Leaves.bind (Q := fun _ t => t.scopes = []) ?_ fun _ t ht => ih ht
    cases d with
    | function f =>
      refine (functionDefinition_follows hash v hs f).leaves.bind fun _ t ht => ?_
      apply Leaves.read_bind
      split
      · exact Leaves.crash
      · exact Leaves.pure ht
    | declaration d =>
      refine (exprOpt_follows hash v d.initializer s).leaves.bind fun _ t ht => ?_
      have hempty : t.scopes = [] := ht.scopes.trans hs
      apply Leaves.read_bind
      rw [if_pos (by simp [hempty, isGlobalScope])]
      refine Leaves.change fun u hu => ?_
      cases hu
      exact hempty

/-! ## When a use is resolved as block scoping says -/

variable (hash) in
/-- No other declaration of the name gets in the way of the right one. If no block
around the use declares the name, no block closed before declares it either. If
`d` is the declaration of the innermost block that declares it, `d` comes before the
use, each later declaration before the use (in a block that is closed by then) is
followed by an odd number of expansions of the hash table, and `d` by an even number
or it is the first declaration of the name. -/
def Use.Undisturbed (u : Use) : Prop :=
  match (u.blocks.map Block.bindings).findSome? (latestIn u.name) with
  | none => u.name ∉ u.inserted
  | some d => OnTop 0 d (history hash u.name (numbered 0 u.inserted))

theorem getElem?_of_mem_numbered {k : Nat} {names : List String} {name : String} {val : Value}
    (h : (name, val) ∈ numbered k names) : ∃ n, names[n]? = some name ∧ val = .alloca (k + n) := by
  induction names generalizing k with
  | nil => cases h
  | cons n names ih =>
    rcases List.mem_append.mp h with h | h
    · obtain ⟨m, hm, rfl⟩ := ih h
      exact ⟨m + 1, hm, by rw [Nat.add_right_comm, Nat.add_assoc]⟩
    · cases List.mem_singleton.mp h
      exact ⟨0, rfl, rfl⟩

theorem latestIn_numbered_eq_none_iff (k : Nat) (names : List String) (name : String) :
    latestIn name (numbered k names) = none ↔ name ∉ names := by
  induction names generalizing k with
  | nil => simp [numbered, latestIn]
  | cons n names ih =>
    have ih := ih (k + 1)
    simp only [latestIn, Option.map_eq_none_iff] at ih
    simp only [numbered, latestIn, Option.map_eq_none_iff, List.find?_append, Option.or_eq_none_iff,
      ih, List.mem_cons, not_or]
    simp [eq_comm, and_comm]

theorem mem_of_latestIn {V : Type} {name : String} {ins : List (String × V)} {val : V}
    (h : latestIn name ins = some val) : (name, val) ∈ ins := by
  obtain ⟨p, hp, rfl⟩ := Option.map_eq_some_iff.mp h
  have hname : p.1 = name := by simpa using List.find?_some hp
  exact hname ▸ List.mem_of_find?_eq_some hp

theorem mem_of_push_history {V : Type} {name : String} {ins : List (String × V)} {val : V}
    (h : .push val ∈ history hash name ins) : (name, val) ∈ ins := by
  induction ins with
  | nil => cases h
  | cons p ins ih =>
    obtain ⟨n, w⟩ := p
    by_cases hn : n = name
    · have hmoves : Move.push val ∈ Move.push w :: history hash name ins := by
        simp only [history, hn, ↓reduceIte] at h
        split at h
        · simpa using h
        · exact h
      rcases List.mem_cons.mp hmoves with hval | hold
      · cases hval
        exact hn ▸ List.mem_cons_self
      · exact List.mem_cons_of_mem _ (ih hold)
    · have hold : Move.push val ∈ history hash name ins := by
        simp only [history, hn, ↓reduceIte] at h
        split at h
        · simpa using h
        · exact h
      exact List.mem_cons_of_mem _ (ih hold)

theorem survivor_numbered {name : String} {names : List String} {val : Value}
    (h : survivor false (history hash name (numbered 0 names)) = some val) :
    ∃ n, names[n]? = some name ∧ val = .alloca n := by
  obtain ⟨later, earlier, heq, _⟩ := (survivor_eq_some_iff 0 val _).mp (by simpa using h)
  have hpush : Move.push val ∈ history hash name (numbered 0 names) := by simp [heq]
  obtain ⟨n, hn, rfl⟩ := getElem?_of_mem_numbered (mem_of_push_history hpush)
  exact ⟨n, hn, by rw [Nat.zero_add]⟩

theorem Use.found_eq (G : String → Option Value) (u : Use) :
    u.found hash G =
      (survivor false (history hash u.name (numbered 0 u.inserted))).or (G u.name) := by
  rw [Use.found, symbolFind, getSymbolInScope, find_tableAfter]
  cases survivor false (history hash u.name (numbered 0 u.inserted)) <;> rfl

/-- In a function of fewer than ten parameters and declarations a use gets the last
declaration of its name, wherever that stands. -/
theorem Use.found_eq_last (G : String → Option Value) (u : Use) (hfew : u.inserted.length < 10) :
    u.found hash G = (latestIn u.name (numbered 0 u.inserted)).or (G u.name) := by
  rw [u.found_eq, ← find_tableAfter, find_few hash (by rwa [numbered_length])]

theorem getNamedGlobal_ne_alloca (module : List Global) (name : String) (n : Nat) :
    getNamedGlobal module name ≠ some (.alloca n) := by
  intro h
  obtain ⟨k, _, h⟩ := Option.bind_eq_some_iff.mp h
  obtain ⟨g, _, h⟩ := Option.bind_eq_some_iff.mp h
  cases g <;> cases h

theorem Use.found_eq_lexical_iff (module : List Global) (u : Use) :
    u.found hash (getNamedGlobal module) = u.lexical (getNamedGlobal module) ↔
      u.Undisturbed hash := by
  rw [u.found_eq, lexical, lexFind, Undisturbed]
  cases hd : (u.blocks.map Block.bindings).findSome? (latestIn u.name) with
  | none =>
    have hnone : survivor false (history hash u.name (numbered 0 u.inserted)) = none ↔
        u.name ∉ u.inserted := by
      rw [survivor_eq_none_iff, latest_history, latestIn_numbered_eq_none_iff]
    dsimp only
    rw [← hnone]
    cases hs : survivor false (history hash u.name (numbered 0 u.inserted)) with
    | none => simp
    | some val =>
      obtain ⟨n, _, rfl⟩ := survivor_numbered hs
      simpa using (getNamedGlobal_ne_alloca module u.name n).symm
  | some d =>
    obtain ⟨bindings, hb, hlatest⟩ := List.exists_of_findSome?_eq_some hd
    obtain ⟨b, _, rfl⟩ := List.mem_map.mp hb
    obtain ⟨n, _, rfl⟩ := getElem?_of_mem_numbered (mem_of_latestIn hlatest)
    have htop := survivor_eq_some_iff 0 (.alloca (b.first + n))
      (history hash u.name (numbered 0 u.inserted))
    simp only [Even.zero, decide_true, Bool.not_true] at htop
    dsimp only
    rw [← htop]
    cases hs : survivor false (history hash u.name (numbered 0 u.inserted)) with
    | none => simpa using getNamedGlobal_ne_alloca module u.name (b.first + n)
    | some val => simp

end CourseCompilers.MiniC
