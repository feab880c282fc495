import CourseCompilers.MiniC.Returns

/-! The modules that the front ends build: an object for each external declaration, and
in no function an instruction that uses a value that is not there yet. -/

namespace CourseCompilers.MiniC
open Lib Prog

def Inst.operands : Inst → List Value
  | .alloca _ _ => []
  | .store val ptr => [val, ptr]
  | .load ptr => [ptr]
  | .ret val => val.toList

def Global.function? : Global → Option Function
  | .variable _ _ => none
  | .function f => some f

/-- An object without its code. -/
def Global.bare : Global → Global
  | .variable t name => .variable t name
  | .function f => .function { f with entry := [] }

/-- What an external declaration adds to the module. -/
def ExternalDeclaration.object : ExternalDeclaration → Global
  | .function f => .function f.header
  | .declaration d => .variable (declaredTy d.type d.star) d.id

section
variable (module : List Global) (params : Nat)

/-- The value is there after this code of a function with so many parameters. -/
def Value.There (code : List Inst) : Value → Prop
  | .global n => ∃ t name, module[n]? = some (.variable t name)
  | .param n => n < params
  | .alloca n => n < code.countP Inst.isAlloca
  | .load n => n < code.countP Inst.isLoad
  | .constInt _ | .constReal _ | .constPointerNull _ => True

/-- Each operand is there before its instruction. -/
def OperandsThere (code : List Inst) : Prop :=
  ∀ before i after, code = before ++ i :: after → ∀ v ∈ i.operands, v.There module params before

end

/-! ## Growing code -/

variable {module module' : List Global} {params : Nat} {code : List Inst}

/-- The variables of a module stay where they are. -/
def SameVariables (module module' : List Global) : Prop :=
  ∀ (n : Nat) t name, module[n]? = some (.variable t name) → module'[n]? = some (.variable t name)

theorem Value.There.mono {v : Value} (h : v.There module params code)
    (hm : SameVariables module module') (more : List Inst) :
    v.There module' params (code ++ more) := by
  cases v with
  | global n =>
    obtain ⟨t, name, hn⟩ := h
    exact ⟨t, name, hm n t name hn⟩
  | param n => exact h
  | alloca n =>
    have h : n < code.countP Inst.isAlloca := h
    show n < (code ++ more).countP Inst.isAlloca
    rw [List.countP_append]
    omega
  | load n =>
    have h : n < code.countP Inst.isLoad := h
    show n < (code ++ more).countP Inst.isLoad
    rw [List.countP_append]
    omega
  | constInt n | constReal n | constPointerNull t => trivial

theorem OperandsThere.mono (h : OperandsThere module params code)
    (hm : SameVariables module module') : OperandsThere module' params code := by
  intro before i after heq v hv
  have hthere := (h before i after heq v hv).mono hm []
  rwa [List.append_nil] at hthere

theorem OperandsThere.append (h : OperandsThere module params code) {i : Inst}
    (hi : ∀ v ∈ i.operands, v.There module params code) :
    OperandsThere module params (code ++ [i]) := by
  intro before j after heq v hv
  rcases List.eq_nil_or_concat after with rfl | ⟨after, k, rfl⟩
  · obtain ⟨rfl, hj⟩ := List.append_inj' heq rfl
    cases hj
    exact hi v hv
  · have hassoc : before ++ j :: (after ++ [k]) = (before ++ j :: after) ++ [k] := by simp
    rw [List.concat_eq_append, hassoc] at heq
    obtain ⟨rfl, -⟩ := List.append_inj' heq rfl
    exact h before j after rfl v hv

/-! ## The states of a front end -/

/-- The function instructions are appended to. -/
def State.current (s : State) : Option Function :=
  s.builder.bind fun k => (s.module[k]?).bind Global.function?

/-- The value may be used by the next instruction. -/
def State.Has (s : State) (v : Value) : Prop :=
  ∀ f, s.current = some f → v.There s.module f.params.length f.entry

/-- What may be used in `s` may still be used in `t`. -/
def Grew (s t : State) : Prop := ∀ v, s.Has v → t.Has v

theorem Grew.refl (s : State) : Grew s s := fun _ h => h

theorem Grew.trans {s t u : State} (h : Grew s t) (h' : Grew t u) : Grew s u :=
  fun v hv => h' v (h v hv)

/-- What holds of a state with `d` live scopes after the objects of `outline`. -/
structure Sound (hash : String → Nat) (d : Nat) (outline : List Global) (s : State) : Prop where
  outline_eq : s.module.map Global.bare = outline
  operands : ∀ f, .function f ∈ s.module → OperandsThere s.module f.params.length f.entry
  scopes : ∃ ls : Lexical Value, s.scopes = ls.map (tableAfter hash) ∧ ls.length = d ∧
    ∀ l ∈ ls, ∀ p ∈ l, s.Has p.2

variable {hash : String → Nat} {d : Nat} {outline : List Global} {s t : State}

/-- Objects found in a scope have been inserted into it. -/
theorem mem_of_getSymbolInScope {V : Type} {name : String} {ls : Lexical V} {v : V}
    (h : getSymbolInScope hash name (ls.map (tableAfter hash)) = some v) :
    ∃ l ∈ ls, (name, v) ∈ l := by
  induction ls with
  | nil => cases h
  | cons l ls ih =>
    rw [List.map_cons, getSymbolInScope, find_tableAfter] at h
    cases hs : survivor false (history hash name l) with
    | none =>
      rw [hs] at h
      obtain ⟨l', hl', hmem⟩ := ih h
      exact ⟨l', List.mem_cons_of_mem l hl', hmem⟩
    | some w =>
      rw [hs] at h
      cases h
      obtain ⟨later, earlier, heq, -⟩ := (survivor_eq_some_iff 0 v _).mp (by simpa using hs)
      have hpush : Move.push v ∈ history hash name l := by simp [heq]
      exact ⟨l, List.mem_cons_self, mem_of_push_history hpush⟩

/-- What a name stands for may be used. -/
theorem Sound.has_of_find (h : Sound hash d outline s) {name : String} {v : Value}
    (hv : symbolFind hash (getNamedGlobal s.module) s.scopes name = some v) : s.Has v := by
  obtain ⟨ls, hscopes, -, hls⟩ := h.scopes
  rw [symbolFind, hscopes] at hv
  cases hf : getSymbolInScope hash name (ls.map (tableAfter hash)) with
  | some w =>
    rw [hf] at hv
    cases hv
    obtain ⟨l, hl, hmem⟩ := mem_of_getSymbolInScope hf
    exact hls l hl _ hmem
  | none =>
    rw [hf] at hv
    obtain ⟨n, -, hv⟩ := Option.bind_eq_some_iff.mp hv
    obtain ⟨g, hg, hv⟩ := Option.bind_eq_some_iff.mp hv
    cases g with
    | function f => cases hv
    | «variable» ty x =>
      cases hv
      exact fun _ _ => ⟨ty, x, hg⟩

/-- One more instruction. -/
theorem State.append_module {i : Inst} (h : s.append i = some t) :
    SameVariables s.module t.module ∧ t.module.map Global.bare = s.module.map Global.bare ∧
      t.current = s.current.map fun f => { f with entry := f.entry ++ [i] } := by
  obtain ⟨k, hk, rfl⟩ := Option.map_eq_some_iff.mp h
  refine ⟨fun n ty name hn => ?_, ?_, ?_⟩
  · rw [List.getElem?_modify]
    rw [hn]
    split <;> rfl
  · refine List.ext_getElem? fun n => ?_
    rw [List.getElem?_map, List.getElem?_map, List.getElem?_modify]
    cases s.module[n]? with
    | none => rfl
    | some g =>
      cases g <;> by_cases hkn : k = n <;> simp [hkn, Global.append, Global.bare]
  · simp only [State.current, hk, Option.bind_some, List.getElem?_modify, ↓reduceIte]
    cases s.module[k]? with
    | none => rfl
    | some g => cases g <;> rfl

theorem State.append_grew {i : Inst} (h : s.append i = some t) : Grew s t := by
  obtain ⟨hvars, -, hcurrent⟩ := State.append_module h
  intro v hv f hf
  rw [hcurrent] at hf
  obtain ⟨g, hg, rfl⟩ := Option.map_eq_some_iff.mp hf
  exact (hv g hg).mono hvars [i]

theorem Sound.append (h : Sound hash d outline s) {i : Inst} (ht : s.append i = some t)
    (hi : ∀ v ∈ i.operands, s.Has v) : Sound hash d outline t := by
  obtain ⟨hvars, hbare, hcurrent⟩ := State.append_module ht
  have hgrew := State.append_grew ht
  obtain ⟨ls, hscopes, hd, hls⟩ := h.scopes
  refine ⟨hbare.trans h.outline_eq, fun f hf => ?_, ls, ?_, hd, fun l hl p hp =>
    hgrew _ (hls l hl p hp)⟩
  · obtain ⟨k, hk, rfl⟩ := Option.map_eq_some_iff.mp ht
    obtain ⟨n, hn⟩ := List.mem_iff_getElem?.mp hf
    rw [List.getElem?_modify] at hn
    obtain ⟨g, hg, hgf⟩ := Option.map_eq_some_iff.mp hn
    by_cases hkn : k = n
    · subst hkn
      rw [if_pos rfl] at hgf
      cases g with
      | «variable» ty name => cases hgf
      | function f' =>
        cases hgf
        have hcurr : s.current = some f' := by simp [State.current, hk, hg, Global.function?]
        have hold := (h.operands f' (List.mem_of_getElem? hg)).append fun v hv => hi v hv f' hcurr
        exact hold.mono hvars
    · rw [if_neg hkn] at hgf
      cases hgf
      exact (h.operands f (List.mem_of_getElem? hg)).mono hvars
  · exact (State.append_eq ht).1.trans hscopes

/-! ## Actions -/

theorem Sound.build (h : Sound hash d outline s) (kind : Inst → Bool) {i : Inst}
    (hi : ∀ v ∈ i.operands, s.Has v) :
    (build kind i).Leaves s fun n t => Sound hash d outline t ∧ Grew s t ∧
      ∀ f, t.current = some f → ∃ code, f.entry = code ++ [i] ∧ n = code.countP kind := by
  refine Leaves.read_bind (Leaves.bind (Leaves.change (Q := fun _ t => s.append i = some t)
    fun _ ht => ht) fun _ t ht => Leaves.pure ⟨h.append ht hi, State.append_grew ht, ?_⟩)
  intro f hf
  rw [(State.append_module ht).2.2] at hf
  obtain ⟨g, hg, rfl⟩ := Option.map_eq_some_iff.mp hf
  refine ⟨g.entry, rfl, ?_⟩
  obtain ⟨k, hk, hg⟩ := Option.bind_eq_some_iff.mp hg
  obtain ⟨o, ho, hg⟩ := Option.bind_eq_some_iff.mp hg
  cases o with
  | «variable» ty name => cases hg
  | function f' =>
    cases hg
    simp [State.entry, hk, ho, Global.entry]

theorem Sound.buildAlloca (h : Sound hash d outline s) (ty : Ty) (name : Option String) :
    (buildAlloca ty name).Leaves s fun v t => Sound hash d outline t ∧ Grew s t ∧ t.Has v := by
  cases name with
  | none => exact Leaves.crash
  | some name =>
    refine (h.build Inst.isAlloca (i := .alloca ty name) fun v hv => by cases hv).bind ?_
    rintro n t ⟨ht, hgrew, hn⟩
    refine Leaves.pure ⟨ht, hgrew, fun f hf => ?_⟩
    obtain ⟨code, hcode, rfl⟩ := hn f hf
    simp [hcode, Value.There, Inst.isAlloca]

theorem Sound.buildStore (h : Sound hash d outline s) {val ptr : Value} (hval : s.Has val)
    (hptr : s.Has ptr) :
    (buildStore val ptr).Leaves s fun _ t => Sound hash d outline t ∧ Grew s t := by
  refine (h.build (fun _ => false) (i := .store val ptr) ?_).bind fun _ t ht =>
    Leaves.pure ⟨ht.1, ht.2.1⟩
  simp [Inst.operands, hval, hptr]

theorem Sound.buildLoad (h : Sound hash d outline s) {ptr : Option Value}
    (hptr : ∀ v, ptr = some v → s.Has v) :
    (buildLoad ptr).Leaves s fun v t => Sound hash d outline t ∧ Grew s t ∧ t.Has v := by
  refine Leaves.bind (Q := fun _ t => t = s) (Leaves.observe rfl) ?_
  rintro _ _ rfl
  cases ptr with
  | none => exact Leaves.crash
  | some ptr =>
    refine (h.build Inst.isLoad (i := .load ptr) ?_).bind ?_
    · simpa [Inst.operands] using hptr ptr rfl
    · rintro n t ⟨ht, hgrew, hn⟩
      refine Leaves.pure ⟨ht, hgrew, fun f hf => ?_⟩
      obtain ⟨code, hcode, rfl⟩ := hn f hf
      simp [hcode, Value.There, Inst.isLoad]

theorem Sound.buildRet (h : Sound hash d outline s) {val : Option Value}
    (hval : ∀ v, val = some v → s.Has v) :
    (buildRet val).Leaves s fun _ t => Sound hash d outline t ∧ Grew s t := by
  refine (h.build (fun _ => false) (i := .ret val) ?_).bind fun _ t ht =>
    Leaves.pure ⟨ht.1, ht.2.1⟩
  simpa [Inst.operands] using hval

theorem Sound.insertSymbol (h : Sound hash (d + 1) outline s) (name : Option String) {v : Value}
    (hv : s.Has v) :
    (insertSymbol hash name v).Leaves s fun _ t => Sound hash (d + 1) outline t ∧ Grew s t := by
  obtain ⟨ls, hscopes, hd, hls⟩ := h.scopes
  obtain ⟨l, ls, rfl⟩ := List.exists_cons_of_length_eq_add_one hd
  refine Leaves.read_bind ?_
  rw [if_neg (by simp [hscopes, isGlobalScope])]
  refine Leaves.bind (Q := fun _ t => t = s) (Leaves.observe rfl) ?_
  rintro _ _ rfl
  cases name with
  | none => exact Leaves.crash
  | some name =>
    refine Leaves.change fun t ht => ?_
    cases ht
    refine ⟨⟨h.outline_eq, h.operands, ((name, v) :: l) :: ls, ?_, hd, ?_⟩, fun v hv => hv⟩
    · simp [hscopes, symbolInsert, tableAfter]
    · rintro l' hl' p hp
      rcases List.mem_cons.mp hl' with rfl | hl'
      · rcases List.mem_cons.mp hp with rfl | hp
        · exact hv
        · exact hls l List.mem_cons_self p hp
      · exact hls l' (List.mem_cons_of_mem l hl') p hp

/-! ## Expressions -/

/-- The value of the reference, if it has one, may be used. -/
def Ref.There (s : State) : Ref → Prop
  | .value v => s.Has v
  | .null | .junk => True

theorem Ref.There.mono {r : Ref} (h : r.There s) (hgrew : Grew s t) : r.There t := by
  cases r with
  | value v => exact hgrew v h
  | null | junk => trivial

theorem Sound.find_bind (h : Sound hash d outline s) {α : Type} {name : String}
    {m : Option Value → Action α} {Q : α → State → Prop}
    (hm : ∀ val, (∀ v, val = some v → s.Has v) → (m val).Leaves s Q) :
    (findSymbol hash name >>= m).Leaves s Q := by
  have hfind : (findSymbol hash name).Leaves s fun val t =>
      (∀ v, val = some v → s.Has v) ∧ t = s :=
    Leaves.read_bind (Leaves.bind (Q := fun _ t => t = s) (Leaves.observe rfl)
      fun _ t ht => Leaves.pure ⟨fun v hv => h.has_of_find hv, ht⟩)
  refine hfind.bind ?_
  rintro val _ ⟨hval, rfl⟩
  exact hm val hval

theorem Sound.loadRef (h : Sound hash d outline s) {ptr : Option Value}
    (hptr : ∀ v, ptr = some v → s.Has v) :
    Leaves (do return Ref.value (← MiniC.buildLoad ptr)) s fun r t =>
      Sound hash d outline t ∧ Grew s t ∧ r.There t :=
  (h.buildLoad hptr).bind fun _ _ ht => Leaves.pure ht

theorem Sound.setTarget (h : Sound hash d outline s) {val : Option Value}
    (hval : ∀ v, val = some v → s.Has v) : (setTarget val).Leaves s fun r t =>
      Sound hash d outline t ∧ Grew s t ∧ r.There t := by
  refine Leaves.bind (Q := fun _ t => t = s) (Leaves.observe rfl) ?_
  rintro _ _ rfl
  refine Leaves.pure ⟨h, Grew.refl _, ?_⟩
  cases val with
  | none => trivial
  | some val => exact hval val rfl

theorem Sound.lhsExpression (h : Sound hash d outline s) (v : FrontEnd) (lhs : LhsExpression) :
    (lhsExpression hash v lhs).Leaves s fun r t =>
      Sound hash d outline t ∧ Grew s t ∧ r.There t := by
  refine h.find_bind fun val hval => ?_
  cases v with
  | c =>
    cases lhs.star with
    | true => exact h.loadRef hval
    | false => exact h.setTarget hval
  | cpp =>
    cases val with
    | none => exact Leaves.pure ⟨h, Grew.refl s, trivial⟩
    | some val =>
      cases lhs.star with
      | true => exact h.loadRef hval
      | false => exact h.setTarget hval

theorem Sound.primaryId (h : Sound hash d outline s) (v : FrontEnd) (name : String) :
    (primaryId hash v name).Leaves s fun r t =>
      Sound hash d outline t ∧ Grew s t ∧ r.There t := by
  refine h.find_bind fun val hval => ?_
  cases v with
  | c => exact h.loadRef hval
  | cpp =>
    cases val with
    | none => exact Leaves.pure ⟨h, Grew.refl s, trivial⟩
    | some val => exact h.loadRef hval

/-- The value of an expression is there when it has been built. -/
theorem Sound.expression (h : Sound hash d outline s) (v : FrontEnd) (e : Expr) :
    (expression hash v e).Leaves s fun r t =>
      Sound hash d outline t ∧ Grew s t ∧ r.There t := by
  induction e generalizing s with
  | assign lhs e ih =>
    refine (h.lhsExpression v lhs).bind fun r t ⟨ht, hgrew, hr⟩ => ?_
    exact (ih ht).bind fun _ u ⟨hu, hgrew', _⟩ =>
      Leaves.pure ⟨hu, hgrew.trans hgrew', hr.mono hgrew'⟩
  | conditional c t e ihc iht ihe =>
    refine (ihc h).bind fun r s₁ ⟨h₁, hgrew₁, hr⟩ => ?_
    refine (iht h₁).bind fun _ s₂ ⟨h₂, hgrew₂, _⟩ => ?_
    exact (ihe h₂).bind fun _ s₃ ⟨h₃, hgrew₃, _⟩ =>
      Leaves.pure ⟨h₃, (hgrew₁.trans hgrew₂).trans hgrew₃, hr.mono (hgrew₂.trans hgrew₃)⟩
  | binary op a b iha ihb =>
    refine (iha h).bind fun r t ⟨ht, hgrew, hr⟩ => ?_
    exact (ihb ht).bind fun _ u ⟨hu, hgrew', _⟩ =>
      Leaves.pure ⟨hu, hgrew.trans hgrew', hr.mono hgrew'⟩
  | cast type star e ih | paren e ih => exact ih h
  | unary op e ih =>
    refine (ih h).bind fun r t ⟨ht, hgrew, hr⟩ => Leaves.pure ⟨ht, hgrew, ?_⟩
    cases op <;> cases v <;> first | exact hr | trivial
  | id name => exact h.primaryId v name
  | constantInteger text | constantFloat text => exact Leaves.pure ⟨h, Grew.refl s, trivial⟩

theorem Sound.exprOpt (h : Sound hash d outline s) (v : FrontEnd) (e : Option Expr) :
    (exprOpt hash v e).Leaves s fun _ t => Sound hash d outline t ∧ Grew s t := by
  cases e with
  | none => exact Leaves.pure ⟨h, Grew.refl s⟩
  | some e => exact (h.expression v e).bind fun _ t ht => Leaves.pure ⟨ht.1, ht.2.1⟩

/-! ## Statements -/

theorem Sound.declaration (h : Sound hash (d + 1) outline s) (v : FrontEnd) (x : Declaration) :
    (declaration hash v x).Leaves s fun _ t => Sound hash (d + 1) outline t ∧ Grew s t := by
  refine (h.exprOpt v x.initializer).bind ?_
  rintro _ t ⟨ht, hgrew⟩
  obtain ⟨ls, hscopes, hd, -⟩ := ht.scopes
  have hlive : isGlobalScope t.scopes = false := by
    obtain ⟨l, ls, rfl⟩ := List.exists_cons_of_length_eq_add_one hd
    simp [hscopes, isGlobalScope]
  refine Leaves.read_bind ?_
  rw [if_neg (by simp [hlive])]
  refine (ht.buildAlloca _ _).bind ?_
  rintro a u ⟨hu, hgrew', ha⟩
  refine (hu.insertSymbol _ ha).mono ?_
  rintro _ w ⟨hw, hgrew''⟩
  exact ⟨hw, (hgrew.trans hgrew').trans hgrew''⟩

theorem Sound.declarationList (h : Sound hash (d + 1) outline s) (v : FrontEnd)
    (ds : List Declaration) :
    (declarationList hash v ds).Leaves s fun _ t =>
      Sound hash (d + 1) outline t ∧ Grew s t := by
  induction ds generalizing s with
  | nil => exact Leaves.pure ⟨h, Grew.refl s⟩
  | cons dc ds ih =>
    refine (h.declaration v dc).bind fun _ t ⟨ht, hgrew⟩ => ?_
    exact (ih ht).mono fun _ u ⟨hu, hgrew'⟩ => ⟨hu, hgrew.trans hgrew'⟩

theorem Sound.returnExpression (h : Sound hash d outline s) (v : FrontEnd) {r : Ref}
    (hr : r.There s) :
    (returnExpression v r).Leaves s fun _ t => Sound hash d outline t ∧ Grew s t := by
  cases v with
  | c => exact Leaves.pure ⟨h, Grew.refl s⟩
  | cpp =>
    cases r with
    | null => exact h.buildRet fun _ hval => by cases hval
    | junk => exact Leaves.crash
    | value val =>
      refine h.buildRet ?_
      rintro _ ⟨⟩
      exact hr

theorem Sound.statement (h : Sound hash (d + 1) outline s) (v : FrontEnd) (st : Stmt) :
    (statement hash v st).Leaves s fun _ t => Sound hash (d + 1) outline t := by
  induction st generalizing s with
  | none | breakStmt | continueStmt => exact Leaves.pure h
  | list l st ihl ih => exact (ihl h).bind fun _ _ ht => ih ht
  | exprStmt e => exact (h.exprOpt v e).mono fun _ _ ht => ht.1
  | compoundStmt ds body ih => exact (h.declarationList v ds).bind fun _ _ ht => ih ht.1
  | ifStmt c t e iht ihe =>
    refine (h.expression v c).bind fun _ _ hc => ?_
    exact (iht hc.1).bind fun _ _ ht => ihe ht
  | switchStmt e st ih | whileStmt e st ih =>
    exact (h.expression v e).bind fun _ _ ht => ih ht.1
  | forStmt init test next st ih =>
    refine (h.exprOpt v init).bind fun _ _ h₁ => ?_
    refine (h₁.1.exprOpt v test).bind fun _ _ h₂ => ?_
    exact (h₂.1.exprOpt v next).bind fun _ _ h₃ => ih h₃.1
  | doStmt st e ih =>
    refine (ih h).bind fun _ _ ht => ?_
    exact (ht.expression v e).bind fun _ _ hu => Leaves.pure hu.1
  | returnStmt e =>
    cases e with
    | none => exact (h.buildRet fun _ hval => by cases hval).mono fun _ _ ht => ht.1
    | some e =>
      refine (h.expression v e).bind fun r t ⟨ht, _, hr⟩ => ?_
      exact (ht.returnExpression v hr).mono fun _ _ hu => hu.1
  | caseStmt e => exact (h.expression v e).bind fun _ _ ht => Leaves.pure ht.1

/-! ## Functions -/

/-- A parameter is stored into a variable of its own. -/
theorem Sound.bindParam (h : Sound hash (d + 1) outline s) (ty : Ty)
    (name binding : Option String) {i : Nat} (hi : s.Has (.param i)) {m : Action Unit}
    (hm : ∀ t, Sound hash (d + 1) outline t → Grew s t →
      m.Leaves t fun _ u => Sound hash (d + 1) outline u) :
    Leaves (do
      let alloca ← MiniC.buildAlloca ty name
      MiniC.buildStore (.param i) alloca
      MiniC.insertSymbol hash binding alloca
      m) s
      fun _ u => Sound hash (d + 1) outline u := by
  refine (h.buildAlloca ty name).bind fun a t ⟨ht, hgrew, ha⟩ => ?_
  refine (ht.buildStore (hgrew _ hi) ha).bind fun _ u ⟨hu, hgrew'⟩ => ?_
  refine (hu.insertSymbol binding (hgrew' _ ha)).bind fun _ w ⟨hw, hgrew''⟩ => ?_
  exact hm w hw ((hgrew.trans hgrew').trans hgrew'')

theorem Sound.bindParamsDown (h : Sound hash (d + 1) outline s) (ps : List ParamNode) (i : Nat)
    (hi : ∀ j < i, s.Has (.param j)) :
    (bindParamsDown hash ps i).Leaves s fun _ t => Sound hash (d + 1) outline t := by
  induction ps generalizing s i with
  | nil => exact Leaves.pure h
  | cons p ps ih =>
    cases i with
    | zero => exact Leaves.pure h
    | succ i =>
      refine h.bindParam p.type p.name p.name (hi i i.lt_succ_self) fun t ht hgrew => ?_
      exact ih ht i fun j hj => hgrew _ (hi j (Nat.lt_succ_of_lt hj))

theorem Sound.bindParamsUp (h : Sound hash (d + 1) outline s) (tys : List Ty)
    (names : List (Option String)) (i : Nat) (hi : ∀ j < i + tys.length, s.Has (.param j)) :
    (bindParamsUp hash tys names i).Leaves s fun _ t => Sound hash (d + 1) outline t := by
  induction tys generalizing s names i with
  | nil => cases names <;> exact Leaves.pure h
  | cons ty tys ih =>
    cases names with
    | nil => exact Leaves.pure h
    | cons name names =>
      rw [List.length_cons] at hi
      refine h.bindParam ty (some "") name (hi i (by omega)) fun t ht hgrew => ?_
      exact ih ht names (i + 1) fun j hj => hgrew _ (hi j (by omega))

/-- The state in which the parameters of a function are bound. -/
theorem Sound.start (h : Sound hash 0 outline s) (retType : Ty) (name : String)
    (params : List Ty) {t : State} (ht : t.scopes = [none])
    (hmodule : t.module = s.module ++ [.function ⟨retType, name, params, []⟩])
    (hbuilder : t.builder = some s.module.length) :
    Sound hash 1 (outline ++ [.function ⟨retType, name, params, []⟩]) t ∧
      ∀ j < params.length, t.Has (.param j) := by
  have hvars : SameVariables s.module t.module := by
    intro n ty x hn
    rw [hmodule, List.getElem?_append_left (List.getElem?_eq_some_iff.mp hn).1, hn]
  refine ⟨⟨?_, fun f hf => ?_, [[]], ?_, rfl, ?_⟩, fun j hj f hf => ?_⟩
  · rw [hmodule, List.map_append, h.outline_eq]
    rfl
  · rw [hmodule, List.mem_append] at hf
    rcases hf with hf | hf
    · exact (h.operands f hf).mono hvars
    · cases List.mem_singleton.mp hf
      intro before i after heq
      simp at heq
  · simpa [tableAfter] using ht
  · simp
  · simp only [State.current, hbuilder, hmodule, Option.bind_some, List.getElem?_append_right,
      le_refl, Nat.sub_self, List.getElem?_cons_zero, Global.function?, Option.some.injEq] at hf
    subst hf
    exact hj

theorem Sound.enterFunction (h : Sound hash 0 outline s) (v : FrontEnd)
    (f : FunctionDefinition) :
    (enterFunction hash v (declaredTy f.type f.star) f.id (paramList f.params)).Leaves s
      fun _ t => Sound hash 1 (outline ++ [.function f.header]) t := by
  obtain ⟨ls, hscopes, hd, -⟩ := h.scopes
  have hempty : s.scopes = [] := by rw [hscopes, List.eq_nil_of_length_eq_zero hd]; rfl
  refine Leaves.bind (Q := fun _ t => t = { s with scopes := [none] }) (Leaves.change ?_) ?_
  · rintro _ ⟨⟩
    rw [hempty]
    rfl
  rintro _ _ rfl
  refine Leaves.bind (Q := fun _ t => Sound hash 1 (outline ++ [.function f.header]) t ∧
    ∀ j < (paramList f.params).length, t.Has (.param j)) (Leaves.change ?_) ?_
  · rintro _ ⟨⟩
    rw [paramList_types]
    have hstart := h.start f.header.retType f.header.name f.header.params
      (t := ⟨[none], s.module ++ [.function f.header], some s.module.length, s.numErrors⟩)
      rfl rfl rfl
    refine ⟨hstart.1, fun j hj => hstart.2 j ?_⟩
    simpa [paramList_eq, FunctionDefinition.header] using hj
  rintro _ t ⟨ht, hparams⟩
  cases v with
  | c => exact ht.bindParamsDown _ _ hparams
  | cpp =>
    refine ht.bindParamsUp _ _ 0 fun j hj => hparams j ?_
    simpa [fillDown_eq] using hj

theorem Sound.defaultReturn (h : Sound hash d outline s) (v : FrontEnd) (type : TypeSpecifier)
    (star : Bool) :
    (defaultReturn v type star).Leaves s fun _ t => Sound hash d outline t := by
  have hret : ∀ val : Option Value, (∀ x, val = some x → s.Has x) →
      (MiniC.buildRet val).Leaves s fun _ t => Sound hash d outline t := fun val hval =>
    (h.buildRet hval).mono fun _ _ ht => ht.1
  cases v <;> cases star <;> cases type <;>
    first
    | exact Leaves.pure h
    | exact hret none (by simp)
    | exact hret (some _) (by rintro _ ⟨⟩ _ _; trivial)

theorem Sound.leaveFunction (h : Sound hash 1 outline s) (v : FrontEnd) (type : TypeSpecifier)
    (star : Bool) :
    (leaveFunction v type star).Leaves s fun _ t => Sound hash 0 outline t := by
  have hpop : ∀ s', Sound hash 1 outline s' →
      popScope.Leaves s' fun _ t => Sound hash 0 outline t := by
    intro s' hs'
    obtain ⟨ls, hscopes, hd, -⟩ := hs'.scopes
    obtain ⟨l, rfl⟩ := List.length_eq_one_iff.mp hd
    refine Leaves.change fun t ht => ?_
    rw [hscopes] at ht
    cases ht
    exact ⟨hs'.outline_eq, hs'.operands, [], rfl, rfl, by simp⟩
  refine Leaves.read_bind ?_
  dsimp only
  split
  · exact hpop s h
  · exact (h.defaultReturn v type star).bind fun _ s' hs' => hpop s' hs'

theorem Sound.externalDeclaration (h : Sound hash 0 outline s) (v : FrontEnd)
    (x : ExternalDeclaration) :
    (externalDeclaration hash v x).Leaves s fun _ t =>
      Sound hash 0 (outline ++ [x.object]) t := by
  cases x with
  | function f =>
    refine Leaves.bind (Q := fun _ t => Sound hash 0 (outline ++ [.function f.header]) t) ?_
      fun _ t ht => ?_
    · refine (h.enterFunction v f).bind fun _ t ht => ?_
      refine (ht.statement v (.compoundStmt f.declarations f.body)).bind fun _ u hu => ?_
      exact hu.leaveFunction v f.type f.star
    · refine Leaves.read_bind ?_
      split
      · exact Leaves.crash
      · exact Leaves.pure ht
  | declaration x =>
    refine (h.exprOpt v x.initializer).bind fun _ t ⟨ht, _⟩ => ?_
    obtain ⟨ls, hscopes, hd, -⟩ := ht.scopes
    obtain rfl := List.eq_nil_of_length_eq_zero hd
    refine Leaves.read_bind ?_
    rw [if_pos (by simp [hscopes, isGlobalScope])]
    refine Leaves.change ?_
    rintro _ ⟨⟩
    have hvars : SameVariables t.module
        (t.module ++ [(ExternalDeclaration.declaration x).object]) := by
      intro n ty name hn
      rw [List.getElem?_append_left (List.getElem?_eq_some_iff.mp hn).1, hn]
    refine ⟨?_, fun f hf => ?_, [], hscopes, rfl, by simp⟩
    · rw [List.map_append, ht.outline_eq]
      rfl
    · rw [List.mem_append] at hf
      rcases hf with hf | hf
      · exact (ht.operands f hf).mono hvars
      · cases List.mem_singleton.mp hf

theorem Sound.translationUnit (h : Sound hash 0 outline s) (v : FrontEnd) (u : TranslationUnit) :
    (translationUnit hash v u).Leaves s fun _ t =>
      Sound hash 0 (outline ++ u.map ExternalDeclaration.object) t := by
  induction u generalizing s outline with
  | nil => exact Leaves.pure (by simpa using h)
  | cons x u ih =>
    refine (h.externalDeclaration v x).bind fun _ t ht => ?_
    simpa using ih ht

theorem sound_initial (hash : String → Nat) : Sound hash 0 [] .initial :=
  ⟨rfl, fun _ hf => (List.not_mem_nil hf).elim, [], rfl, rfl, by simp⟩

/-- What is so between external declarations. -/
theorem Sound.closed (h : Sound hash 0 outline s) :
    s.scopes = [] ∧ s.module.map Global.bare = outline ∧
      ∀ f, .function f ∈ s.module → OperandsThere s.module f.params.length f.entry := by
  obtain ⟨ls, hscopes, hd, -⟩ := h.scopes
  rw [List.eq_nil_of_length_eq_zero hd] at hscopes
  exact ⟨hscopes, h.outline_eq, h.operands⟩

/-- A run of either front end that does not crash closes every scope it opens and makes
the objects that are declared, in order; in their code each instruction uses only
variables of the module, parameters of its own function and values computed before it. -/
theorem translationUnit_operandsThere (hash : String → Nat) (v : FrontEnd)
    (u : TranslationUnit) :
    (translationUnit hash v u).Leaves .initial fun _ t =>
      t.scopes = [] ∧ t.module.map Global.bare = u.map ExternalDeclaration.object ∧
        ∀ f, .function f ∈ t.module → OperandsThere t.module f.params.length f.entry :=
  ((sound_initial hash).translationUnit v u).mono fun _ _ ht => ht.closed

end CourseCompilers.MiniC
