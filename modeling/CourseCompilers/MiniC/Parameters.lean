import CourseCompilers.MiniC.Returns

/-! Which argument a parameter name stands for. The parser builds the parameter list from
its last entry on; the C `BuildFunction` goes through it with the index running down, the
C++ one fills two vectors from it and then goes through the arguments. -/

namespace CourseCompilers.MiniC
open Lib Prog Uthash

/-! ## Filling an array from the list -/

/-- `for (i = size-1; i >= 0; i--)`, which fills an array with a field of the nodes. -/
def fillArray {α : Type} (field : ParamNode → α) : List ParamNode → Nat → List α → List α
  | tmp :: rest, i + 1, array => fillArray field rest i (array.set i (field tmp))
  | _, _, array => array

theorem fillArray_eq {α : Type} (field : ParamNode → α) (params : List ParamNode)
    (array : List α) (h : params.length ≤ array.length) :
    fillArray field params params.length array =
      fillDown field params (array.drop params.length) := by
  induction params generalizing array with
  | nil => rfl
  | cons tmp rest ih =>
    rw [List.length_cons] at h
    have hdrop : (array.set rest.length (field tmp)).drop rest.length =
        field tmp :: array.drop (rest.length + 1) := by
      rw [List.drop_set, if_neg (Nat.lt_irrefl _), Nat.sub_self,
        List.drop_eq_getElem_cons (by omega), List.set_cons_zero]
    rw [List.length_cons, fillArray, ih _ (by rw [List.length_set]; omega), hdrop, fillDown]

/-- The loop fills the whole array, whatever was in it. -/
theorem fillArray_eq_fillDown {α : Type} (field : ParamNode → α) (params : List ParamNode)
    (array : List α) (h : array.length = params.length) :
    fillArray field params params.length array = fillDown field params [] := by
  rw [fillArray_eq field params array (by omega), List.drop_eq_nil_of_le (by omega)]

/-- The parameter list of these declarations, each with a name. -/
def pushParams (ps : List (String × Ty)) : List ParamNode :=
  ps.foldl (fun head p => pushParam head (some p.1) p.2) []

theorem pushParams_eq (ps : List (String × Ty)) :
    pushParams ps = (ps.map fun p => ⟨some p.1, p.2⟩).reverse := by
  simp [pushParams, pushParam]

/-- The lists of the grammar are of this kind if all parameters have names. -/
theorem paramList_eq_pushParams (ps : List Param) (named : Param → String)
    (h : ∀ p ∈ ps, p.id = some (named p)) :
    paramList ps = pushParams (ps.map fun p => (named p, declaredTy p.type p.star)) := by
  rw [paramList_eq, pushParams_eq, List.map_map]
  congr 1
  exact List.map_congr_left fun p hp => by simp [h p hp]

/-! ## What the loops bind -/

/-- A parameter that has been bound: the number of its argument, its name and type, and the
name that was asked for its alloca. -/
structure Binding where
  arg : Nat
  name : String
  type : Ty
  label : String
  deriving DecidableEq, Repr

/-- What is built for bindings whose allocas are numbered from `n` on. -/
def bindingsCode : Nat → List Binding → List Inst
  | _, [] => []
  | n, b :: bs => .alloca b.type b.label :: .store (.param b.arg) (.alloca n) ::
      bindingsCode (n + 1) bs

def Inst.allocaType : Inst → Option Ty
  | .alloca t _ => some t
  | _ => none

/-- The types of the allocas of a block, in their order. -/
def allocaTypes (code : List Inst) : List Ty := code.filterMap Inst.allocaType

def Inst.storedTo (ptr : Value) : Inst → Option Value
  | .store val p => if p = ptr then some val else none
  | _ => none

/-- What is stored to an address in a block. -/
def storesTo (code : List Inst) (ptr : Value) : List Value := code.filterMap (Inst.storedTo ptr)

@[simp] theorem allocaTypes_alloca (t : Ty) (name : String) (code : List Inst) :
    allocaTypes (.alloca t name :: code) = t :: allocaTypes code := rfl

@[simp] theorem allocaTypes_store (val ptr : Value) (code : List Inst) :
    allocaTypes (.store val ptr :: code) = allocaTypes code := rfl

@[simp] theorem storesTo_alloca (t : Ty) (name : String) (code : List Inst) (ptr : Value) :
    storesTo (.alloca t name :: code) ptr = storesTo code ptr := rfl

@[simp] theorem storesTo_store (val p : Value) (code : List Inst) (ptr : Value) :
    storesTo (.store val p :: code) ptr =
      if p = ptr then val :: storesTo code ptr else storesTo code ptr := by
  by_cases h : p = ptr
  · simp only [storesTo, List.filterMap_cons, Inst.storedTo, h, ↓reduceIte]
  · simp only [storesTo, List.filterMap_cons, Inst.storedTo, h, ↓reduceIte]

theorem bindingsCode_append (n : Nat) (bs bs' : List Binding) :
    bindingsCode n (bs ++ bs') = bindingsCode n bs ++ bindingsCode (n + bs.length) bs' := by
  induction bs generalizing n with
  | nil => rfl
  | cons b bs ih =>
    simp only [List.cons_append, bindingsCode, ih, List.length_cons]
    rw [show n + 1 + bs.length = n + (bs.length + 1) by omega]

theorem allocaTypes_bindingsCode (n : Nat) (bs : List Binding) :
    allocaTypes (bindingsCode n bs) = bs.map Binding.type := by
  induction bs generalizing n with
  | nil => rfl
  | cons b bs ih => simp [bindingsCode, ih]

theorem countP_bindingsCode (n : Nat) (bs : List Binding) :
    (bindingsCode n bs).countP Inst.isAlloca = bs.length := by
  induction bs generalizing n with
  | nil => rfl
  | cons b bs ih =>
    have hstore : ¬ (Inst.store (.param b.arg) (.alloca n)).isAlloca = true := by
      simp [Inst.isAlloca]
    rw [bindingsCode, List.countP_cons_of_pos rfl, List.countP_cons_of_neg hstore, ih,
      List.length_cons]

theorem storesTo_bindingsCode_lt {n a : Nat} (h : a < n) (bs : List Binding) :
    storesTo (bindingsCode n bs) (.alloca a) = [] := by
  induction bs generalizing n with
  | nil => rfl
  | cons b bs ih =>
    have hne : n ≠ a := by omega
    simp [bindingsCode, hne, ih (n := n + 1) (by omega)]

/-- An alloca holds the argument of its binding and nothing else. -/
theorem storesTo_bindingsCode {bs : List Binding} {a : Nat} {b : Binding} (h : bs[a]? = some b)
    (n : Nat) : storesTo (bindingsCode n bs) (.alloca (n + a)) = [.param b.arg] := by
  induction bs generalizing n a with
  | nil => cases h
  | cons b' bs ih =>
    cases a with
    | zero =>
      cases h
      simp [bindingsCode, storesTo_bindingsCode_lt]
    | succ a =>
      have hrest := ih (by simpa using h) (n + 1)
      rw [show n + 1 + a = n + (a + 1) by omega] at hrest
      simp [bindingsCode, hrest]

/-! ## Running the loops -/

variable {hash : String → Nat} {module : List Global} {f : Function} {outer : Scopes Value}
  {bs : List Binding} {s : State}

variable (hash) in
/-- In a new function, after these bindings. -/
structure Bound (module : List Global) (f : Function) (outer : Scopes Value) (bs : List Binding)
    (s : State) : Prop extends AtEnd module f (bindingsCode 0 bs) s where
  scopes : s.scopes = tableAfter hash (numbered 0 (bs.map Binding.name)) :: outer

/-- The program ends, in a state with property `Q`. -/
abbrev Ends {α : Type} (m : Action α) (s : State) (Q : α → State → Prop) : Prop :=
  m.Meets (fun _ => True) s True Q

theorem AtEnd.build_ends {code : List Inst} (h : AtEnd module f code s) (kind : Inst → Bool)
    (i : Inst) : Ends (MiniC.build kind i) s fun n t =>
      n = code.countP kind ∧ AtEnd module f (code ++ [i]) t ∧ t.scopes = s.scopes := by
  refine ⟨by simp, ?_, h.build kind i⟩
  simp [MiniC.build, bind, pure, Prog.read, Prog.change, State.append, h.builder]

/-- One parameter: an alloca, the store of the argument and the name. -/
theorem Bound.step (h : Bound hash module f outer bs s) (b : Binding) {rest : Action Unit}
    {Q : Unit → State → Prop}
    (hrest : ∀ t, Bound hash module f outer (bs ++ [b]) t → Ends rest t Q) :
    Ends (do
      let alloca ← buildAlloca b.type (some b.label)
      buildStore (.param b.arg) alloca
      insertSymbol hash (some b.name) alloca
      rest) s Q := by
  have halloca : Ends (buildAlloca b.type (some b.label)) s fun v t => v = .alloca bs.length ∧
      AtEnd module f (bindingsCode 0 bs ++ [.alloca b.type b.label]) t ∧ t.scopes = s.scopes := by
    refine Settles.result (h.build_ends Inst.isAlloca (.alloca b.type b.label)) fun n t ht => ?_
    rw [← countP_bindingsCode 0 bs, ← ht.1]
    exact ⟨rfl, ht.2⟩
  refine Meets.after halloca ?_
  rintro _ s₁ ⟨rfl, h₁, hs₁⟩
  have hstore : Ends (buildStore (.param b.arg) (.alloca bs.length)) s₁ fun _ t =>
      AtEnd module f (bindingsCode 0 (bs ++ [b])) t ∧ t.scopes = s.scopes := by
    have hbuild := h₁.build_ends (fun _ => false) (.store (.param b.arg) (.alloca bs.length))
    refine Settles.result (g := fun _ => ()) hbuild ?_
    rintro _ t ⟨_, hcode, hs⟩
    rw [List.append_assoc] at hcode
    rw [bindingsCode_append, Nat.zero_add]
    exact ⟨hcode, hs.trans hs₁⟩
  refine Meets.after hstore fun _ s₂ ⟨h₂, hs₂⟩ => ?_
  have hscopes := hs₂.trans h.scopes
  have hinsert : Ends (insertSymbol hash (some b.name) (.alloca bs.length)) s₂ fun _ t =>
      Bound hash module f outer (bs ++ [b]) t := by
    refine Settles.read_bind ?_
    rw [if_neg (by simp [hscopes, isGlobalScope])]
    have hchange : Ends (change fun s => some { s with
        scopes := symbolInsert hash s.scopes b.name (.alloca bs.length) }) s₂ fun _ t =>
          Bound hash module f outer (bs ++ [b]) t := by
      refine ⟨by simp, by simp [Prog.change], Leaves.change fun t ht => ?_⟩
      cases ht
      refine ⟨⟨h₂.objects, h₂.builder⟩, ?_⟩
      rw [List.map_append, numbered_append, List.length_map, Nat.zero_add]
      simp [hscopes, symbolInsert, numbered, tableAfter]
    exact (Settles.observe_bind hchange).iff (by simp) Iff.rfl
  exact Meets.after hinsert fun _ t ht => hrest t ht

/-- The bindings of parameters whose arguments are numbered from `i` on. -/
def argsFrom (label : String → String) : Nat → List (String × Ty) → List Binding
  | _, [] => []
  | i, p :: ps => ⟨i, p.1, p.2, label p.1⟩ :: argsFrom label (i + 1) ps

/-- The bindings in the order in which `BuildFunction` makes them. -/
def bindingsOf (v : FrontEnd) (ps : List (String × Ty)) : List Binding :=
  match v with
  | .c => (argsFrom id 0 ps).reverse
  | .cpp => argsFrom (fun _ => "") 0 ps

theorem argsFrom_append (label : String → String) (i : Nat) (ps ps' : List (String × Ty)) :
    argsFrom label i (ps ++ ps') = argsFrom label i ps ++ argsFrom label (i + ps.length) ps' := by
  induction ps generalizing i with
  | nil => rfl
  | cons p ps ih =>
    simp only [List.cons_append, argsFrom, ih, List.length_cons]
    rw [show i + 1 + ps.length = i + (ps.length + 1) by omega]

theorem argsFrom_names (label : String → String) (i : Nat) (ps : List (String × Ty)) :
    (argsFrom label i ps).map Binding.name = ps.map Prod.fst := by
  induction ps generalizing i with
  | nil => rfl
  | cons p ps ih => simp [argsFrom, ih]

theorem argsFrom_length (label : String → String) (i : Nat) (ps : List (String × Ty)) :
    (argsFrom label i ps).length = ps.length := by
  have hnames := congrArg List.length (argsFrom_names label i ps)
  simpa using hnames

theorem mem_argsFrom {label : String → String} {ps : List (String × Ty)} {j : Nat}
    {p : String × Ty} (h : ps[j]? = some p) (i : Nat) :
    ⟨i + j, p.1, p.2, label p.1⟩ ∈ argsFrom label i ps := by
  induction ps generalizing i j with
  | nil => cases h
  | cons p' ps ih =>
    cases j with
    | zero =>
      cases h
      exact List.mem_cons_self
    | succ j =>
      have hrest := ih (by simpa using h) (i + 1)
      rw [show i + 1 + j = i + (j + 1) by omega] at hrest
      exact List.mem_cons_of_mem _ hrest

/-- The loop of the C version, with the index running down. -/
theorem Bound.bindParamsDown (h : Bound hash module f outer bs s) (ps : List (String × Ty)) :
    Ends (bindParamsDown hash (pushParams ps) ps.length) s fun _ t =>
      Bound hash module f outer (bs ++ (argsFrom id 0 ps).reverse) t := by
  induction ps using List.reverseRecOn generalizing bs s with
  | nil => exact Settles.pure (by simpa [argsFrom] using h)
  | append_singleton ps p ih =>
    have hlist : pushParams (ps ++ [p]) = ⟨some p.1, p.2⟩ :: pushParams ps := by
      simp [pushParams_eq]
    have hargs : (argsFrom id 0 (ps ++ [p])).reverse =
        ⟨ps.length, p.1, p.2, p.1⟩ :: (argsFrom id 0 ps).reverse := by
      simp [argsFrom_append, argsFrom]
    rw [hlist, hargs, List.length_append, List.length_singleton, MiniC.bindParamsDown]
    refine h.step ⟨ps.length, p.1, p.2, p.1⟩ fun t ht => ?_
    have hrest := ih ht
    rwa [List.append_assoc] at hrest

/-- The loop of the C++ version, over the arguments. -/
theorem Bound.bindParamsUp (h : Bound hash module f outer bs s) (ps : List (String × Ty))
    (i : Nat) :
    Ends (bindParamsUp hash (ps.map Prod.snd) (ps.map fun p => some p.1) i) s fun _ t =>
      Bound hash module f outer (bs ++ argsFrom (fun _ => "") i ps) t := by
  induction ps generalizing bs s i with
  | nil => exact Settles.pure (by simpa [argsFrom] using h)
  | cons p ps ih =>
    rw [List.map_cons, List.map_cons, MiniC.bindParamsUp]
    refine h.step ⟨i, p.1, p.2, ""⟩ fun t ht => ?_
    have hrest := ih ht (i + 1)
    rwa [List.append_assoc] at hrest

/-- Both versions create the function with the types in the order of the declarations. -/
theorem fillDown_pushParams {α : Type} (field : ParamNode → α) (ps : List (String × Ty)) :
    fillDown field (pushParams ps) [] = ps.map fun p => field ⟨some p.1, p.2⟩ := by
  rw [fillDown_eq, pushParams_eq]
  simp [Function.comp_def]

variable (hash) in
theorem enterFunction_ends (v : FrontEnd) (s : State) (retType : Ty) (name : String)
    (ps : List (String × Ty)) :
    Ends (enterFunction hash v retType name (pushParams ps)) s fun _ t =>
      Bound hash s.module ⟨retType, name, ps.map Prod.snd, []⟩ s.scopes (bindingsOf v ps) t := by
  refine Settles.change_bind rfl (Settles.change_bind rfl ?_)
  rw [fillDown_pushParams]
  have hstart : Bound hash s.module ⟨retType, name, ps.map Prod.snd, []⟩ s.scopes []
      { s with
        scopes := symbolPushScope s.scopes
        module := s.module ++ [.function ⟨retType, name, ps.map Prod.snd, []⟩]
        builder := some s.module.length } := ⟨⟨rfl, rfl⟩, rfl⟩
  cases v with
  | c =>
    have hloop := hstart.bindParamsDown ps
    have hlen : (pushParams ps).length = ps.length := by simp [pushParams_eq]
    rw [← hlen] at hloop
    exact hloop
  | cpp =>
    have hloop := hstart.bindParamsUp ps 0
    rw [fillDown_pushParams]
    exact hloop

/-! ## Every name finds its argument -/

variable (hash) in
/-- A table of names that are all different finds each of them, however often it was
expanded. -/
theorem find_numbered {names : List String} (hnd : names.Nodup) {a : Nat} {name : String}
    (h : names[a]? = some name) :
    find hash (tableAfter hash (numbered 0 names)) name = some (.alloca a) := by
  rw [find_tableAfter]
  cases hs : survivor false (history hash name (numbered 0 names)) with
  | none =>
    rw [survivor_eq_none_iff, latest_history, latestIn_numbered_eq_none_iff] at hs
    exact absurd (List.mem_of_getElem? h) hs
  | some val =>
    obtain ⟨n, hn, rfl⟩ := survivor_numbered hs
    obtain ⟨hlt, hna⟩ := List.getElem?_eq_some_iff.mp hn
    obtain ⟨hlt', hnb⟩ := List.getElem?_eq_some_iff.mp h
    rw [(hnd.getElem_inj_iff).mp (hna.trans hnb.symm)]

/-- What the address of a name holds; nothing is held if there is no address. -/
def Function.held (f : Function) : Option Value → List Value
  | none => []
  | some ptr => storesTo f.entry ptr

/-- The function takes the parameters in their order, has an alloca for each of them and
no other, and each name finds an alloca of its type that its argument, and nothing else,
is stored to. -/
structure BindsInOrder (find : String → Option Value) (f : Function) (ps : List (String × Ty)) :
    Prop where
  types : f.params = ps.map Prod.snd
  allocas : (allocaTypes f.entry).length = ps.length
  bound : ∀ i p, ps[i]? = some p → ∃ a, find p.1 = some (.alloca a) ∧
    (allocaTypes f.entry)[a]? = some p.2 ∧ storesTo f.entry (.alloca a) = [.param i]

theorem bindingsOf_length (v : FrontEnd) (ps : List (String × Ty)) :
    (bindingsOf v ps).length = ps.length := by
  cases v with
  | c => rw [bindingsOf, List.length_reverse, argsFrom_length]
  | cpp => exact argsFrom_length _ _ _

theorem bindingsOf_nodup (v : FrontEnd) {ps : List (String × Ty)} (h : (ps.map Prod.fst).Nodup) :
    ((bindingsOf v ps).map Binding.name).Nodup := by
  cases v with
  | c => rwa [bindingsOf, List.map_reverse, List.nodup_reverse, argsFrom_names]
  | cpp => rwa [bindingsOf, argsFrom_names]

theorem exists_bindingsOf (v : FrontEnd) {ps : List (String × Ty)} {i : Nat} {p : String × Ty}
    (h : ps[i]? = some p) :
    ∃ (a : Nat) (label : String), (bindingsOf v ps)[a]? = some ⟨i, p.1, p.2, label⟩ := by
  have hmem : ∃ label, Binding.mk i p.1 p.2 label ∈ bindingsOf v ps := by
    cases v with
    | c =>
      have harg : ⟨0 + i, p.1, p.2, p.1⟩ ∈ argsFrom id 0 ps := mem_argsFrom h 0
      rw [Nat.zero_add] at harg
      exact ⟨_, List.mem_reverse.mpr harg⟩
    | cpp =>
      have harg : ⟨0 + i, p.1, p.2, ""⟩ ∈ argsFrom (fun _ => "") 0 ps :=
        mem_argsFrom h 0
      rw [Nat.zero_add] at harg
      exact ⟨_, harg⟩
  obtain ⟨label, hmem⟩ := hmem
  obtain ⟨a, ha⟩ := List.getElem?_of_mem hmem
  exact ⟨a, label, ha⟩

/-- The function is as the bindings say. -/
theorem Bound.bindsInOrder {t : State} {v : FrontEnd} {ps : List (String × Ty)}
    (hnd : (ps.map Prod.fst).Nodup) (hf : f.params = ps.map Prod.snd)
    (h : Bound hash module f outer (bindingsOf v ps) t) :
    BindsInOrder (symbolFind hash (getNamedGlobal t.module) t.scopes)
      { f with entry := bindingsCode 0 (bindingsOf v ps) } ps where
  types := hf
  allocas := by rw [allocaTypes_bindingsCode, List.length_map, bindingsOf_length]
  bound i p hp := by
    obtain ⟨a, label, ha⟩ := exists_bindingsOf v hp
    have hname : ((bindingsOf v ps).map Binding.name)[a]? = some p.1 := by
      rw [List.getElem?_map, ha]
      rfl
    refine ⟨a, ?_, ?_, ?_⟩
    · rw [symbolFind, h.scopes, getSymbolInScope, find_numbered hash (bindingsOf_nodup v hnd) hname]
    · rw [allocaTypes_bindingsCode, List.getElem?_map, ha]
      rfl
    · have hstores := storesTo_bindingsCode ha 0
      rwa [Nat.zero_add] at hstores

/-- In both versions the parameters are bound in the order of their declarations, whatever
the hash values are and however many scopes are open; so both give the same binding. -/
theorem enterFunction_bindsInOrder (hash : String → Nat) (s : State) (retType : Ty)
    (name : String) (ps : List (String × Ty)) (hnd : (ps.map Prod.fst).Nodup) :
    ∃ (t : FrontEnd → State) (f : FrontEnd → Function),
      (∀ v, ((enterFunction hash v retType name (pushParams ps)).run s).2 = some ((), t v) ∧
        (t v).module = s.module ++ [.function (f v)] ∧ (f v).retType = retType ∧
        BindsInOrder (symbolFind hash (getNamedGlobal (t v).module) (t v).scopes) (f v) ps) ∧
      ∀ p ∈ ps,
        (f .c).held (symbolFind hash (getNamedGlobal (t .c).module) (t .c).scopes p.1) =
          (f .cpp).held (symbolFind hash (getNamedGlobal (t .cpp).module) (t .cpp).scopes p.1) := by
  have hrun : ∀ v, ∃ t, ((enterFunction hash v retType name (pushParams ps)).run s).2 =
      some ((), t) ∧
      Bound hash s.module ⟨retType, name, ps.map Prod.snd, []⟩ s.scopes (bindingsOf v ps) t := by
    intro v
    have hends := enterFunction_ends hash v s retType name ps
    obtain ⟨⟨_, t⟩, ht⟩ := Option.isSome_iff_exists.mp (hends.ends.mpr trivial)
    exact ⟨t, ht, hends.leaves _ _ _ (Prod.ext rfl ht)⟩
  choose t ht hbound using hrun
  have hbinds := fun v => (hbound v).bindsInOrder hnd rfl
  refine ⟨t, fun v => ⟨retType, name, ps.map Prod.snd, bindingsCode 0 (bindingsOf v ps)⟩,
    fun v => ⟨ht v, (hbound v).objects, rfl, hbinds v⟩, fun p hp => ?_⟩
  obtain ⟨i, hi⟩ := List.getElem?_of_mem hp
  obtain ⟨a, hfind, -, hstores⟩ := (hbinds .c).bound i p hi
  obtain ⟨a', hfind', -, hstores'⟩ := (hbinds .cpp).bound i p hi
  rw [hfind, hfind']
  exact hstores.trans hstores'.symm

/-- Two parameters of the same type around one of another. -/
theorem enterFunction_bindsInOrder_three :
    ∃ (t : FrontEnd → State) (f : FrontEnd → Function),
      (∀ v, ((enterFunction Uthash.hashJen v .int32 "f"
          (pushParams [("a", .int32), ("p", .pointer .int32), ("b", .int32)])).run .initial).2 =
            some ((), t v) ∧
        (t v).module = State.initial.module ++ [.function (f v)] ∧ (f v).retType = .int32 ∧
        BindsInOrder (symbolFind Uthash.hashJen (getNamedGlobal (t v).module) (t v).scopes) (f v)
          [("a", .int32), ("p", .pointer .int32), ("b", .int32)]) ∧
      ∀ p ∈ [("a", Ty.int32), ("p", .pointer .int32), ("b", .int32)],
        (f .c).held (symbolFind Uthash.hashJen (getNamedGlobal (t .c).module) (t .c).scopes p.1) =
          (f .cpp).held
            (symbolFind Uthash.hashJen (getNamedGlobal (t .cpp).module) (t .cpp).scopes p.1) :=
  enterFunction_bindsInOrder Uthash.hashJen .initial .int32 "f"
    [("a", .int32), ("p", .pointer .int32), ("b", .int32)] (by decide)

end CourseCompilers.MiniC
