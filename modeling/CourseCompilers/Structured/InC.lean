import CourseCompilers.Structured.Main

/-! What the programs of the third tutorial mean in C. The parser groups some expressions
in another way; where that does no harm, its function returns what the program returns
in C. -/

namespace CourseCompilers.Structured
open Lib Lib.Precedence Expressions Ir

/-! ## Runs, with any meaning of expressions -/

abbrev Meaning := Expr → Env → Option (BitVec 64)

/-- The test of `if` and `while`. -/
def Meaning.test (m : Meaning) (c : Expr) (σ : Env) : Option Bool := (m c σ).map fun x => x != 0

/-- `s.Runs m again σ σ'`: as `Stmt.Exec`, with `m` as the meaning of expressions. -/
def Stmt.Runs (m : Meaning) (again : Bool) : Stmt → Env → Env → Prop
  | .assign x e, σ, σ' => ∃ v, m e σ = some v ∧ σ' = Function.update σ x (some v)
  | .ifThen c s, σ, σ' => Once (m.test c) (s.Runs m again) σ σ'
  | .whileDo c s, σ, σ' =>
      if again then Loop (m.test c) (s.Runs m again) σ σ'
      else Once (m.test c) (s.Runs m again) σ σ'
  | .null, σ, σ' => σ' = σ
  | .seq l s, σ, σ' => ∃ ρ, l.Runs m again σ ρ ∧ s.Runs m again ρ σ'

def Program.RunsTo (m : Meaning) (again : Bool) (p : Program) (v : BitVec 64) : Prop :=
  ∃ σ, p.body.Runs m again (fun _ => none) σ ∧ m p.result σ = some v

theorem Stmt.runs_eval {again : Bool} (s : Stmt) :
    s.Runs (fun e σ => e.eval σ) again = s.Exec again := by
  induction s with
  | assign x e | null => rfl
  | ifThen c s ih | whileDo c s ih =>
    funext σ σ'
    rw [Runs, Exec, ih]
    rfl
  | seq l s ihl ihs =>
    funext σ σ'
    rw [Runs, Exec, ihl, ihs]

theorem Program.runsTo_eval {again : Bool} {p : Program} {v : BitVec 64} :
    p.RunsTo (fun e σ => e.eval σ) again v ↔ p.Yields again v := by
  rw [RunsTo, Stmt.runs_eval, Yields]

/-! ## Programs with other expressions -/

def Stmt.map (g : Expr → Expr) : Stmt → Stmt
  | .assign x e => .assign x (g e)
  | .ifThen c s => .ifThen (g c) (s.map g)
  | .whileDo c s => .whileDo (g c) (s.map g)
  | .null => .null
  | .seq l s => .seq (l.map g) (s.map g)

def Program.map (g : Expr → Expr) (p : Program) : Program := ⟨p.body.map g, g p.result⟩

/-- A condition on all expressions of a statement. -/
def Stmt.Each (C : Expr → Prop) : Stmt → Prop
  | .assign _ e => C e
  | .ifThen c s | .whileDo c s => C c ∧ s.Each C
  | .null => True
  | .seq l s => l.Each C ∧ s.Each C

def Program.Each (C : Expr → Prop) (p : Program) : Prop := p.body.Each C ∧ C p.result

instance Stmt.decEach (C : Expr → Prop) [DecidablePred C] : (s : Stmt) → Decidable (s.Each C)
  | .assign _ e => inferInstanceAs (Decidable (C e))
  | .ifThen c s | .whileDo c s =>
      have := decEach C s
      inferInstanceAs (Decidable (C c ∧ s.Each C))
  | .null => inferInstanceAs (Decidable True)
  | .seq l s =>
      have := decEach C l
      have := decEach C s
      inferInstanceAs (Decidable (l.Each C ∧ s.Each C))

instance (C : Expr → Prop) [DecidablePred C] (p : Program) : Decidable (p.Each C) :=
  inferInstanceAs (Decidable (_ ∧ _))

section
variable {g : Expr → Expr} {C D : Expr → Prop} {s : Stmt} {p : Program}

theorem Stmt.Each.mono (h : ∀ e, C e → D e) (hs : s.Each C) : s.Each D := by
  induction s with
  | assign x e => exact h e hs
  | ifThen c s ih | whileDo c s ih => exact ⟨h c hs.1, ih hs.2⟩
  | null => trivial
  | seq l s ihl ihs => exact ⟨ihl hs.1, ihs hs.2⟩

theorem Stmt.Each.and (hC : s.Each C) (hD : s.Each D) : s.Each fun e => C e ∧ D e := by
  induction s with
  | assign x e => exact ⟨hC, hD⟩
  | ifThen c s ih | whileDo c s ih => exact ⟨⟨hC.1, hD.1⟩, ih hC.2 hD.2⟩
  | null => trivial
  | seq l s ihl ihs => exact ⟨ihl hC.1 hD.1, ihs hC.2 hD.2⟩

theorem Stmt.each_map : (s.map g).Each C ↔ s.Each fun e => C (g e) := by
  induction s with
  | assign x e | null => rfl
  | ifThen c s ih | whileDo c s ih => exact and_congr_right fun _ => ih
  | seq l s ihl ihs => exact and_congr ihl ihs

theorem Stmt.declared_iff : s.Declared ↔ s.Each Expr.Declared := by
  induction s with
  | assign x e | null => rfl
  | ifThen c s ih | whileDo c s ih => exact and_congr_right fun _ => ih
  | seq l s ihl ihs => exact and_congr ihl ihs

theorem Stmt.all_iff {lit : Nat → Prop} {mulDiv : Prop} :
    s.All lit mulDiv ↔ s.Each fun e => e.All lit mulDiv := by
  induction s with
  | assign x e | null => rfl
  | ifThen c s ih | whileDo c s ih => exact and_congr_right fun _ => ih
  | seq l s ihl ihs => exact and_congr ihl ihs

theorem Stmt.each_of_forall (h : ∀ e, C e) : s.Each C := by
  induction s with
  | assign x e => exact h e
  | ifThen c s ih | whileDo c s ih => exact ⟨h c, ih⟩
  | null => trivial
  | seq l s ihl ihs => exact ⟨ihl, ihs⟩

theorem Stmt.map_eq_self (s : Stmt) : s.map id = s := by
  induction s with
  | assign x e | null => rfl
  | ifThen c s ih | whileDo c s ih => rw [map, ih, id]
  | seq l s ihl ihs => rw [map, ihl, ihs]

theorem Stmt.map_assigned : (s.map g).assigned = s.assigned := by
  induction s with
  | assign x e | null => rfl
  | ifThen c s ih | whileDo c s ih => exact ih
  | seq l s ihl ihs => rw [map, assigned, assigned, ihl, ihs]

theorem Stmt.map_tokens (hs : s.Each fun e => (g e).text = e.text) :
    (s.map g).tokens = s.tokens := by
  induction s with
  | assign x e =>
    have he : (g e).text = e.text := hs
    rw [map, tokens, tokens, he]
  | ifThen c s ih | whileDo c s ih => rw [map, tokens, tokens, hs.1, ih hs.2]
  | null => rfl
  | seq l s ihl ihs => rw [map, tokens, tokens, ihl hs.1, ihs hs.2]

theorem Stmt.map_readsAssigned {A : List String} (hs : s.Each fun e => (g e).reads = e.reads)
    (h : s.ReadsAssigned A) : (s.map g).ReadsAssigned A := by
  induction s generalizing A with
  | assign x e =>
    have he : (g e).reads = e.reads := hs
    intro y hy
    rw [he] at hy
    exact h y hy
  | ifThen c s ih | whileDo c s ih =>
    refine ⟨fun y hy => ?_, ih hs.2 h.2⟩
    rw [hs.1] at hy
    exact h.1 y hy
  | null => trivial
  | seq l s ihl ihs =>
    refine ⟨ihl hs.1 h.1, ?_⟩
    rw [map_assigned]
    exact ihs hs.2 h.2

theorem Stmt.map_firstAtTop {A : List String} (h : s.FirstAtTop A) : (s.map g).FirstAtTop A := by
  induction s generalizing A with
  | assign x e | null => trivial
  | ifThen c s ih | whileDo c s ih =>
    intro y hy
    rw [map_assigned] at hy
    exact h y hy
  | seq l s ihl ihs =>
    refine ⟨ihl h.1, ?_⟩
    rw [map_assigned]
    exact ihs h.2

/-- Runs carry over to expressions that mean at least as much. -/
theorem Stmt.Runs.map {m m' : Meaning} {again : Bool}
    (hs : s.Each fun e => ∀ σ v, m e σ = some v → m' (g e) σ = some v) {σ σ' : Env}
    (h : s.Runs m again σ σ') : (s.map g).Runs m' again σ σ' := by
  have htest : ∀ {c : Expr}, (∀ σ v, m c σ = some v → m' (g c) σ = some v) →
      ∀ σ b, m.test c σ = some b → m'.test (g c) σ = some b := by
    intro c hc σ b hb
    obtain ⟨v, hv, rfl⟩ := Option.map_eq_some_iff.mp hb
    exact Option.map_eq_some_iff.mpr ⟨v, hc σ v hv, rfl⟩
  induction s generalizing σ σ' with
  | assign x e =>
    obtain ⟨v, hv, rfl⟩ := h
    exact ⟨v, hs σ v hv, rfl⟩
  | ifThen c s ih => exact Once.mono (htest hs.1) (fun _ _ => ih hs.2) h
  | whileDo c s ih =>
    cases again with
    | true => exact Loop.mono (htest hs.1) (fun _ _ => ih hs.2) h
    | false => exact Once.mono (htest hs.1) (fun _ _ => ih hs.2) h
  | null => exact h
  | seq l s ihl ihs =>
    obtain ⟨ρ, hl, hr⟩ := h
    exact ⟨ρ, ihl hs.1 hl, ihs hs.2 hr⟩

theorem Program.RunsTo.map {m m' : Meaning} {again : Bool} {v : BitVec 64}
    (hp : p.Each fun e => ∀ σ v, m e σ = some v → m' (g e) σ = some v)
    (h : p.RunsTo m again v) : (p.map g).RunsTo m' again v := by
  obtain ⟨σ, hbody, hv⟩ := h
  exact ⟨σ, hbody.map hp.1, hp.2 σ v hv⟩

end

/-! ## Expressions in C -/

/-- The values of the variables, those that have none taken as 0. -/
def Env.total (σ : Env) (x : String) : BitVec 64 := (σ x).getD 0

def Expr.Known (σ : Env) (e : Expr) : Prop := ∀ x ∈ e.reads, (σ x).isSome

instance (σ : Env) (e : Expr) : Decidable (e.Known σ) :=
  inferInstanceAs (Decidable (∀ x ∈ e.reads, (σ x).isSome))

/-- The value in C: none if a variable has no value, or the evaluation is undefined. -/
def Expr.evalC : Meaning := fun e σ =>
  if e.Known σ then
    (valueC prefixes (Leaf.value (Env.total σ)) e.tree).map (BitVec.ofInt 64)
  else none

/-- The value in C where no operator of the parser's grouping takes in more, or only a sign
does, harmlessly. -/
def Expr.evalHarmless : Meaning := fun e σ =>
  if Harmless prefixes (Leaf.value (Env.total σ)) e.tree then evalC e σ else none

/-- The expression is grouped as in C. -/
def Expr.InC (e : Expr) : Prop := e.tree.Fits levels 0

instance : DecidablePred Expr.InC := fun e => inferInstanceAs (Decidable (e.tree.Fits levels 0))

/-- The expression that the parser reads in the text of another. -/
def Expr.reread (e : Expr) : Expr := toExpr (e.tree.regroup resolution)

theorem Expr.parse_text {e : Expr} (h : e.InC) :
    parseExpr e.text = some (e.tree.regroup resolution) :=
  Reads.parse_eq resolution_declared.respects ⟨h, rfl⟩

theorem Expr.reread_text {e : Expr} (h : e.InC) : e.reread.text = e.text := by
  rw [reread, text_toExpr]
  exact parse_tokens (parse_text h)

theorem Expr.reread_declared {e : Expr} (h : e.InC) : e.reread.Declared := by
  rw [Declared, reread_text h, reread, tree_toExpr]
  exact parse_text h

/-- The variable of an `ID`. -/
def nameOf : Token Symbol Leaf → Option String
  | .atom (.id x) => some x
  | _ => none

theorem Expr.reads_eq (e : Expr) : e.reads = e.text.filterMap nameOf := by
  induction e with
  | immediate n | id x => rfl
  | plus a b iha ihb | minus a b iha ihb | multiply a b iha ihb | divide a b iha ihb =>
    simp only [text, tree, Tree.tokens, List.filterMap_append] at iha ihb ⊢
    rw [reads, iha, ihb]
    rfl
  | paren a ih =>
    have htext : (Expr.paren a).text = .lparen :: (a.text ++ [.rparen]) := rfl
    rw [reads, ih, htext, List.filterMap_cons_none rfl, List.filterMap_append]
    exact (List.append_nil _).symm
  | neg a ih | not a ih => exact ih

theorem Expr.reread_reads {e : Expr} (h : e.InC) : e.reread.reads = e.reads := by
  rw [reads_eq, reread_text h, ← reads_eq]

/-- A token that the code is right for. -/
def Allowed (mulDiv : Prop) : Token Symbol Leaf → Prop
  | .atom (.immediate n) => n.toNat < 2 ^ 31
  | .op .multiply | .op .divide => mulDiv
  | _ => True

theorem Expr.allowed {mulDiv : Prop} {e : Expr} (h : e.All (· < 2 ^ 31) mulDiv) :
    ∀ t ∈ e.tree.tokens spelling, Allowed mulDiv t := by
  induction e with
  | immediate n =>
    have hn : n < 2 ^ 31 := h
    have hatoi : (atoi n).toNat = n := by
      rw [atoi, Nat.min_eq_left (by omega), BitVec.toNat_ofNat, Nat.mod_eq_of_lt (by omega)]
    exact List.forall_mem_singleton.mpr (hatoi.trans_lt hn)
  | id x => exact List.forall_mem_singleton.mpr trivial
  | plus a b iha ihb | minus a b iha ihb =>
    rw [tree, Tree.tokens, List.forall_mem_append, List.forall_mem_cons]
    exact ⟨iha h.1, trivial, ihb h.2⟩
  | multiply a b iha ihb | divide a b iha ihb =>
    rw [tree, Tree.tokens, List.forall_mem_append, List.forall_mem_cons]
    exact ⟨iha h.2.1, h.1, ihb h.2.2⟩
  | paren a ih =>
    rw [tree, Tree.tokens, List.forall_mem_cons, List.forall_mem_append,
      List.forall_mem_singleton]
    exact ⟨trivial, ih h, trivial⟩
  | neg a ih | not a ih =>
    rw [tree, Tree.tokens, List.forall_mem_cons]
    exact ⟨trivial, ih h⟩

theorem all_toExpr {mulDiv : Prop} {t : Tree Expressions.Binary Unary Leaf}
    (h : ∀ x ∈ t.tokens spelling, Allowed mulDiv x) : (toExpr t).All (· < 2 ^ 31) mulDiv := by
  induction t with
  | atom a =>
    cases a with
    | immediate n => exact h _ List.mem_cons_self
    | id x => trivial
  | paren e ih =>
    rw [Tree.tokens, List.forall_mem_cons, List.forall_mem_append] at h
    exact ih h.2.1
  | pre u e ih =>
    rw [Tree.tokens, List.forall_mem_cons] at h
    cases u <;> exact ih h.2
  | bin o l r ihl ihr =>
    rw [Tree.tokens, List.forall_mem_append, List.forall_mem_cons] at h
    obtain ⟨hl, ho, hr⟩ := h
    cases o with
    | plus | minus => exact ⟨ihl hl, ihr hr⟩
    | multiply | divide => exact ⟨ho, ihl hl, ihr hr⟩

theorem Expr.reread_all {mulDiv : Prop} {e : Expr} (h : e.InC)
    (ha : e.All (· < 2 ^ 31) mulDiv) : e.reread.All (· < 2 ^ 31) mulDiv := by
  refine all_toExpr ?_
  rw [parse_tokens (parse_text h)]
  exact allowed ha

theorem Expr.All.literals {mulDiv : Prop} {e : Expr} (h : e.All (· < 2 ^ 31) mulDiv) :
    e.All (· < 2 ^ 31) True := by
  induction e with
  | immediate n => exact h
  | id x => trivial
  | plus a b iha ihb | minus a b iha ihb => exact ⟨iha h.1, ihb h.2⟩
  | multiply a b iha ihb | divide a b iha ihb => exact ⟨trivial, iha h.2.1, ihb h.2.2⟩
  | paren a ih | neg a ih | not a ih => exact ih h

theorem Expr.Known.eval_eq {e : Expr} {σ : Env} (h : e.Known σ) :
    e.eval σ = e.eval fun x => some (σ.total x) := by
  refine eval_congr fun x hx => ?_
  obtain ⟨v, hv⟩ := Option.isSome_iff_exists.mp (h x hx)
  rw [Env.total, hv, Option.getD_some]

/-- Where the regrouping does no harm the parser's expression has the value in C. -/
theorem Expr.reread_eval {e : Expr} (h : e.InC) (ha : e.All (· < 2 ^ 31) True) {σ : Env}
    {v : BitVec 64} (hv : e.evalHarmless σ = some v) : e.reread.eval σ = some v := by
  rw [evalHarmless] at hv
  split at hv
  · next hharmless =>
    rw [evalC] at hv
    split at hv
    · next hknown =>
      obtain ⟨n, hn, rfl⟩ := Option.map_eq_some_iff.mp hv
      have hvalue := (Harmless.value_and_scale (by decide) (fun h => h) resolution_declared h
        hharmless hn).1
      have hknown' : e.reread.Known σ := by rwa [Known, reread_reads h]
      rw [hknown'.eval_eq]
      exact (eval_toExpr σ.total (reread_all h ha)).trans hvalue
    · cases hv
  · cases hv

theorem Expr.evalC_of_harmless {e : Expr} {σ : Env} {v : BitVec 64}
    (h : e.evalHarmless σ = some v) : e.evalC σ = some v := by
  rw [evalHarmless] at h
  split at h
  · exact h
  · cases h

/-! ## Programs in C -/

/-- The program that the parser reads in the text of another. -/
def Program.reread (p : Program) : Program := p.map Expr.reread

section
variable {p : Program} (h : p.Each Expr.InC)
include h

theorem Program.reread_tokens : p.reread.tokens = p.tokens := by
  have hbody : (p.body.map Expr.reread).tokens = p.body.tokens :=
    Stmt.map_tokens (h.1.mono fun _ => Expr.reread_text)
  rw [reread, map, tokens, tokens, hbody, Expr.reread_text h.2]

theorem Program.reread_declared : p.reread.Declared :=
  ⟨Stmt.declared_iff.mpr (Stmt.each_map.mpr (h.1.mono fun _ => Expr.reread_declared)),
    Expr.reread_declared h.2⟩

theorem Program.reread_readsAssigned (hr : p.ReadsAssigned) : p.reread.ReadsAssigned := by
  refine ⟨Stmt.map_readsAssigned (h.1.mono fun _ => Expr.reread_reads) hr.1, ?_⟩
  intro x hx
  rw [reread, map, Stmt.map_assigned]
  rw [reread, map, Expr.reread_reads h.2] at hx
  exact hr.2 x hx

end

section
variable {p : Program} {mulDiv : Prop} (h : p.Each Expr.InC) (ha : p.All (· < 2 ^ 31) mulDiv)
include h ha

theorem Program.reread_all : p.reread.All (· < 2 ^ 31) mulDiv := by
  have hbody := h.1.and (Stmt.all_iff.mp ha.1)
  refine ⟨Stmt.all_iff.mpr (Stmt.each_map.mpr ?_), Expr.reread_all h.2 ha.2⟩
  exact hbody.mono fun _ he => Expr.reread_all he.1 he.2

theorem Program.reread_yields {again : Bool} {v : BitVec 64}
    (hv : p.RunsTo Expr.evalHarmless again v) : p.reread.Yields again v := by
  have heval : ∀ e : Expr, e.InC ∧ e.All (· < 2 ^ 31) mulDiv →
      ∀ σ v, e.evalHarmless σ = some v → e.reread.eval σ = some v :=
    fun e he σ v => Expr.reread_eval he.1 he.2.literals
  have hbody := h.1.and (Stmt.all_iff.mp ha.1)
  rw [← runsTo_eval]
  exact RunsTo.map ⟨hbody.mono heval, heval _ ⟨h.2, ha.2⟩⟩ hv

end

/-- A run without harmful regrouping is one in C. -/
theorem Program.RunsTo.inC {p : Program} {again : Bool} {v : BitVec 64}
    (h : p.RunsTo Expr.evalHarmless again v) : p.RunsTo Expr.evalC again v := by
  have hmono : ∀ e : Expr, ∀ σ v, e.evalHarmless σ = some v → (id e).evalC σ = some v :=
    fun e σ v => Expr.evalC_of_harmless
  have hall : p.Each fun e => ∀ σ v, e.evalHarmless σ = some v → (id e).evalC σ = some v :=
    ⟨Stmt.each_of_forall hmono, hmono _⟩
  have hid : p.map id = p := congrArg (Program.mk · p.result) (Stmt.map_eq_self p.body)
  exact hid ▸ h.map hall

/-- A text that spells a program as C groups it is compiled to a function that returns what
the program returns in C, if no evaluation on the way meets a regrouping that does harm; in
the version without a back edge, with every `while` read as an `if`. -/
theorem main_returns_C (F : Folder) (V : Version) {cs rest : List Char} {p : Program}
    (h : Spells cs p.tokens rest) (hc : p.Each Expr.InC) (hr : p.ReadsAssigned)
    (hf : p.FirstAtTop) (ha : p.All (· < 2 ^ 31) (V.mulDiv = true)) :
    ∃ f, main F V cs = .ok f ∧ ∀ words v, p.RunsTo Expr.evalHarmless V.backEdge v →
      p.RunsTo Expr.evalC V.backEdge v ∧ f.Returns words (.i64 v) := by
  rw [← Program.reread_tokens hc] at h
  obtain ⟨f, hcompile, hreturns, _⟩ := p.reread.compile_yields F
    (Program.reread_readsAssigned hc hr) (Stmt.map_firstAtTop hf) (Program.reread_all hc ha)
  refine ⟨f, ?_, fun words v hv => ⟨hv.inC, ?_⟩⟩
  · rw [main_of_spells h (Program.reread_declared hc), hcompile]
    rfl
  · exact hreturns words v (Program.reread_yields hc ha hv)

/-- `return -a * b / 3 + !(a - b);`, which is regrouped. -/
def regrouped : Program :=
  ⟨.seq (.assign "a" (.immediate 7)) (.assign "b" (.immediate 5)),
    .plus (.divide (.multiply (.neg (.id "a")) (.id "b")) (.immediate 3))
      (.not (.paren (.minus (.id "a") (.id "b"))))⟩

def regroupedText : List Char := "\x7ba=7; b=5; return -a * b / 3 + !(a - b);\x7d".toList

theorem main_returns_C_regrouped :
    regrouped.reread ≠ regrouped ∧
      ∃ f, main .constants .cpp regroupedText = .ok f ∧
        ∀ words, f.Returns words (.i64 (BitVec.ofInt 64 (-11))) := by
  have hscan : scan 0 regroupedText = regrouped.tokens ++ [] := by decide +kernel
  obtain ⟨rest, hspells⟩ := spells_of_scan hscan
  obtain ⟨f, hmain, hreturns⟩ := main_returns_C .constants .cpp hspells (by decide) (by decide)
    (by decide) ⟨⟨by decide, by decide⟩, by decide⟩
  have hruns : regrouped.RunsTo Expr.evalHarmless false (BitVec.ofInt 64 (-11)) :=
    ⟨_, ⟨_, ⟨7, by decide +kernel, rfl⟩, ⟨5, by decide +kernel, rfl⟩⟩, by decide +kernel⟩
  exact ⟨by decide, f, hmain, fun words => (hreturns words _ hruns).2⟩

end CourseCompilers.Structured
