import CourseCompilers.Lib.Cfg
import Mathlib.Logic.Relation

/-! The C interface to the dominator trees and the loop nest. Four global
variables cache the analyses of one function; every entry point but one brings
them up to date before it reads them. -/

namespace CourseCompilers.Analysis
open Lib

/-- The control-flow graphs of a module. A declaration has no entry block. -/
structure Module (Function Block : Type) where
  parent : Block → Function
  entry : Function → Option Block
  succs : Block → List Block
  succs_parent : ∀ b, ∀ c ∈ succs b, parent c = parent b

/-- A node of a dominator tree. A root has no immediate dominator; the virtual
root of a postdominator tree is one without a block. -/
structure DomTreeNode (Block : Type) where
  getIDom : Option (Option Block)
  children : List Block

/-- What can be asked about a dominator or postdominator tree. -/
structure DomTree (Block : Type) where
  getNode : Block → Option (DomTreeNode Block)
  dominates : Block → Block → Bool
  isReachableFromEntry : Block → Bool
  findNearestCommonDominator : Block → Block → Option Block

/-- The blocks of each loop of the loop nest. -/
structure LoopInfo (Block : Type) where
  loops : List (List Block)

/-- The number of loops around a block. -/
def LoopInfo.getLoopDepth {Block : Type} [DecidableEq Block] (l : LoopInfo Block)
    (b : Block) : Nat :=
  l.loops.countP (b ∈ ·)

/-- The analyses of LLVM: new objects, and how they are filled. -/
structure Llvm (Function Block : Type) where
  newDomTree : DomTree Block
  newPostDomTree : DomTree Block
  newLoopInfo : LoopInfo Block
  recalculate : DomTree Block → Function → DomTree Block
  recalculatePost : DomTree Block → Function → DomTree Block
  analyze : LoopInfo Block → DomTree Block → LoopInfo Block

variable {Function Block : Type}

def Module.Edge (m : Module Function Block) (a b : Block) : Prop := b ∈ m.succs a

/-- `b` is in the natural loop of the edge back from `latch` to `header`. -/
structure Module.InLoopOf (m : Module Function Block) (b header latch : Block) : Prop where
  edge : m.Edge latch header
  reachable : ∃ e p q, m.entry (m.parent b) = some e ∧ Walk m.Edge e b p ∧ Walk m.Edge e latch q
  dominates : ∀ e, m.entry (m.parent b) = some e → Dominates m.Edge e header latch
  body : b = header ∨
    b ≠ header ∧ Relation.ReflTransGen (fun x y => m.Edge x y ∧ y ≠ header) b latch

def Module.InLoop (m : Module Function Block) (b : Block) : Prop :=
  ∃ header latch, m.InLoopOf b header latch

/-- What the interface relies on: the analyses keep nothing from an earlier
function, and the loops found are those of the function. -/
structure Llvm.Exact [DecidableEq Block] (m : Module Function Block) (L : Llvm Function Block) :
    Prop where
  recalculate : ∀ t t' F, L.recalculate t F = L.recalculate t' F
  recalculatePost : ∀ t t' F, L.recalculatePost t F = L.recalculatePost t' F
  analyze : ∀ l l' t, L.analyze l t = L.analyze l' t
  loops : ∀ l t F b, 0 < (L.analyze l (L.recalculate t F)).getLoopDepth b ↔
    m.parent b = F ∧ m.InLoop b

/-! ## The interface -/

/-- The global variables; `none` is a null pointer. -/
structure Globals (Function Block : Type) where
  Current : Option Function
  DT : Option (DomTree Block)
  PDT : Option (DomTree Block)
  LI : Option (LoopInfo Block)

/-- The variables of a fresh process. -/
def Globals.fresh : Globals Function Block := ⟨none, none, none, none⟩

/-- A call of an entry point. -/
inductive Call (Function Block : Type) where
  | dominates (Fun : Function) (a b : Block)
  | postDominates (Fun : Function) (a b : Block)
  | isReachableFromEntry (Fun : Function) (bb : Block)
  | immDom (BB : Block)
  | immPostDom (BB : Block)
  | firstDomChild (BB : Block)
  | nextDomChild (BB Child : Block)
  | nearestCommonDominator (A B : Block)
  | getLoopNestingDepth (BB : Block)

inductive Answer (Block : Type) where
  | bool (b : Bool)
  | block (b : Option Block)
  | depth (n : Nat)
  deriving DecidableEq

variable [DecidableEq Function] [DecidableEq Block] (m : Module Function Block)
  (L : Llvm Function Block)

/-- `none`: a null pointer was followed. -/
def updateDominators (F : Function) (s : Globals Function Block) :
    Option (Globals Function Block) :=
  if s.Current ≠ some F then
    let s := { s with Current := some F }
    let s := if s.DT.isNone then
        { s with
          DT := some L.newDomTree
          PDT := some L.newPostDomTree
          LI := s.LI.or (some L.newLoopInfo) }
      else s
    do
      let DT := L.recalculate (← s.DT) F
      let PDT := L.recalculatePost (← s.PDT) F
      let LI := L.analyze (← s.LI) DT
      return { s with DT := some DT, PDT := some PDT, LI := some LI }
  else some s

def immDom (t : DomTree Block) (BB : Block) : Option Block :=
  match t.getNode BB with
  | none => none
  | some node => node.getIDom.join

/-- A block outside the tree has no node to ask. -/
def immPostDom (t : DomTree Block) (BB : Block) : Option (Option Block) :=
  (t.getNode BB).map fun node => node.getIDom.join

def firstDomChild (t : DomTree Block) (BB : Block) : Option Block :=
  match t.getNode BB with
  | none => none
  | some node => node.children.head?

/-- The loop of `nextDomChild`; `next` tells that the last child was `Child`. -/
def childAfter (t : DomTree Block) (Child : Block) : Bool → List Block → Option Block
  | _, [] => none
  | true, it :: _ => some it
  | false, it :: children => childAfter t Child (it = Child && (t.getNode Child).isSome) children

def nextDomChild (t : DomTree Block) (BB Child : Block) : Option (Option Block) :=
  (t.getNode BB).map fun node => childAfter t Child false node.children

/-- Execute a call: its answer and the variables afterwards. -/
def Call.exec (s : Globals Function Block) :
    Call Function Block → Option (Answer Block × Globals Function Block)
  | .dominates Fun a b => do
      let s ← updateDominators L Fun s
      return (.bool ((← s.DT).dominates a b), s)
  | .postDominates Fun a b => do
      let s ← updateDominators L Fun s
      return (.bool ((← s.PDT).dominates a b), s)
  | .isReachableFromEntry Fun bb => do
      let s ← updateDominators L Fun s
      return (.bool ((← s.DT).isReachableFromEntry bb), s)
  | .immDom BB => do
      let s ← updateDominators L (m.parent BB) s
      return (.block (Analysis.immDom (← s.DT) BB), s)
  | .immPostDom BB => do
      let s ← updateDominators L (m.parent BB) s
      return (.block (← Analysis.immPostDom (← s.PDT) BB), s)
  | .firstDomChild BB => do
      let s ← updateDominators L (m.parent BB) s
      return (.block (Analysis.firstDomChild (← s.DT) BB), s)
  | .nextDomChild BB Child => do
      let s ← updateDominators L (m.parent BB) s
      return (.block (← Analysis.nextDomChild (← s.DT) BB Child), s)
  | .nearestCommonDominator A B => do
      let s ← updateDominators L (m.parent A) s
      return (.block ((← s.DT).findNearestCommonDominator A B), s)
  | .getLoopNestingDepth BB => do
      -- the only call that looks at `LI` and not at `Current`
      let s ← if s.LI.isNone then updateDominators L (m.parent BB) s else some s
      return (.depth ((← s.LI).getLoopDepth BB), s)

def Call.answer (s : Globals Function Block) (q : Call Function Block) : Option (Answer Block) :=
  (q.exec m L s).map Prod.fst

/-- The variables after a sequence of calls. -/
def run (s : Globals Function Block) : List (Call Function Block) → Option (Globals Function Block)
  | [] => some s
  | q :: qs => (q.exec m L s).bind fun r => run r.2 qs

/-! ## What the cache describes -/

/-- The function whose analyses a call asks for. -/
def Call.function : Call Function Block → Function
  | .dominates Fun _ _ | .postDominates Fun _ _ | .isReachableFromEntry Fun _ => Fun
  | .immDom BB | .immPostDom BB | .firstDomChild BB | .nextDomChild BB _
  | .nearestCommonDominator BB _ | .getLoopNestingDepth BB => m.parent BB

/-- The function cached after a call when `c` was cached before. -/
def Call.caches (c : Option Function) (q : Call Function Block) : Option Function :=
  match q, c with
  | .getLoopNestingDepth _, some F => some F
  | q, _ => some (q.function m)

/-- The function cached after a sequence of calls. -/
def cached (qs : List (Call Function Block)) : Option Function :=
  qs.foldl (Call.caches m) none

/-- The variables while the analyses of `c` are cached. -/
def Globals.of : Option Function → Globals Function Block
  | none => .fresh
  | some F =>
      { Current := some F
        DT := some (L.recalculate L.newDomTree F)
        PDT := some (L.recalculatePost L.newPostDomTree F)
        LI := some (L.analyze L.newLoopInfo (L.recalculate L.newDomTree F)) }

/-- What a call reads off up-to-date variables. -/
def Call.read (s : Globals Function Block) : Call Function Block → Option (Answer Block)
  | .dominates _ a b => s.DT.map fun t => .bool (t.dominates a b)
  | .postDominates _ a b => s.PDT.map fun t => .bool (t.dominates a b)
  | .isReachableFromEntry _ bb => s.DT.map fun t => .bool (t.isReachableFromEntry bb)
  | .immDom BB => s.DT.map fun t => .block (Analysis.immDom t BB)
  | .immPostDom BB => (s.PDT.bind fun t => Analysis.immPostDom t BB).map .block
  | .firstDomChild BB => s.DT.map fun t => .block (Analysis.firstDomChild t BB)
  | .nextDomChild BB Child => (s.DT.bind fun t => Analysis.nextDomChild t BB Child).map .block
  | .nearestCommonDominator A B => s.DT.map fun t => .block (t.findNearestCommonDominator A B)
  | .getLoopNestingDepth BB => s.LI.map fun l => .depth (l.getLoopDepth BB)

section
variable {m L} (hL : L.Exact m)
include hL

/-- Whatever was cached, `updateDominators` caches the function it is given. -/
theorem updateDominators_of (F : Function) (c : Option Function) :
    updateDominators L F (Globals.of L c) = some (Globals.of L (some F)) := by
  cases c with
  | none => simp [updateDominators, Globals.of, Globals.fresh]
  | some G =>
    by_cases hFG : G = F
    · subst hFG
      simp [updateDominators, Globals.of]
    · simp only [updateDominators, Globals.of, ne_eq, Option.some.injEq, hFG, not_false_eq_true,
        ↓reduceIte, Option.isNone_some, Bool.false_eq_true, Option.bind_eq_bind, Option.bind_some,
        Option.pure_def]
      rw [hL.recalculate _ L.newDomTree, hL.recalculatePost _ L.newPostDomTree,
        hL.analyze _ L.newLoopInfo]

/-- A call reads its answer off the analyses it has left in the cache. -/
theorem Call.exec_of (q : Call Function Block) (c : Option Function) :
    q.exec m L (Globals.of L c) =
      (q.read (Globals.of L (q.caches m c))).map fun a => (a, Globals.of L (q.caches m c)) := by
  cases q with
  | getLoopNestingDepth BB =>
    cases c with
    | none =>
      have hup := updateDominators_of hL (m.parent BB) none
      simp only [Call.exec, hup]
      simp [Globals.of, Globals.fresh, Call.read, Call.caches, Call.function]
    | some F => simp [Call.exec, Call.read, Call.caches, Globals.of]
  | immPostDom BB =>
    simp only [Call.exec, Call.caches, Call.function, updateDominators_of hL, Call.read]
    cases h : Analysis.immPostDom (L.recalculatePost L.newPostDomTree (m.parent BB)) BB <;>
      simp [Globals.of, h]
  | nextDomChild BB Child =>
    simp only [Call.exec, Call.caches, Call.function, updateDominators_of hL, Call.read]
    cases h : Analysis.nextDomChild (L.recalculate L.newDomTree (m.parent BB)) BB Child <;>
      simp [Globals.of, h]
  | _ =>
    simp only [Call.exec, Call.caches, Call.function, updateDominators_of hL, Call.read]
    simp [Globals.of]

theorem run_of (qs : List (Call Function Block)) (c : Option Function)
    {s : Globals Function Block} (hs : run m L (Globals.of L c) qs = some s) :
    s = Globals.of L (qs.foldl (Call.caches m) c) := by
  induction qs generalizing c with
  | nil =>
    cases hs
    rfl
  | cons q qs ih =>
    simp only [run, Call.exec_of hL, Option.bind_eq_some_iff, Option.map_eq_some_iff] at hs
    obtain ⟨_, ⟨a, _, rfl⟩, hs⟩ := hs
    exact ih _ hs

theorem Call.answer_of (q : Call Function Block) (c : Option Function) :
    q.answer m L (Globals.of L c) = q.read (Globals.of L (q.caches m c)) := by
  rw [Call.answer, Call.exec_of hL, Option.map_map]
  exact Option.map_id'

/-- The loop nest of another function knows no loop around a block. -/
theorem getLoopDepth_eq_iff (F : Function) (BB : Block) (l l' : LoopInfo Block)
    (t t' : DomTree Block) :
    (L.analyze l (L.recalculate t F)).getLoopDepth BB =
        (L.analyze l' (L.recalculate t' (m.parent BB))).getLoopDepth BB ↔
      F = m.parent BB ∨ ¬ m.InLoop BB := by
  by_cases hF : F = m.parent BB
  · subst hF
    rw [hL.analyze l l', hL.recalculate t t']
    simp
  · have hfar := hL.loops l t F BB
    have hown := hL.loops l' t' (m.parent BB) BB
    have hzero : (L.analyze l (L.recalculate t F)).getLoopDepth BB = 0 := by
      by_contra hne
      exact hF (hfar.mp (Nat.pos_of_ne_zero hne)).1.symm
    rw [hzero]
    simp only [hF, false_or, true_and] at hown ⊢
    rw [← hown]
    omega

/-- One call answers as in a fresh process unless it asks for the loop depth of a
block in a loop while another function is cached. -/
theorem Call.answer_fresh_iff (q : Call Function Block) (c : Option Function) :
    q.answer m L (Globals.of L c) = q.answer m L .fresh ↔
      ∀ BB, q = .getLoopNestingDepth BB →
        c = none ∨ c = some (m.parent BB) ∨ ¬ m.InLoop BB := by
  have hfresh := Call.answer_of hL q none
  rw [show Globals.of L none = (.fresh : Globals Function Block) from rfl] at hfresh
  rw [Call.answer_of hL, hfresh]
  cases q with
  | getLoopNestingDepth BB =>
    cases c with
    | none => simp
    | some F =>
      have hdepth := getLoopDepth_eq_iff hL F BB L.newLoopInfo L.newLoopInfo L.newDomTree
        L.newDomTree
      simpa [Call.caches, Call.read, Call.function, Globals.of] using hdepth
  | _ => simp [Call.caches, Call.function]

end

/-- All calls of a run answer as in a fresh process exactly when the loop depth of
a block in a loop is asked for only while no other function is cached. -/
theorem answers_fresh_iff (hL : L.Exact m) (qs : List (Call Function Block)) :
    (∀ before q after s, qs = before ++ q :: after → run m L .fresh before = some s →
        q.answer m L s = q.answer m L .fresh) ↔
      ∀ before BB after, qs = before ++ .getLoopNestingDepth BB :: after →
        (run m L .fresh before).isSome →
        cached m before = none ∨ cached m before = some (m.parent BB) ∨ ¬ m.InLoop BB := by
  have hstate : ∀ before s, run m L .fresh before = some s → s = Globals.of L (cached m before) :=
    fun before _ hs => run_of hL before none hs
  constructor
  · intro h before BB after hqs hrun
    obtain ⟨s, hs⟩ := Option.isSome_iff_exists.mp hrun
    have hans := h before _ after s hqs hs
    rw [hstate before s hs] at hans
    exact (Call.answer_fresh_iff hL _ _).mp hans BB rfl
  · intro h before q after s hqs hs
    rw [hstate before s hs]
    apply (Call.answer_fresh_iff hL _ _).mpr
    rintro BB rfl
    exact h before BB after hqs (by simp [hs])

/-! ## A block alone and a block that loops -/

/-- Function `false` is one block that returns, function `true` one that loops. -/
def twoFunctions : Module Bool Bool where
  parent := id
  entry := some
  succs b := if b then [true] else []
  succs_parent b c hc := by cases b <;> simp_all

/-- The analyses of functions of one block. -/
def oneBlockTree (F : Bool) : DomTree Bool where
  getNode b := if b = F then some ⟨none, []⟩ else none
  dominates a b := a = b
  isReachableFromEntry b := b = F
  findNearestCommonDominator a _ := some a

def oneBlockAnalyses : Llvm Bool Bool where
  newDomTree := oneBlockTree false
  newPostDomTree := oneBlockTree false
  newLoopInfo := ⟨[]⟩
  recalculate _ := oneBlockTree
  recalculatePost _ := oneBlockTree
  analyze _ t := if t.isReachableFromEntry true then ⟨[[true]]⟩ else ⟨[]⟩

theorem twoFunctions_inLoop_iff (b : Bool) : twoFunctions.InLoop b ↔ b = true := by
  have hedge : ∀ x y, twoFunctions.Edge x y → x = true ∧ y = true := by
    intro x y h
    cases x <;> simp_all [Module.Edge, twoFunctions]
  constructor
  · rintro ⟨header, latch, h⟩
    obtain ⟨hl, hh⟩ := hedge _ _ h.edge
    rcases h.body with hb | ⟨hne, hpath⟩
    · exact hb.trans hh
    · cases hpath.cases_head with
      | inl he => exact he.trans hl
      | inr hs =>
        obtain ⟨c, ⟨hbc, _⟩, _⟩ := hs
        exact (hedge _ _ hbc).1
  · rintro rfl
    refine ⟨true, true, by simp [Module.Edge, twoFunctions], ⟨true, _, _, rfl, .start, .start⟩, ?_,
      .inl rfl⟩
    intro e he
    exact Dominates.refl true

theorem oneBlockAnalyses_exact : oneBlockAnalyses.Exact twoFunctions where
  recalculate _ _ _ := rfl
  recalculatePost _ _ _ := rfl
  analyze _ _ _ := rfl
  loops l t F b := by
    have h : ∀ F b, 0 < (oneBlockAnalyses.analyze ⟨[]⟩ (oneBlockTree F)).getLoopDepth b ↔
        b = F ∧ b = true := by decide
    rw [twoFunctions_inLoop_iff]
    exact h F b

/-- A dominance query on the first function makes the loop of the second invisible. -/
theorem getLoopNestingDepth_stale :
    oneBlockAnalyses.Exact twoFunctions ∧
      ∃ s, run twoFunctions oneBlockAnalyses .fresh [.dominates false false false] = some s ∧
        Call.answer twoFunctions oneBlockAnalyses s (.getLoopNestingDepth true) =
          some (.depth 0) ∧
        Call.answer twoFunctions oneBlockAnalyses .fresh (.getLoopNestingDepth true) =
          some (.depth 1) :=
  ⟨oneBlockAnalyses_exact, _, rfl, by decide, by decide⟩

/-- Asking about the loop first is safe. -/
theorem answers_fresh_loop_first :
    oneBlockAnalyses.Exact twoFunctions ∧
      ∀ before q after s,
        [.getLoopNestingDepth true, .dominates false false false] = before ++ q :: after →
        run twoFunctions oneBlockAnalyses .fresh before = some s →
        Call.answer twoFunctions oneBlockAnalyses s q =
          Call.answer twoFunctions oneBlockAnalyses .fresh q := by
  refine ⟨oneBlockAnalyses_exact, (answers_fresh_iff _ _ oneBlockAnalyses_exact _).mpr ?_⟩
  rintro (_ | ⟨q, before⟩) BB after hqs -
  · exact .inl rfl
  · cases before with
    | nil => simp at hqs
    | cons q' before => simp at hqs

end CourseCompilers.Analysis
