import CourseCompilers.Analysis.Dominance
import CourseCompilers.Lib.Cursor
import CourseCompilers.Lib.Forest
import CourseCompilers.Lib.Runs

/-! The walk over a dominator tree that the interface is made for: visit a block,
then walk from each of its children. Other calls may be made between any two steps
of the walk and make the cache describe another function. -/

namespace CourseCompilers.Analysis
open Lib

variable {Function Block : Type}

def Module.Reachable (m : Module Function Block) (e b : Block) : Prop := ∃ p, Walk m.Edge e b p

/-- The tree has a node for each block of the forest, with the children it has there. -/
def DomTree.Describes (t : DomTree Block) (f : Forest Block) : Prop :=
  f.All fun b children => ∃ idom, t.getNode b = some ⟨idom, children⟩

/-- What the walk relies on: `recalculate` keeps nothing from an earlier function
and builds a tree of the reachable blocks, with the entry as its root. -/
structure Llvm.BuildsTrees (m : Module Function Block) (L : Llvm Function Block) : Prop where
  recalculate : ∀ t t' F, L.recalculate t F = L.recalculate t' F
  tree : ∀ t F e, m.entry F = some e → ∃ children : Forest Block,
    (L.recalculate t F).Describes (.cons e children .nil) ∧
      (e :: children.preorder).Nodup ∧ ∀ b, b ∈ e :: children.preorder ↔ m.Reachable e b

/-- What is left to do of an activation of the walk. -/
inductive Frame (Block : Type) where
  /-- Start the walk from `B`. -/
  | call (B : Block)
  /-- In the loop over the children of `B`, of which `C` is at hand or none is left. -/
  | loop (B : Block) (C : Option Block)
  /-- Back in the loop over the children of `B` from the walk from `C`. -/
  | back (B C : Block)

structure Walker (Function Block : Type) where
  vars : Globals Function Block
  stack : List (Frame Block)
  visited : List Block

variable [DecidableEq Function] [DecidableEq Block] (m : Module Function Block)
  (L : Llvm Function Block)

/-- `none`: a null pointer was followed. -/
def Walker.next (w : Walker Function Block) : Option (Walker Function Block) :=
  match w.stack with
  | [] => some w
  | .call B :: stack => do
      let (.block C, s) ← Call.exec m L w.vars (.firstDomChild B) | none
      return ⟨s, .loop B C :: stack, w.visited ++ [B]⟩
  | .loop _ none :: stack => some { w with stack := stack }
  | .loop B (some C) :: stack => some { w with stack := .call C :: .back B C :: stack }
  | .back B C :: stack => do
      let (.block D, s) ← Call.exec m L w.vars (.nextDomChild B C) | none
      return ⟨s, .loop B D :: stack, w.visited⟩

/-- One step of the walk, after any other calls. -/
inductive WalkerStep : Option (Walker Function Block) → Option (Walker Function Block) → Prop
  | step {w : Walker Function Block} {qs : List (Call Function Block)}
      {s : Globals Function Block} : w.stack ≠ [] → run m L w.vars qs = some s →
      WalkerStep (some w) (Walker.next m L { w with vars := s })

/-- The tree in the variables is that of the current function. -/
def Globals.Cached (s : Globals Function Block) : Prop :=
  match s.Current with
  | none => s.DT = none
  | some F => s.DT = some (L.recalculate L.newDomTree F) ∧ s.PDT.isSome ∧ s.LI.isSome

section
variable {m L} (hL : L.BuildsTrees m)
include hL

omit [DecidableEq Block] in
theorem updateDominators_cached (F : Function) {s : Globals Function Block} (hs : s.Cached L) :
    ∃ s', updateDominators L F s = some s' ∧ s'.Cached L ∧ s'.Current = some F := by
  obtain ⟨c, DT, PDT, LI⟩ := s
  cases c with
  | none =>
    obtain rfl : DT = none := hs
    simp [updateDominators, Globals.Cached, hL.recalculate _ L.newDomTree]
  | some G =>
    obtain ⟨rfl, hPDT, hLI⟩ := hs
    obtain ⟨PDT, rfl⟩ := Option.isSome_iff_exists.mp hPDT
    obtain ⟨LI, rfl⟩ := Option.isSome_iff_exists.mp hLI
    by_cases hFG : G = F
    · subst hFG
      simp [updateDominators, Globals.Cached]
    · simp [updateDominators, Globals.Cached, hFG, hL.recalculate _ L.newDomTree]

omit hL in
/-- A call leaves the variables alone or brings them up to date. -/
theorem Call.exec_vars {q : Call Function Block} {s s' : Globals Function Block} {a : Answer Block}
    (h : q.exec m L s = some (a, s')) :
    s' = s ∨ updateDominators L (q.function m) s = some s' := by
  cases q with
  | getLoopNestingDepth BB =>
    by_cases hLI : s.LI.isNone
    · simp only [Call.exec, hLI, if_true, Option.bind_eq_bind, Option.bind_eq_some_iff] at h
      obtain ⟨u, hu, l, _, heq⟩ := h
      cases heq
      exact .inr hu
    · simp only [Call.exec, hLI] at h
      simp only [Bool.false_eq_true, if_false, Option.bind_eq_bind, Option.bind_some,
        Option.bind_eq_some_iff] at h
      obtain ⟨l, _, heq⟩ := h
      cases heq
      exact .inl rfl
  | immPostDom BB | nextDomChild BB Child =>
    simp only [Call.exec, Option.bind_eq_bind, Option.bind_eq_some_iff] at h
    obtain ⟨u, hu, t, _, d, _, heq⟩ := h
    cases heq
    exact .inr hu
  | _ =>
    simp only [Call.exec, Option.bind_eq_bind, Option.bind_eq_some_iff] at h
    obtain ⟨u, hu, t, _, heq⟩ := h
    cases heq
    exact .inr hu

theorem Call.exec_cached {q : Call Function Block} {s s' : Globals Function Block}
    {a : Answer Block} (h : q.exec m L s = some (a, s')) (hs : s.Cached L) : s'.Cached L := by
  rcases Call.exec_vars h with rfl | hup
  · exact hs
  · obtain ⟨u, hu, hcached, _⟩ := updateDominators_cached hL (q.function m) hs
    cases hup.symm.trans hu
    exact hcached

theorem run_cached {qs : List (Call Function Block)} {s s' : Globals Function Block}
    (h : run m L s qs = some s') (hs : s.Cached L) : s'.Cached L := by
  induction qs generalizing s with
  | nil =>
    cases h
    exact hs
  | cons q qs ih =>
    simp only [run, Option.bind_eq_some_iff] at h
    obtain ⟨⟨a, u⟩, hu, hrun⟩ := h
    exact ih hrun (Call.exec_cached hL hu hs)

/-- Whatever is cached, a query reads the tree of the block's own function. -/
theorem exec_firstDomChild (BB : Block) {s : Globals Function Block} (hs : s.Cached L) :
    ∃ s', s'.Cached L ∧ Call.exec m L s (.firstDomChild BB) =
      some (.block (firstDomChild (L.recalculate L.newDomTree (m.parent BB)) BB), s') := by
  obtain ⟨u, hu, hcached, hcur⟩ := updateDominators_cached hL (m.parent BB) hs
  have hDT := hcached
  rw [Globals.Cached, hcur] at hDT
  exact ⟨u, hcached, by simp [Call.exec, hu, hDT.1]⟩

theorem exec_nextDomChild (BB Child : Block) {s : Globals Function Block} (hs : s.Cached L) :
    ∃ s', s'.Cached L ∧ Call.exec m L s (.nextDomChild BB Child) =
      (nextDomChild (L.recalculate L.newDomTree (m.parent BB)) BB Child).map
        fun C => (.block C, s') := by
  obtain ⟨u, hu, hcached, hcur⟩ := updateDominators_cached hL (m.parent BB) hs
  have hDT := hcached
  rw [Globals.Cached, hcur] at hDT
  refine ⟨u, hcached, ?_⟩
  simp only [Call.exec, hu, hDT.1, Option.bind_eq_bind, Option.bind_some]
  cases nextDomChild (L.recalculate L.newDomTree (m.parent BB)) BB Child <;> rfl

/-- To follow the walk from a state with work left, follow it from the states after
the next step. -/
theorem walker_next {q : Option (Walker Function Block) → Prop} {w : Walker Function Block}
    (hw : w.vars.Cached L) (hne : w.stack ≠ [])
    (h : ∀ s : Globals Function Block, s.Cached L →
      Ends (WalkerStep m L) q (Walker.next m L { w with vars := s })) :
    Ends (WalkerStep m L) q (some w) := by
  have hcall : run m L w.vars [] = some w.vars := rfl
  refine .intro ?_ fun hstuck => absurd (.step hne hcall) (hstuck _)
  rintro _ ⟨_, hrun⟩
  exact h _ (run_cached hL hrun hw)

end

omit [DecidableEq Function] in
/-- With a node for the last child, its successor among the children is found. -/
theorem childAfter_eq_nextAfter {t : DomTree Block} {C : Block} (hC : (t.getNode C).isSome)
    (flag : Bool) (l : List Block) : childAfter t C flag l = nextAfter C flag l := by
  induction l generalizing flag with
  | nil => cases flag <;> rfl
  | cons it l ih =>
    cases flag with
    | true => rfl
    | false => rw [childAfter, nextAfter, hC, Bool.and_true, ih]

section
variable {m L} (hL : L.BuildsTrees m) {F : Function}
  {q : Option (Walker Function Block) → Prop} {stack : List (Frame Block)} {visited : List Block}
include hL

theorem walker_call {C : Block} {idom : Option (Option Block)} {children : List Block}
    (hC : (L.recalculate L.newDomTree F).getNode C = some ⟨idom, children⟩) (hF : m.parent C = F)
    (hloop : ∀ s : Globals Function Block, s.Cached L →
      Ends (WalkerStep m L) q (some ⟨s, .loop C children.head? :: stack, visited ++ [C]⟩))
    {s : Globals Function Block} (hs : s.Cached L) :
    Ends (WalkerStep m L) q (some ⟨s, .call C :: stack, visited⟩) := by
  subst hF
  refine walker_next hL hs (List.cons_ne_nil _ _) fun s hs => ?_
  obtain ⟨s', hs', hexec⟩ := exec_firstDomChild hL C hs
  rw [firstDomChild, hC] at hexec
  simp only [Walker.next, hexec]
  exact hloop s' hs'

theorem walker_back {B C : Block} {idom : Option (Option Block)} {before after : List Block}
    (hB : (L.recalculate L.newDomTree F).getNode B = some ⟨idom, before ++ C :: after⟩)
    (hF : m.parent B = F) (hC : ((L.recalculate L.newDomTree F).getNode C).isSome)
    (hbefore : C ∉ before)
    (hloop : ∀ s : Globals Function Block, s.Cached L →
      Ends (WalkerStep m L) q (some ⟨s, .loop B after.head? :: stack, visited⟩))
    {s : Globals Function Block} (hs : s.Cached L) :
    Ends (WalkerStep m L) q (some ⟨s, .back B C :: stack, visited⟩) := by
  subst hF
  refine walker_next hL hs (List.cons_ne_nil _ _) fun s hs => ?_
  obtain ⟨s', hs', hexec⟩ := exec_nextDomChild hL B C hs
  rw [nextDomChild, hB, Option.map_some, Option.map_some, childAfter_eq_nextAfter hC,
    nextAfter_append hbefore] at hexec
  simp only [Walker.next, hexec]
  exact hloop s' hs'

/-- The loop over the last children of a block visits the trees below them in
preorder. The induction is on these trees, with whatever the walk does afterwards. -/
theorem walker_loop {below : Forest Block}
    (hbelow : (L.recalculate L.newDomTree F).Describes below) (hnodup : below.preorder.Nodup)
    (hparent : ∀ b ∈ below.preorder, m.parent b = F) {B : Block} {idom : Option (Option Block)}
    {before : List Block}
    (hB : (L.recalculate L.newDomTree F).getNode B = some ⟨idom, before ++ below.roots⟩)
    (hF : m.parent B = F) (hchildren : (before ++ below.roots).Nodup)
    (hafter : ∀ s : Globals Function Block, s.Cached L →
      Ends (WalkerStep m L) q (some ⟨s, stack, visited ++ below.preorder⟩))
    {s : Globals Function Block} (hs : s.Cached L) :
    Ends (WalkerStep m L) q (some ⟨s, .loop B below.roots.head? :: stack, visited⟩) := by
  induction below generalizing B idom before stack visited s with
  | nil =>
    refine walker_next hL hs (List.cons_ne_nil _ _) fun s hs => ?_
    have hend := hafter s hs
    rw [Forest.preorder, List.append_nil] at hend
    exact hend
  | cons C children siblings ihc ihs =>
    obtain ⟨⟨idomC, hC⟩, hchild, hsib⟩ := hbelow
    simp only [Forest.preorder, List.nodup_cons, List.mem_append, not_or, List.nodup_append,
      List.mem_cons] at hnodup hparent
    obtain ⟨_, hnodupc, hnodups, _⟩ := hnodup
    have hCbefore : C ∉ before := fun hmem =>
      (List.nodup_append.mp hchildren).2.2 C hmem C List.mem_cons_self rfl
    refine walker_next hL hs (List.cons_ne_nil _ _) fun s hs => ?_
    refine walker_call hL hC (hparent C (.inl rfl)) (fun s hs => ?_) hs
    have hCnode : (L.recalculate L.newDomTree F).getNode C =
        some ⟨idomC, [] ++ children.roots⟩ := hC
    refine ihc hchild hnodupc (fun b hb => hparent b (.inr (.inl hb))) hCnode
      (hparent C (.inl rfl)) (hnodupc.sublist children.roots_sublist) (fun s hs => ?_) hs
    refine walker_back hL hB hF (by simp [hC]) hCbefore (fun s hs => ?_) hs
    have hBnode : (L.recalculate L.newDomTree F).getNode B =
        some ⟨idom, before ++ [C] ++ siblings.roots⟩ := by simpa [Forest.roots] using hB
    refine ihs hsib hnodups (fun b hb => hparent b (.inr (.inr hb))) hBnode hF
      (by simpa [Forest.roots] using hchildren)
      (fun s hs => ?_) hs
    have hend := hafter s hs
    rw [Forest.preorder] at hend
    simpa using hend

omit hL [DecidableEq Function] [DecidableEq Block] in
theorem Module.Reachable.parent_eq {e b : Block} (h : m.Reachable e b) :
    m.parent b = m.parent e := by
  obtain ⟨p, hp⟩ := h
  induction hp with
  | start => rfl
  | step _ hedge ih => exact (m.succs_parent _ _ hedge).trans ih

end

/-- The walk from the entry of a function, whatever was called before and whatever
is called in between, ends after it has visited each reachable block once. -/
theorem domWalk_visits_once (hL : L.BuildsTrees m) {e : Block}
    (he : m.entry (m.parent e) = some e) (qs : List (Call Function Block))
    {s : Globals Function Block} (hs : run m L .fresh qs = some s) :
    Ends (WalkerStep m L)
      (fun w => ∃ s visited, w = some ⟨s, [], visited⟩ ∧ visited.Nodup ∧
        ∀ b, b ∈ visited ↔ m.Reachable e b)
      (some ⟨s, [.call e], []⟩) := by
  obtain ⟨children, ⟨⟨idom, hnode⟩, hbelow, _⟩, hnodup, hreach⟩ := hL.tree L.newDomTree _ e he
  have hnodupc := (List.nodup_cons.mp hnodup).2
  have hparent : ∀ b ∈ children.preorder, m.parent b = m.parent e := fun b hb =>
    ((hreach b).mp (List.mem_cons_of_mem e hb)).parent_eq
  refine walker_call hL hnode rfl (fun s hs => ?_) (run_cached hL hs rfl)
  have henode : (L.recalculate L.newDomTree (m.parent e)).getNode e =
      some ⟨idom, [] ++ children.roots⟩ := hnode
  refine walker_loop hL hbelow hnodupc hparent henode rfl
    (hnodupc.sublist children.roots_sublist) (fun s hs => ?_) hs
  refine .intro (fun _ hstep => ?_) fun _ =>
    ⟨s, _, rfl, by simpa using hnodup, by simpa using hreach⟩
  obtain ⟨hne, _⟩ := hstep
  exact absurd rfl hne

/-! ## A diamond and a block of another function -/

/-- Block `0` branches to `1` and `2`, which meet in `3`; block `4` is a function. -/
def diamond : Module Bool (Fin 5) where
  parent b := b == 4
  entry F := some (if F then 4 else 0)
  succs b := ([[1, 2], [3], [3], [], []] : List (List (Fin 5)))[b]
  succs_parent := by decide

/-- The tree of one of the functions, where `root` dominates the diamond. -/
def diamondTree (root : Fin 5) (rootIDom : Option (Option (Fin 5))) (F : Bool) :
    DomTree (Fin 5) where
  getNode b :=
    if diamond.parent b ≠ F then none
    else if b = root ∨ F then some ⟨rootIDom, [0, 1, 2, 3].filter fun c => !F && c ≠ root⟩
    else some ⟨some (some root), []⟩
  dominates a b := a = b ∨ a = root
  isReachableFromEntry b := diamond.parent b = F
  findNearestCommonDominator a b := some (if a = b then a else root)

def diamondAnalyses : Llvm Bool (Fin 5) where
  newDomTree := diamondTree 0 none false
  newPostDomTree := diamondTree 3 (some none) false
  newLoopInfo := ⟨[]⟩
  recalculate _ := diamondTree 0 none
  recalculatePost _ := diamondTree 3 (some none)
  analyze _ _ := ⟨[]⟩

theorem diamond_reachable_iff (F : Bool) (b : Fin 5) :
    diamond.Reachable (if F then 4 else 0) b ↔ diamond.parent b = F := by
  constructor
  · intro h
    rw [h.parent_eq]
    cases F <;> rfl
  · rintro rfl
    have hedge : diamond.Edge 0 1 ∧ diamond.Edge 0 2 ∧ diamond.Edge 1 3 := by
      simp [Module.Edge, diamond]
    have hone : Walk diamond.Edge 0 1 [1, 0] := .step .start hedge.1
    have hb : b = 0 ∨ b = 1 ∨ b = 2 ∨ b = 3 ∨ b = 4 := by omega
    rcases hb with rfl | rfl | rfl | rfl | rfl
    · exact ⟨_, .start⟩
    · exact ⟨_, hone⟩
    · exact ⟨_, .step .start hedge.2.1⟩
    · exact ⟨_, .step hone hedge.2.2⟩
    · exact ⟨_, .start⟩

theorem diamondAnalyses_buildsTrees : diamondAnalyses.BuildsTrees diamond where
  recalculate _ _ _ := rfl
  tree t F e he := by
    cases he
    simp only [diamond_reachable_iff]
    cases F with
    | false =>
      refine ⟨.cons 1 .nil (.cons 2 .nil (.cons 3 .nil .nil)), ?_, by decide, by decide⟩
      exact ⟨⟨_, rfl⟩, ⟨⟨_, rfl⟩, trivial, ⟨_, rfl⟩, trivial, ⟨_, rfl⟩, trivial, trivial⟩, trivial⟩
    | true => exact ⟨.nil, ⟨⟨_, rfl⟩, trivial, trivial⟩, by decide, by decide⟩

/-- The walk over the diamond after a query on the other function. -/
theorem domWalk_visits_once_diamond :
    diamondAnalyses.BuildsTrees diamond ∧
      ∃ s, run diamond diamondAnalyses .fresh [.immDom 4] = some s ∧
        Ends (WalkerStep diamond diamondAnalyses)
          (fun w => ∃ s visited, w = some ⟨s, [], visited⟩ ∧ visited.Nodup ∧
            ∀ b, b ∈ visited ↔ diamond.Reachable 0 b)
          (some ⟨s, [.call 0], []⟩) :=
  ⟨diamondAnalyses_buildsTrees, _, rfl,
    domWalk_visits_once _ _ diamondAnalyses_buildsTrees rfl [.immDom 4] rfl⟩

end CourseCompilers.Analysis
