import CourseCompilers.Lib.Cursor
import CourseCompilers.Analysis.Dominance

/-! The C interface to the edges of a control-flow graph. A block is named again
for every edge that leads to it or comes from it. -/

namespace CourseCompilers.Analysis
open Lib

variable {Function Block : Type} [DecidableEq Block]

/-- The predecessors of each block: the blocks of the branches that use it, one
entry for each use, in whatever order the uses are kept. -/
structure Uses (m : Module Function Block) where
  preds : Block → List Block
  count_preds : ∀ a b, (preds b).count a = (m.succs a).count b

section
variable (m : Module Function Block) (u : Uses m)

def getFirstSuccessor (BB : Block) : Option Block := (m.succs BB).head?

def getNextSuccessor (BB Succ : Block) : Option Block := nextAfter Succ false (m.succs BB)

def getFirstPredecessor (BB : Block) : Option Block := (u.preds BB).head?

def getNextPredecessor (BB Pred : Block) : Option Block := nextAfter Pred false (u.preds BB)

end

variable {m : Module Function Block} (u : Uses m)

/-- No block repeats among the predecessors if no branch has two edges to the block. -/
theorem Uses.nodup_iff (BB : Block) : (u.preds BB).Nodup ↔ ∀ P, (m.succs P).count BB ≤ 1 := by
  simp only [List.nodup_iff_count_le_one, u.count_preds]

/-- The walk over the successors is complete if no block is named twice, and the
walk over the predecessors if no branch names this block twice. -/
theorem edgeWalks_complete_iff (BB : Block) :
    (Complete (getFirstSuccessor m BB) (getNextSuccessor m BB) (m.succs BB) ↔
        (m.succs BB).Nodup) ∧
      (Complete (getFirstPredecessor m u BB) (getNextPredecessor m u BB) (u.preds BB) ↔
        ∀ P, (m.succs P).count BB ≤ 1) :=
  ⟨cursor_complete_iff _, (cursor_complete_iff _).trans (u.nodup_iff BB)⟩

/-- A function of two blocks: the first branches to the second on either outcome. -/
def bothTargets : Module Unit Bool where
  parent _ := ()
  entry _ := some false
  succs b := if b then [] else [true, true]
  succs_parent _ _ _ := rfl

def bothTargetsUses : Uses bothTargets where
  preds b := if b then [false, false] else []
  count_preds := by decide

/-- Each walk between the two blocks goes on for ever. -/
theorem edgeWalks_bothTargets :
    ¬ Complete (getFirstSuccessor bothTargets false) (getNextSuccessor bothTargets false)
        (bothTargets.succs false) ∧
      ¬ Complete (getFirstPredecessor bothTargets bothTargetsUses true)
        (getNextPredecessor bothTargets bothTargetsUses true) (bothTargetsUses.preds true) := by
  constructor
  · rintro ⟨n, hn, -⟩
    have hnext : getNextSuccessor bothTargets false true = some true := rfl
    cases hn.symm.trans (calls_eq_self hnext n)
  · rintro ⟨n, hn, -⟩
    have hnext : getNextPredecessor bothTargets bothTargetsUses true false = some false := rfl
    cases hn.symm.trans (calls_eq_self hnext n)

end CourseCompilers.Analysis
