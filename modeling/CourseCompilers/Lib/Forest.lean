import Mathlib.Data.List.Basic

/-! Finite forests: a tree is its root, the forest of its subtrees and the trees
that stand to its right. -/

namespace CourseCompilers.Lib

inductive Forest (α : Type*)
  | nil
  | cons (root : α) (children siblings : Forest α)

variable {α : Type*}

def Forest.roots : Forest α → List α
  | nil => []
  | cons a _ siblings => a :: siblings.roots

def Forest.preorder : Forest α → List α
  | nil => []
  | cons a children siblings => a :: (children.preorder ++ siblings.preorder)

/-- Every node and its children are in relation `p`. -/
def Forest.All (p : α → List α → Prop) : Forest α → Prop
  | nil => True
  | cons a children siblings => p a children.roots ∧ children.All p ∧ siblings.All p

theorem Forest.roots_sublist (f : Forest α) : f.roots.Sublist f.preorder := by
  induction f with
  | nil => exact .slnil
  | cons a children siblings _ ih =>
    exact .cons_cons a (ih.trans (List.sublist_append_right _ _))

end CourseCompilers.Lib
