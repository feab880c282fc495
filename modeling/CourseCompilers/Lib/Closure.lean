import Mathlib.Order.FixedPoints
import Mathlib.Order.CompletePartialOrder
import Mathlib.Data.Fintype.Card
import Mathlib.Data.Set.Finite.Basic
import Mathlib.Logic.Relation

/-! Sets closed under a monotone rule. A set that is built by applying the rule to
one element after the other is part of every closed set, so if it is closed itself
it is the least one, in whatever order it was built. -/

namespace CourseCompilers.Lib

variable {α : Type*} {f : Set α →o Set α} {D E : Set α}

/-- Sets built by adding elements one at a time that the rule allows. -/
inductive Built (f : Set α →o Set α) : Set α → Prop
  | empty : Built f ∅
  | insert {D : Set α} {x : α} : Built f D → x ∈ f D → Built f (insert x D)

/-- A closed set contains all that is built. -/
theorem Built.subset (h : Built f D) (hE : f E ⊆ E) : D ⊆ E := by
  induction h with
  | empty => exact Set.empty_subset E
  | insert _ hx ih => exact Set.insert_subset (hE (f.monotone ih hx)) ih

theorem Built.isLeast (h : Built f D) (hD : f D ⊆ D) : IsLeast {E | f E ⊆ E} D :=
  ⟨hD, fun _ hE => h.subset hE⟩

/-! ## Finite graphs -/

open Relation

variable {r : α → α → Prop} {p : α → Prop} {S : Set α}

/-- On a finite graph the least set that contains a node with `p` as soon as it contains
all its successors: the nodes that lead to no cycle and to no node without `p`. -/
theorem mem_least_iff (hS : S.Finite) (hsucc : ∀ v ∈ S, ∀ u, r v u → u ∈ S)
    (hD : IsLeast {E : Set α | ∀ v ∈ S, p v → (∀ u, r v u → u ∈ E) → v ∈ E} D) {v : α}
    (hv : v ∈ S) : v ∈ D ↔ ∀ w, ReflTransGen r v w → p w ∧ ¬ TransGen r w w := by
  constructor
  · intro hvD
    have hclosed : {v | ∀ w, ReflTransGen r v w → p w ∧ ¬ TransGen r w w} ∈
        {E : Set α | ∀ v ∈ S, p v → (∀ u, r v u → u ∈ E) → v ∈ E} := by
      intro v _ hp hu w hw
      rcases hw.cases_head with rfl | ⟨u, hvu, huw⟩
      · refine ⟨hp, fun hcycle => ?_⟩
        obtain ⟨u, hvu, huv⟩ := TransGen.head'_iff.mp hcycle
        exact (hu u hvu v huv).2 hcycle
      · exact hu u hvu w huw
    exact hD.2 hclosed hvD
  · intro hgood
    have hreach : ∀ w, ReflTransGen r v w → w ∈ S := by
      intro w hw
      induction hw with
      | refl => exact hv
      | tail _ hwu ih => exact hsucc _ ih _ hwu
    let T := {w // ReflTransGen r v w}
    have : Finite T := Set.Finite.subset hS hreach
    let q : T → T → Prop := fun a b => TransGen r b.1 a.1
    have : IsTrans T q := ⟨fun _ _ _ hab hbc => hbc.trans hab⟩
    have : Std.Irrefl q := ⟨fun a ha => (hgood a.1 a.2).2 ha⟩
    have hwf := Finite.wellFounded_of_trans_of_irrefl q
    have hall : ∀ w : T, w.1 ∈ D := by
      intro w
      induction w using hwf.induction with
      | _ w ih =>
        refine hD.1 w.1 (hreach _ w.2) (hgood _ w.2).1 fun u hwu => ?_
        exact ih ⟨u, w.2.tail hwu⟩ (.single hwu)
    exact hall ⟨v, .refl⟩

end CourseCompilers.Lib
