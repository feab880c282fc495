import Mathlib.Data.List.Basic

/-! Control-flow graphs as edge relations with an entry: walks from the entry and
dominance. -/

namespace CourseCompilers.Lib

variable {N : Type*}

/-- `Walk edge entry b p`: a walk from the entry to `b`; `p` lists the nodes it
visits, the last one first. -/
inductive Walk (edge : N → N → Prop) (entry : N) : N → List N → Prop
  | start : Walk edge entry entry [entry]
  | step {a b : N} {p : List N} : Walk edge entry a p → edge a b → Walk edge entry b (b :: p)

/-- Every walk from the entry to `b` passes through `d`. -/
def Dominates (edge : N → N → Prop) (entry d b : N) : Prop := ∀ p, Walk edge entry b p → d ∈ p

variable {edge edge' : N → N → Prop} {entry : N}

theorem Walk.head_mem {b : N} {p : List N} (h : Walk edge entry b p) : b ∈ p := by
  cases h <;> simp

theorem Walk.forall_mem {b : N} {p : List N} (h : Walk edge entry b p) (good : N → Prop)
    (hentry : good entry) (hstep : ∀ a b, edge a b → good b) : ∀ v ∈ p, good v := by
  induction h with
  | start => simpa using hentry
  | step _ he ih => simpa using ⟨hstep _ _ he, ih⟩

theorem Walk.mono (hsub : ∀ a b, edge a b → edge' a b) {b : N} {p : List N}
    (h : Walk edge entry b p) : Walk edge' entry b p := by
  induction h with
  | start => exact .start
  | step _ he ih => exact .step ih (hsub _ _ he)

theorem Dominates.refl (d : N) : Dominates edge entry d d := fun _ h => h.head_mem

/-- A region that walks enter only from nodes dominated by `d` is dominated by `d`. -/
theorem Dominates.of_region {R : N → Prop} {d : N} (hentry : ¬ R entry)
    (hin : ∀ a b, edge a b → R b → R a ∨ Dominates edge entry d a) {b : N} (hb : R b) :
    Dominates edge entry d b := by
  intro p hp
  induction hp with
  | start => exact absurd hb hentry
  | step hw he ih =>
    rcases hin _ _ he hb with ha | ha
    · exact List.mem_cons_of_mem _ (ih ha)
    · exact List.mem_cons_of_mem _ (ha _ hw)

end CourseCompilers.Lib
