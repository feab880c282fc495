import CourseCompilers.Dce.Fixpoint

/-! What `RunDeadCodeElimination` leaves: whatever is used, directly or not, by an
instruction that must stay, and dead code that uses itself in a circle. -/

namespace CourseCompilers.Dce
open Lib Relation

variable {m : Module}

/-- `u` has `v` for an operand. -/
def Module.UsedBy (m : Module) (v u : Nat) : Prop := ∃ i ∈ m.insts, i.id = u ∧ .inst v ∈ i.operands

theorem Module.mem_uses_iff {v u : Nat} : u ∈ m.uses v ↔ m.UsedBy v u :=
  (m.usesExact v).mem_iff.trans mem_usersIn

/-- The least set of the rule, by paths along the uses. -/
theorem mem_removed_iff {D : Finset Nat} (hD : IsLeast {E : Set Nat | deadRule m E ⊆ E} D)
    {i : Inst} (hi : i ∈ m.insts) :
    i.id ∈ D ↔ ∀ j ∈ m.insts, ReflTransGen m.UsedBy i.id j.id →
      j.removable = true ∧ ¬ TransGen m.UsedBy j.id j.id := by
  have hrule : ∀ E : Set Nat, deadRule m E ⊆ E ↔ ∀ v ∈ (m.ids : Set Nat),
      (∃ i ∈ m.insts, i.id = v ∧ i.removable = true) → (∀ u, m.UsedBy v u → u ∈ E) → v ∈ E := by
    intro E
    constructor
    · rintro h v _ ⟨i, hi, rfl, hrem⟩ hu
      exact h ⟨i, hi, rfl, hrem, fun u hmem => hu u (Module.mem_uses_iff.mp hmem)⟩
    · rintro h v ⟨i, hi, rfl, hrem, hu⟩
      exact h i.id (Module.mem_ids.mpr ⟨i, hi, rfl⟩) ⟨i, hi, rfl, hrem⟩
        fun u hused => hu u (Module.mem_uses_iff.mpr hused)
  have hsucc : ∀ v ∈ (m.ids : Set Nat), ∀ u, m.UsedBy v u → u ∈ (m.ids : Set Nat) := by
    rintro v _ u ⟨j, hj, rfl, -⟩
    exact Module.mem_ids.mpr ⟨j, hj, rfl⟩
  have hmem : i.id ∈ (m.ids : Set Nat) := Module.mem_ids.mpr ⟨i, hi, rfl⟩
  simp only [hrule] at hD
  refine (mem_least_iff m.ids.finite_toSet hsucc hD hmem).trans ?_
  constructor
  · intro h j _ hpath
    obtain ⟨⟨k, hk, hid, hrem⟩, hcycle⟩ := h j.id hpath
    rw [m.eq_of_id ‹_› hk hid.symm]
    exact ⟨hrem, hid ▸ hcycle⟩
  · intro h w hpath
    have hw : w ∈ m.ids := by
      clear h
      induction hpath with
      | refl => exact hmem
      | tail _ hused ih => exact hsucc _ ih _ hused
    obtain ⟨j, hj, rfl⟩ := Module.mem_ids.mp hw
    obtain ⟨hrem, hcycle⟩ := h j hj hpath
    exact ⟨⟨j, hj, rfl, hrem⟩, hcycle⟩

theorem Erased.mem_ids_iff {s : State} {D : Finset Nat} (h : Erased m s D) {i : Inst}
    (hi : i ∈ m.insts) : i.id ∈ s.mod.ids ↔ i.id ∉ D := by
  rw [← h.ids_sdiff, Finset.mem_sdiff, not_and_not_right]
  exact ⟨fun h _ => h, fun h => h (Module.mem_ids.mpr ⟨i, hi, rfl⟩)⟩

/-- The instructions that are left are those used, by way of any number of instructions, by
one that is not of a removable kind or by one that uses itself in this way. -/
def Survives (m : Module) (s : State) : Prop :=
  ∀ i ∈ m.insts, i.id ∈ s.mod.ids ↔ ∃ j ∈ m.insts, ReflTransGen m.UsedBy i.id j.id ∧
    (j.removable = false ∨ TransGen m.UsedBy j.id j.id)

/-- What every run leaves. Dead code in a circle is not found. -/
theorem runDeadCodeElimination_survivors (m : Module) :
    Ends Step (fun t => t.Done ∧ Survives m t) (startC m) ∧
      Ends Step (fun t => t.Done ∧ Survives m t) (startCpp m) := by
  have hsurvives : ∀ t, t.Done ∧ Covered t ∧ (∃ D, Erased m t D) → t.Done ∧ Survives m t := by
    rintro t ⟨hdone, hc, D, hD⟩
    refine ⟨hdone, fun i hi => ?_⟩
    rw [hD.mem_ids_iff hi, mem_removed_iff (hD.done hc hdone) hi]
    simp only [not_forall, not_and_or, not_not, Bool.not_eq_true, exists_prop]
  exact ⟨(startC_ends m).mono hsurvives, (startCpp_ends m).mono hsurvives⟩

end CourseCompilers.Dce
