import CourseCompilers.Dce.Worklist
import CourseCompilers.Lib.Closure
import Mathlib.Logic.Relation

/-! What `RunDeadCodeElimination` has removed when it is done: the least set of
instructions that contains every removable instruction all of whose users it
contains. The set is built one instruction at a time, so the order in which the
worklist hands them out does not matter, nor does it matter how it was filled. -/

namespace CourseCompilers.Dce
open Lib Relation

variable {m : Module} {s t : State}

/-! ## Removing a set of instructions -/

/-- The module without the instructions of `D`, which only members of `D` use. -/
def Module.remove (m : Module) (D : Finset Nat) (hD : Removal m D) : Module where
  funcs := without D m.funcs
  uses v := (m.uses v).filter (· ∉ D)
  nodup := by
    rw [without, instsOf_keep]
    exact m.nodup.sublist (List.filter_sublist.map _)
  defined := by
    rw [without, instsOf_keep]
    intro i hi v hv
    obtain ⟨hi, hiD⟩ := List.mem_filter.mp hi
    obtain ⟨j, hj, rfl⟩ := m.defined i hi v hv
    refine ⟨j, List.mem_filter.mpr ⟨hj, ?_⟩, rfl⟩
    rw [decide_eq_true_iff] at hiD ⊢
    exact fun hjD => hiD (hD.closed i hi j.id hjD hv)
  usesExact v := by
    rw [without, instsOf_keep, usersIn_filter _ _ (· ∉ D)]
    exact (m.usesExact v).filter _

theorem Module.eq_of_funcs_uses {m m' : Module} (hf : m.funcs = m'.funcs)
    (hu : m.uses = m'.uses) : m = m' := by
  cases m
  cases m'
  cases hf
  cases hu
  rfl

theorem Removal.empty (m : Module) : Removal m ∅ :=
  ⟨fun _ _ h => absurd h (Finset.notMem_empty _), fun _ _ _ h => absurd h (Finset.notMem_empty _)⟩

theorem Module.remove_empty (m : Module) : m.remove ∅ (.empty m) = m :=
  eq_of_funcs_uses (without_empty _) (by funext v; simp [remove])

theorem Module.insts_remove {D : Finset Nat} (hD : Removal m D) :
    (m.remove D hD).insts = m.insts.filter (·.id ∉ D) := instsOf_keep _ _

theorem Module.mem_insts_remove {D : Finset Nat} (hD : Removal m D) {i : Inst} :
    i ∈ (m.remove D hD).insts ↔ i ∈ m.insts ∧ i.id ∉ D := by
  rw [insts_remove hD, List.mem_filter, decide_eq_true_iff]

/-- Erasing a dead instruction adds it to the set that is removed. -/
theorem Module.erase_remove {D : Finset Nat} (hD : Removal m D) {i : Inst}
    (hi : i ∈ (m.remove D hD).insts) (hd : isDead (m.remove D hD) i = true) :
    ∃ hD', (m.remove D hD).erase i.id (isDead_iff.mp hd).1 = m.remove (insert i.id D) hD' := by
  refine ⟨hD.insert (insts_remove hD) hi hd, ?_⟩
  refine eq_of_funcs_uses (without_erase _ _) ?_
  funext v
  show ((m.uses v).filter _).filter _ = (m.uses v).filter _
  rw [List.filter_filter]
  congr 1
  funext u
  by_cases hu : u = i.id <;> simp [hu]

/-! ## The rule -/

/-- The removable instructions all of whose users are in `D`. -/
def deadRule (m : Module) : Set Nat →o Set Nat where
  toFun D := {v | ∃ i ∈ m.insts, i.id = v ∧ i.removable = true ∧ ∀ u ∈ m.uses v, u ∈ D}
  monotone' := by
    rintro D E hDE v ⟨i, hi, hid, hrem, hu⟩
    exact ⟨i, hi, hid, hrem, fun u h => hDE (hu u h)⟩

/-- What is dead without `D` is what the rule adds to `D`. -/
theorem isDead_remove_iff {D : Finset Nat} (hD : Removal m D) {i : Inst} (hi : i ∈ m.insts) :
    isDead (m.remove D hD) i = true ↔ i.id ∈ deadRule m D := by
  have huses : (m.remove D hD).uses i.id = [] ↔ ∀ u ∈ m.uses i.id, u ∈ D := by
    show (m.uses i.id).filter _ = [] ↔ _
    simp [List.filter_eq_nil_iff]
  rw [isDead_iff, huses]
  constructor
  · rintro ⟨hu, hrem⟩
    exact ⟨i, hi, rfl, hrem, hu⟩
  · rintro ⟨j, hj, hid, hrem, hu⟩
    rw [m.eq_of_id hj hi hid] at hrem
    exact ⟨hu, hrem⟩

/-! ## What has been removed -/

/-- The instructions of `D` have been removed, in an order the rule allows. -/
structure Erased (m : Module) (s : State) (D : Finset Nat) : Prop where
  mod : ∃ hD, s.mod = m.remove D hD
  built : Built (deadRule m) D
  count : s.count = D.card
  subset : D ⊆ m.ids

theorem Erased.start (hm : s.mod = m) (hc : s.count = 0) : Erased m s ∅ where
  mod := ⟨.empty m, by rw [hm, m.remove_empty]⟩
  built := by
    rw [Finset.coe_empty]
    exact .empty
  count := hc
  subset := Finset.empty_subset _

theorem Erased.step {D : Finset Nat} (h : Erased m s D) (hs : Step s t) :
    ∃ D', Erased m t D' := by
  obtain ⟨⟨hD, hmod⟩, hbuilt, hcount, hsub⟩ := h
  cases hs with
  | nextFunction _ _ => exact ⟨D, ⟨hD, hmod⟩, hbuilt, hcount, hsub⟩
  | pop _ ht =>
    obtain ⟨I, hI, rfl, ⟨_, rfl⟩ | ⟨hd, rfl⟩⟩ := State.pop_cases ht
    · exact ⟨D, ⟨hD, hmod⟩, hbuilt, hcount, hsub⟩
    · obtain ⟨mod, worklist, pending, count⟩ := s
      subst hmod
      obtain ⟨hIm, hID⟩ := (Module.mem_insts_remove hD).mp hI
      refine ⟨insert I.id D, Module.erase_remove hD hI hd, ?_, ?_, ?_⟩
      · rw [Finset.coe_insert]
        exact hbuilt.insert ((isDead_remove_iff hD hIm).mp hd)
      · rw [Finset.card_insert_of_notMem hID, ← hcount]
      · exact Finset.insert_subset (Module.mem_ids.mpr ⟨I, hIm, rfl⟩) hsub

/-! ## What is dead is on the worklist -/

/-- Every dead instruction is on the worklist or in a function that still comes. -/
def Covered (s : State) : Prop :=
  ∀ i ∈ s.mod.insts, isDead s.mod i = true →
    i.id ∈ s.worklist ∨ ∃ f ∈ s.pending, i.id ∈ s.mod.idsOf f

theorem Module.mem_idsOf {f v : Nat} :
    v ∈ m.idsOf f ↔ ∃ g, m.funcs[f]? = some g ∧ ∃ i ∈ g.insts, i.id = v := by
  cases hf : m.funcs[f]? with
  | none => simp [idsOf, hf]
  | some g => simp [idsOf, hf]

theorem Module.mem_idsOf_erase {i : Nat} (h : m.uses i = []) {f v : Nat} (hv : v ∈ m.idsOf f)
    (hne : v ≠ i) : v ∈ (m.erase i h).idsOf f := by
  obtain ⟨g, hg, j, hj, rfl⟩ := mem_idsOf.mp hv
  refine mem_idsOf.mpr ⟨g.keep (·.id != i), by simp [erase, hg], j, ?_, rfl⟩
  rw [Func.insts_keep, List.mem_filter, bne_iff_ne]
  exact ⟨hj, hne⟩

/-- An instruction that is dead once `I` is erased was dead before or is an operand
of `I`. -/
theorem isDead_erase {I i : Inst} (hI : I ∈ m.insts) (h : m.uses I.id = [])
    (hd : isDead (m.erase I.id h) i = true) : isDead m i = true ∨ i.id ∈ I.operandInsts := by
  obtain ⟨huses, hrem⟩ := isDead_iff.mp hd
  by_cases hu : m.uses i.id = []
  · exact .inl (isDead_iff.mpr ⟨hu, hrem⟩)
  · obtain ⟨u, hu⟩ := List.exists_mem_of_ne_nil _ hu
    have huI : u = I.id := by
      by_contra hne
      have hmem : u ∈ (m.uses i.id).filter (· != I.id) :=
        List.mem_filter.mpr ⟨hu, by simpa using hne⟩
      rw [show (m.uses i.id).filter (· != I.id) = [] from huses] at hmem
      cases hmem
    obtain ⟨j, hj, hid, ho⟩ := mem_usersIn.mp ((m.usesExact i.id).mem_iff.mp hu)
    rw [m.eq_of_id hj hI (hid.trans huI)] at ho
    exact .inr (Inst.mem_operandInsts.mpr ho)

theorem Covered.step (h : Covered s) (hs : Step s t) : Covered t := by
  intro i hi hd
  cases hs with
  | @nextFunction f fs hw hp =>
    rcases h i hi hd with hmem | ⟨g, hg, hmem⟩
    · rw [hw] at hmem
      exact absurd hmem (Finset.notMem_empty _)
    · rw [hp] at hg
      rcases List.mem_cons.mp hg with rfl | hg
      · exact .inl hmem
      · exact .inr ⟨g, hg, hmem⟩
  | pop _ ht =>
    obtain ⟨I, hI, rfl, ⟨halive, rfl⟩ | ⟨hdead, rfl⟩⟩ := State.pop_cases ht
    · refine (h i hi hd).imp_left fun hmem => Finset.mem_erase.mpr ⟨?_, hmem⟩
      intro hid
      rw [s.mod.eq_of_id hi hI hid, halive] at hd
      cases hd
    · rw [Module.insts_erase, List.mem_filter, bne_iff_ne] at hi
      rcases isDead_erase hI (isDead_iff.mp hdead).1 hd with hd | ho
      · rcases h i hi.1 hd with hmem | ⟨f, hf, hmem⟩
        · exact .inl (Finset.mem_union_left _ (Finset.mem_erase.mpr ⟨hi.2, hmem⟩))
        · exact .inr ⟨f, hf, Module.mem_idsOf_erase (isDead_iff.mp hdead).1 hmem hi.2⟩
      · exact .inl (Finset.mem_union_right _ ho)

theorem Covered.startC (m : Module) : Covered (startC m) := by
  intro i hi hd
  refine .inl ?_
  simp only [Dce.startC, List.mem_toFinset, List.mem_map]
  exact ⟨i, List.mem_filter.mpr ⟨hi, hd⟩, rfl⟩

theorem Covered.startCpp (m : Module) : Covered (startCpp m) := by
  intro i hi _
  obtain ⟨g, hg, hig⟩ := List.mem_flatMap.mp hi
  obtain ⟨f, hf, rfl⟩ := List.mem_iff_getElem.mp hg
  refine .inr ⟨f, List.mem_range.mpr hf, Module.mem_idsOf.mpr ⟨_, ?_, i, hig, rfl⟩⟩
  exact List.getElem?_eq_getElem hf

/-! ## Whole runs -/

/-- The run is over. -/
def State.Done (s : State) : Prop := s.worklist = ∅ ∧ s.pending = []

theorem Covered.fixpoint (h : Covered s) (hdone : s.Done) :
    ∀ i ∈ s.mod.insts, isDead s.mod i = false := by
  intro i hi
  by_contra hd
  rw [Bool.not_eq_false] at hd
  rcases h i hi hd with hmem | ⟨f, hf, _⟩
  · rw [hdone.1] at hmem
    exact Finset.notMem_empty _ hmem
  · rw [hdone.2] at hf
    cases hf

/-- If nothing is dead any more, what has been removed is closed under the rule. -/
theorem Erased.closed {D : Finset Nat} (h : Erased m s D)
    (hfix : ∀ i ∈ s.mod.insts, isDead s.mod i = false) : deadRule m D ⊆ D := by
  obtain ⟨hD, hmod⟩ := h.mod
  rintro v ⟨i, hi, rfl, hrem, hu⟩
  by_contra hiD
  have hdead : isDead (m.remove D hD) i = true :=
    (isDead_remove_iff hD hi).mpr ⟨i, hi, rfl, hrem, hu⟩
  rw [← hmod, hfix i (hmod ▸ (Module.mem_insts_remove hD).mpr ⟨hi, hiD⟩)] at hdead
  cases hdead

/-- Every run ends, and then the worklist has missed nothing. -/
theorem Inv.ends_covered (hi : Inv m s) (he : ∃ D, Erased m s D) (hc : Covered s) :
    Ends Step (fun t => t.Done ∧ Covered t ∧ ∃ D, Erased m t D) s := by
  refine Ends.of_invariant (fun s => Inv m s ∧ (∃ D, Erased m s D) ∧ Covered s) State.measure
    ?_ ?_ ⟨hi, he, hc⟩
  · rintro s t ⟨hi, ⟨D, he⟩, hc⟩ hs
    exact ⟨⟨hi.step hs, he.step hs, hc.step hs⟩, hs.measure_lt⟩
  · rintro s ⟨hi, he, hc⟩ hno
    exact ⟨hi.done hno, hc, he⟩

theorem startC_ends (m : Module) :
    Ends Step (fun t => t.Done ∧ Covered t ∧ ∃ D, Erased m t D) (startC m) :=
  (Inv.startC m).ends_covered ⟨∅, .start rfl rfl⟩ (.startC m)

theorem startCpp_ends (m : Module) :
    Ends Step (fun t => t.Done ∧ Covered t ∧ ∃ D, Erased m t D) (startCpp m) :=
  (Inv.startCpp m).ends_covered ⟨∅, .start rfl rfl⟩ (.startCpp m)

/-- Dead code elimination reaches its fixpoint: every run comes to an end, and then
no instruction is dead. -/
theorem runDeadCodeElimination_fixpoint (m : Module) :
    Ends Step (fun t => t.Done ∧ ∀ i ∈ t.mod.insts, isDead t.mod i = false) (startC m) ∧
      Ends Step (fun t => t.Done ∧ ∀ i ∈ t.mod.insts, isDead t.mod i = false) (startCpp m) := by
  have hdone : ∀ t, t.Done ∧ Covered t ∧ (∃ D, Erased m t D) →
      t.Done ∧ ∀ i ∈ t.mod.insts, isDead t.mod i = false :=
    fun t ⟨hd, hc, _⟩ => ⟨hd, hc.fixpoint hd⟩
  exact ⟨(startC_ends m).mono hdone, (startCpp_ends m).mono hdone⟩

/-- What a run that is over has done. -/
theorem Erased.done {D : Finset Nat} (h : Erased m s D) (hc : Covered s) (hdone : s.Done) :
    IsLeast {E : Set Nat | deadRule m E ⊆ E} D :=
  h.built.isLeast (h.closed (hc.fixpoint hdone))

theorem Erased.ids_sdiff {D : Finset Nat} (h : Erased m s D) : m.ids \ s.mod.ids = D := by
  obtain ⟨hD, hmod⟩ := h.mod
  ext v
  simp only [Finset.mem_sdiff, Module.mem_ids, hmod, Module.mem_insts_remove]
  constructor
  · rintro ⟨⟨i, hi, rfl⟩, hno⟩
    by_contra hiD
    exact hno ⟨i, ⟨hi, hiD⟩, rfl⟩
  · intro hv
    obtain ⟨i, hi, rfl⟩ := Module.mem_ids.mp (h.subset hv)
    refine ⟨⟨i, hi, rfl⟩, ?_⟩
    rintro ⟨j, ⟨_, hjD⟩, hid⟩
    exact hjD (hid ▸ hv)

/-- The order in which the worklist hands out elements does not matter: all runs of
both versions end with the same module and the same count, and what they have
removed is the least set that contains every removable instruction all of whose
users are in it. -/
theorem runDeadCodeElimination_orderIndependent (m : Module) :
    ∃ (m' : Module) (D : Finset Nat), m.ids \ m'.ids = D ∧
      IsLeast {E : Set Nat | ∀ i ∈ m.insts, i.removable = true → (∀ u ∈ m.uses i.id, u ∈ E) →
        i.id ∈ E} D ∧
      Ends Step (fun t => t.Done ∧ t.mod = m' ∧ t.count = D.card) (startC m) ∧
      Ends Step (fun t => t.Done ∧ t.mod = m' ∧ t.count = D.card) (startCpp m) := by
  obtain ⟨s, hdone, hc, D, hD⟩ := (startC_ends m).exists_end
  have hleast := hD.done hc hdone
  have hsame : ∀ t, t.Done ∧ Covered t ∧ (∃ D, Erased m t D) →
      t.Done ∧ t.mod = s.mod ∧ t.count = D.card := by
    rintro t ⟨hdone', hc', D', hD'⟩
    have heq : D' = D := Finset.coe_injective ((hD'.done hc' hdone').unique hleast)
    subst heq
    obtain ⟨_, hmod⟩ := hD.mod
    obtain ⟨_, hmod'⟩ := hD'.mod
    exact ⟨hdone', hmod'.trans hmod.symm, hD'.count⟩
  have hrule : ∀ E : Set Nat, deadRule m E ⊆ E ↔ ∀ i ∈ m.insts, i.removable = true →
      (∀ u ∈ m.uses i.id, u ∈ E) → i.id ∈ E := by
    intro E
    constructor
    · intro h i hi hrem hu
      exact h ⟨i, hi, rfl, hrem, hu⟩
    · rintro h v ⟨i, hi, rfl, hrem, hu⟩
      exact h i hi hrem hu
  simp only [hrule] at hleast
  exact ⟨s.mod, D, hD.ids_sdiff, hleast, (startC_ends m).mono hsame, (startCpp_ends m).mono hsame⟩

/-! ## Pointers -/

theorem Step.ids_subset (hs : Step s t) : t.mod.ids ⊆ s.mod.ids := by
  cases hs with
  | nextFunction _ _ => exact Finset.Subset.refl _
  | pop _ ht =>
    obtain ⟨I, _, rfl, ⟨_, rfl⟩ | ⟨_, rfl⟩⟩ := State.pop_cases ht
    · exact Finset.Subset.refl _
    · rw [Module.ids_erase]
      exact Finset.erase_subset _ _

/-- Along a run instructions only disappear. -/
theorem ids_subset_of_run (h : ReflTransGen Step s t) : t.mod.ids ⊆ s.mod.ids := by
  induction h with
  | refl => exact Finset.Subset.refl _
  | tail _ hs ih => exact hs.ids_subset.trans ih

theorem Inv.run (hi : Inv m s) (h : ReflTransGen Step s t) : Inv m t := by
  induction h with
  | refl => exact hi
  | tail _ hs ih => exact ih.step hs

/-- A pointer that is popped is valid, and an instruction that is erased has no user. -/
theorem Inv.pop (h : Inv m s) {v : Nat} (hv : v ∈ s.worklist) :
    ∃ t, s.pop v = some t ∧ (t.mod = s.mod ∨
      t.mod.ids = s.mod.ids.erase v ∧ ∀ i ∈ s.mod.insts, .inst v ∉ i.operands) := by
  obtain ⟨I, hI, hid⟩ := Module.mem_ids.mp (h.present hv)
  obtain ⟨t, ht⟩ := State.exists_pop hI hid
  refine ⟨t, ht, ?_⟩
  obtain ⟨J, _, rfl, ⟨_, rfl⟩ | ⟨hd, rfl⟩⟩ := State.pop_cases ht
  · exact .inl rfl
  · have huses := (isDead_iff.mp hd).1
    exact .inr ⟨Module.ids_erase _ huses, (s.mod.uses_eq_nil_iff _).mp huses⟩

/-- In every state of every run the pointers on the worklist and the operands of the
remaining instructions are valid, what is erased has no user, and an erased
instruction stays away from the module and from the worklist. -/
theorem runDeadCodeElimination_noDangling (m : Module) (s : State)
    (hs : ReflTransGen Step (startC m) s ∨ ReflTransGen Step (startCpp m) s) :
    (∀ v ∈ s.worklist, v ∈ s.mod.ids) ∧
      (∀ i ∈ s.mod.insts, ∀ v, .inst v ∈ i.operands → v ∈ s.mod.ids) ∧
      (∀ v ∈ s.worklist, ∃ t, s.pop v = some t ∧ (t.mod = s.mod ∨
        t.mod.ids = s.mod.ids.erase v ∧ ∀ i ∈ s.mod.insts, .inst v ∉ i.operands)) ∧
      ∀ t, ReflTransGen Step s t → ∀ v ∈ m.ids, v ∉ s.mod.ids → v ∉ t.mod.ids ∧ v ∉ t.worklist := by
  have hinv : Inv m s := hs.elim (Inv.startC m).run (Inv.startCpp m).run
  refine ⟨fun v hv => hinv.present hv, ?_, fun v hv => hinv.pop hv, ?_⟩
  · intro i hi v hv
    exact Module.mem_ids.mpr (s.mod.defined i hi v hv)
  · intro t ht v _ hv
    have hvt : v ∉ t.mod.ids := fun h => hv (ids_subset_of_run ht h)
    exact ⟨hvt, fun h => hvt ((hinv.run ht).present h)⟩

/-- A sum, an unused sum that uses the first one twice, and a return. -/
def unusedSum : Module where
  funcs := [⟨[[⟨0, .add, false, [.other 0, .other 1], []⟩,
    ⟨1, .add, false, [.inst 0, .inst 0], []⟩, ⟨2, .ret, false, [.other 0], []⟩]]⟩]
  uses v := if v = 0 then [1, 1] else []
  nodup := by decide
  defined := by simp [instsOf, Func.insts]
  usesExact v := by
    by_cases hv : v = 0
    · subst hv
      decide
    · simp [instsOf, Func.insts, usersIn, hv, Ne.symm hv]

theorem runDeadCodeElimination_noDangling_unusedSum :
    ∃ s, s.worklist = {0} ∧ s.mod.ids = {0, 2} ∧
      (∀ v ∈ s.worklist, v ∈ s.mod.ids) ∧
      (∀ i ∈ s.mod.insts, ∀ v, .inst v ∈ i.operands → v ∈ s.mod.ids) ∧
      (∀ v ∈ s.worklist, ∃ t, s.pop v = some t ∧ (t.mod = s.mod ∨
        t.mod.ids = s.mod.ids.erase v ∧ ∀ i ∈ s.mod.insts, .inst v ∉ i.operands)) ∧
      ∀ t, ReflTransGen Step s t → ∀ v ∈ unusedSum.ids, v ∉ s.mod.ids →
        v ∉ t.mod.ids ∧ v ∉ t.worklist :=
  ⟨_, by decide, by decide, runDeadCodeElimination_noDangling unusedSum _
    (.inl (.single (.pop (i := 1) (by decide) rfl)))⟩

end CourseCompilers.Dce
