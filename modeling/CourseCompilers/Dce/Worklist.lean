import CourseCompilers.Dce.Module
import CourseCompilers.Lib.Runs
import Mathlib.Data.Finset.Card
import Mathlib.Data.Finset.Image
import Mathlib.Data.Finset.Union

/-! `RunDeadCodeElimination`. The worklist is a `std::set` of pointers, so which
element comes out next depends on where the heap put the instructions; the
machine may pop any element. The C version starts with a worklist of all
instructions that are dead at the start; the C++ version goes through the
functions and fills the worklist with all instructions of one at a time. -/

namespace CourseCompilers.Dce
open Lib

/-- The `switch` of `isDead`. -/
def Inst.removable (i : Inst) : Bool :=
  match i.opcode with
  | .add | .fAdd | .sub | .fSub | .mul | .fMul | .uDiv | .sDiv | .fDiv | .uRem | .sRem | .fRem
  | .shl | .lShr | .aShr | .and | .or | .xor | .alloca | .getElementPtr | .trunc | .zExt | .sExt
  | .fpToUI | .fpToSI | .uiToFP | .siToFP | .fpTrunc | .fpExt | .ptrToInt | .intToPtr | .bitCast
  | .addrSpaceCast | .iCmp | .fCmp | .phi | .select | .extractElement | .insertElement
  | .shuffleVector | .extractValue | .insertValue => true
  | .load => !i.isVolatile
  | _ => false

def isDead (m : Module) (i : Inst) : Bool := (m.uses i.id).isEmpty && i.removable

theorem isDead_iff {m : Module} {i : Inst} :
    isDead m i = true ↔ m.uses i.id = [] ∧ i.removable = true := by
  simp [isDead]

/-- The operands that are instructions. -/
def Inst.operandInsts (i : Inst) : Finset Nat :=
  (i.operands.filterMap fun
    | .inst id => some id
    | .other _ => none).toFinset

theorem Inst.mem_operandInsts {i : Inst} {v : Nat} :
    v ∈ i.operandInsts ↔ .inst v ∈ i.operands := by
  simp only [operandInsts, List.mem_toFinset, List.mem_filterMap]
  constructor
  · rintro ⟨o, ho, h⟩
    cases o with
    | inst id => cases h; exact ho
    | other n => cases h
  · intro h
    exact ⟨.inst v, h, rfl⟩

/-- The state of a run. `pending` are the functions whose instructions are still to
be put on the worklist, `count` is `DCE_count`. -/
structure State where
  mod : Module
  worklist : Finset Nat
  pending : List Nat
  count : Nat

/-- The addresses of the instructions of the `f`-th function. -/
def Module.idsOf (m : Module) (f : Nat) : Finset Nat :=
  ((m.funcs[f]?.map Func.insts).getD []).map Inst.id |>.toFinset

def Module.ids (m : Module) : Finset Nat := (m.insts.map Inst.id).toFinset

/-- Take `i` off the worklist and erase it if it is dead, its operands going onto
the worklist. A dangling pointer is undefined behaviour. -/
def State.pop (s : State) (i : Nat) : Option State :=
  match s.mod.find i with
  | none => none
  | some I =>
      if h : isDead s.mod I = true then
        some { s with
          mod := s.mod.erase I.id (isDead_iff.mp h).1
          worklist := s.worklist.erase i ∪ I.operandInsts
          count := s.count + 1 }
      else some { s with worklist := s.worklist.erase i }

/-- One round of the loop, or moving on to the next function. -/
inductive Step (s : State) : State → Prop
  | pop {i : Nat} {t : State} : i ∈ s.worklist → s.pop i = some t → Step s t
  | nextFunction {f : Nat} {fs : List Nat} : s.worklist = ∅ → s.pending = f :: fs →
      Step s { s with worklist := s.mod.idsOf f, pending := fs }

def startC (m : Module) : State :=
  ⟨m, ((m.insts.filter (isDead m)).map Inst.id).toFinset, [], 0⟩

def startCpp (m : Module) : State := ⟨m, ∅, List.range m.funcs.length, 0⟩

/-! ## What a run does -/

variable {m : Module} {s t : State}

theorem Module.mem_ids {v : Nat} : v ∈ m.ids ↔ ∃ i ∈ m.insts, i.id = v := by
  simp [Module.ids]

/-- One round: the popped instruction stays, or it is dead and is erased. -/
theorem State.pop_cases {i : Nat} (h : s.pop i = some t) :
    ∃ I ∈ s.mod.insts, I.id = i ∧
      ((isDead s.mod I = false ∧ t = { s with worklist := s.worklist.erase i }) ∨
        ∃ hd : isDead s.mod I = true, t = { s with
          mod := s.mod.erase I.id (isDead_iff.mp hd).1
          worklist := s.worklist.erase i ∪ I.operandInsts
          count := s.count + 1 }) := by
  unfold State.pop at h
  cases hf : s.mod.find i with
  | none => simp [hf] at h
  | some I =>
    obtain ⟨hI, hid⟩ := (s.mod.find_eq_some_iff).mp hf
    refine ⟨I, hI, hid, ?_⟩
    by_cases hd : isDead s.mod I = true
    · simp only [hf, hd, ↓reduceDIte, Option.some.injEq] at h
      exact .inr ⟨hd, h.symm⟩
    · simp only [hf, hd, Bool.false_eq_true, ↓reduceDIte, Option.some.injEq] at h
      exact .inl ⟨by simpa using hd, h.symm⟩

theorem State.exists_pop {i : Nat} {I : Inst} (hI : I ∈ s.mod.insts) (hid : I.id = i) :
    ∃ t, s.pop i = some t := by
  have hf := s.mod.find_eq_some_iff.mpr ⟨hI, hid⟩
  simp only [State.pop, hf]
  split
  · exact ⟨_, rfl⟩
  · exact ⟨_, rfl⟩

/-- A set of instructions that may all be removed and that only its own members use. -/
structure Removal (m : Module) (D : Finset Nat) : Prop where
  removable : ∀ i ∈ m.insts, i.id ∈ D → i.removable = true
  closed : ∀ i ∈ m.insts, ∀ v ∈ D, .inst v ∈ i.operands → i.id ∈ D

/-- The functions without the instructions of `D`. -/
def without (D : Finset Nat) (funcs : List Func) : List Func :=
  funcs.map (Func.keep (·.id ∉ D))

theorem without_empty (funcs : List Func) : without ∅ funcs = funcs := by
  have h : (Func.keep fun i => decide (i.id ∉ (∅ : Finset Nat))) = id := by
    funext f
    simpa using f.keep_true
  rw [without, h, List.map_id]

/-- What holds of every state of a run on `m`. -/
structure Inv (m : Module) (s : State) : Prop where
  removed : ∃ D, Removal m D ∧ s.mod.funcs = without D m.funcs
  present : s.worklist ⊆ s.mod.ids

theorem Inv.start (h : s.worklist ⊆ m.ids) (hm : s.mod = m) : Inv m s where
  removed := ⟨∅, ⟨fun _ _ h => absurd h (Finset.notMem_empty _),
    fun _ _ _ h => absurd h (Finset.notMem_empty _)⟩, by rw [hm, without_empty]⟩
  present := hm ▸ h

theorem insts_of_without {D : Finset Nat} (h : s.mod.funcs = without D m.funcs) :
    s.mod.insts = m.insts.filter (·.id ∉ D) := by
  rw [Module.insts, h, without, instsOf_keep]
  rfl

/-- Erasing a dead instruction adds it to what has been removed. -/
theorem Removal.insert {D : Finset Nat} (hD : Removal m D) {m' : Module}
    (hm : m'.insts = m.insts.filter (·.id ∉ D)) {i : Inst} (hi : i ∈ m'.insts)
    (hd : isDead m' i = true) : Removal m (insert i.id D) := by
  obtain ⟨huses, hrem⟩ := isDead_iff.mp hd
  have him : i ∈ m.insts := (List.mem_filter.mp (hm ▸ hi)).1
  constructor
  · intro j hj hjD
    rcases Finset.mem_insert.mp hjD with hid | hjD
    · rw [m.eq_of_id hj him hid]
      exact hrem
    · exact hD.removable j hj hjD
  · intro j hj v hv ho
    rcases Finset.mem_insert.mp hv with rfl | hv
    · by_cases hjD : j.id ∈ D
      · exact Finset.mem_insert_of_mem hjD
      · have hj' : j ∈ m'.insts := by
          rw [hm]
          exact List.mem_filter.mpr ⟨hj, by simpa using hjD⟩
        exact absurd ho ((m'.uses_eq_nil_iff _).mp huses j hj')
    · exact Finset.mem_insert_of_mem (hD.closed j hj v hv ho)

theorem without_erase {D : Finset Nat} (i : Nat) (funcs : List Func) :
    (without D funcs).map (Func.keep (·.id != i)) = without (insert i D) funcs := by
  simp only [without, List.map_map]
  apply List.map_congr_left
  intro f _
  rw [Function.comp, Func.keep_keep]
  apply Func.keep_congr
  intro j _
  by_cases hj : j.id = i <;> simp [hj]

theorem Module.ids_erase (i : Nat) (h : m.uses i = []) : (m.erase i h).ids = m.ids.erase i := by
  ext v
  simp only [Module.mem_ids, Module.insts_erase, List.mem_filter, Finset.mem_erase, bne_iff_ne]
  constructor
  · rintro ⟨j, ⟨hj, hne⟩, rfl⟩
    exact ⟨hne, j, hj, rfl⟩
  · rintro ⟨hne, j, hj, rfl⟩
    exact ⟨j, ⟨hj, hne⟩, rfl⟩

theorem Module.idsOf_subset (f : Nat) : m.idsOf f ⊆ m.ids := by
  intro v hv
  simp only [Module.idsOf, List.mem_toFinset, List.mem_map] at hv
  obtain ⟨i, hi, rfl⟩ := hv
  rw [Module.mem_ids]
  cases hf : m.funcs[f]? with
  | none => simp [hf] at hi
  | some g =>
    simp only [hf, Option.map_some, Option.getD_some] at hi
    exact ⟨i, List.mem_flatMap.mpr ⟨g, List.mem_of_getElem? hf, hi⟩, rfl⟩

theorem Inv.step (h : Inv m s) (hs : Step s t) : Inv m t := by
  obtain ⟨⟨D, hD, hfuncs⟩, hpresent⟩ := h
  cases hs with
  | nextFunction _ _ => exact ⟨⟨D, hD, hfuncs⟩, Module.idsOf_subset _⟩
  | pop hi ht =>
    obtain ⟨I, hI, rfl, ⟨_, rfl⟩ | ⟨hd, rfl⟩⟩ := State.pop_cases ht
    · exact ⟨⟨D, hD, hfuncs⟩, (Finset.erase_subset _ _).trans hpresent⟩
    · have huses := (isDead_iff.mp hd).1
      refine ⟨⟨insert I.id D, hD.insert (insts_of_without hfuncs) hI hd, ?_⟩, ?_⟩
      · show s.mod.funcs.map _ = _
        rw [hfuncs, without_erase]
      · rw [Module.ids_erase]
        intro v hv
        rcases Finset.mem_union.mp hv with hv | hv
        · exact Finset.mem_erase.mpr ⟨(Finset.mem_erase.mp hv).1,
            hpresent (Finset.mem_erase.mp hv).2⟩
        · rw [Inst.mem_operandInsts] at hv
          have hne : v ≠ I.id := by
            rintro rfl
            exact (s.mod.uses_eq_nil_iff _).mp huses I hI hv
          exact Finset.mem_erase.mpr ⟨hne, Module.mem_ids.mpr (s.mod.defined I hI v hv)⟩

/-- Functions still to come, instructions left, elements on the worklist. -/
def State.measure (s : State) : Nat ×ₗ Nat ×ₗ Nat :=
  toLex (s.pending.length, toLex (s.mod.ids.card, s.worklist.card))

theorem Step.measure_lt (hs : Step s t) : t.measure < s.measure := by
  cases hs with
  | nextFunction _ hp =>
    refine Prod.Lex.toLex_lt_toLex.mpr (.inl ?_)
    simp [hp]
  | pop hi ht =>
    obtain ⟨I, hI, rfl, ⟨_, rfl⟩ | ⟨hd, rfl⟩⟩ := State.pop_cases ht
    · refine Prod.Lex.toLex_lt_toLex.mpr (.inr ⟨rfl, Prod.Lex.toLex_lt_toLex.mpr (.inr ⟨rfl, ?_⟩)⟩)
      exact Finset.card_erase_lt_of_mem hi
    · refine Prod.Lex.toLex_lt_toLex.mpr (.inr ⟨rfl, Prod.Lex.toLex_lt_toLex.mpr (.inl ?_)⟩)
      rw [Module.ids_erase]
      exact Finset.card_erase_lt_of_mem (Module.mem_ids.mpr ⟨I, hI, rfl⟩)

/-- A run that cannot go on is at its end: no pointer on the worklist dangles. -/
theorem Inv.done (h : Inv m s) (hno : ∀ t, ¬ Step s t) : s.worklist = ∅ ∧ s.pending = [] := by
  have hw : s.worklist = ∅ := by
    rw [Finset.eq_empty_iff_forall_notMem]
    intro i hi
    obtain ⟨I, hI, hid⟩ := Module.mem_ids.mp (h.present hi)
    obtain ⟨t, ht⟩ := State.exists_pop hI hid
    exact hno t (.pop hi ht)
  refine ⟨hw, ?_⟩
  cases hp : s.pending with
  | nil => rfl
  | cons f fs => exact absurd (Step.nextFunction hw hp) (hno _)

/-- Every run on `m` ends, with a module that is `m` without some set of
instructions that only its members use. -/
theorem Inv.ends (h : Inv m s) : Ends Step
    (fun t => Inv m t ∧ t.worklist = ∅ ∧ t.pending = []) s :=
  Ends.of_invariant (Inv m) State.measure (fun _ _ hi hs => ⟨hi.step hs, hs.measure_lt⟩)
    (fun _ hi hno => ⟨hi, hi.done hno⟩) h

theorem Inv.startC (m : Module) : Inv m (startC m) := by
  refine Inv.start ?_ rfl
  intro v hv
  simp only [Dce.startC, List.mem_toFinset, List.mem_map] at hv
  obtain ⟨i, hi, rfl⟩ := hv
  exact Module.mem_ids.mpr ⟨i, (List.mem_filter.mp hi).1, rfl⟩

theorem Inv.startCpp (m : Module) : Inv m (startCpp m) :=
  Inv.start (Finset.empty_subset _) rfl

end CourseCompilers.Dce
