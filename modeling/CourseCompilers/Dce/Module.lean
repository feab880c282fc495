import Mathlib.Data.List.Nodup
import Mathlib.Data.Finset.Basic
import Mathlib.Data.List.Perm.Basic

/-! Modules as tutorial 5 sees them: instructions with identities, their operands,
and for every value the list of its uses. The use lists are kept exact, as LLVM
keeps them, so an instruction can only be erased when nothing uses it. -/

namespace CourseCompilers.Dce

/-- `LLVMOpcode`. -/
inductive Opcode where
  | ret | br | switch | indirectBr | invoke | unreachable | callBr | fNeg
  | add | fAdd | sub | fSub | mul | fMul | uDiv | sDiv | fDiv | uRem | sRem | fRem
  | shl | lShr | aShr | and | or | xor
  | alloca | load | store | getElementPtr
  | trunc | zExt | sExt | fpToUI | fpToSI | uiToFP | siToFP | fpTrunc | fpExt
  | ptrToInt | intToPtr | bitCast | addrSpaceCast
  | iCmp | fCmp | phi | call | select | userOp1 | userOp2 | vaArg
  | extractElement | insertElement | shuffleVector | extractValue | insertValue
  | fence | atomicCmpXchg | atomicRMW
  | resume | landingPad | cleanupRet | catchRet | catchPad | cleanupPad | catchSwitch
  deriving DecidableEq, Repr

/-- An operand: the result of an instruction, or anything else (a constant, an
argument, a global, a block). -/
inductive Value where
  | inst (id : Nat)
  | other (n : Nat)
  deriving DecidableEq, Repr

/-- An instruction; `id` is its address. `incoming` are the blocks a phi node takes
its operands from. -/
structure Inst where
  id : Nat
  opcode : Opcode
  isVolatile : Bool
  operands : List Value
  incoming : List Nat
  deriving DecidableEq, Repr

structure Func where
  blocks : List (List Inst)
  deriving DecidableEq, Repr

def Func.insts (f : Func) : List Inst := f.blocks.flatten

/-- The function with only the instructions that pass the test. -/
def Func.keep (p : Inst → Bool) (f : Func) : Func := ⟨f.blocks.map (·.filter p)⟩

/-- All instructions, in the order in which the passes go through them. -/
def instsOf (funcs : List Func) : List Inst := funcs.flatMap Func.insts

theorem Func.insts_keep (p : Inst → Bool) (f : Func) : (f.keep p).insts = f.insts.filter p := by
  simp [Func.keep, Func.insts, List.filter_flatten]

theorem instsOf_keep (p : Inst → Bool) (funcs : List Func) :
    instsOf (funcs.map (Func.keep p)) = (instsOf funcs).filter p := by
  simp [instsOf, List.flatMap_map, List.filter_flatMap, Func.insts_keep]

theorem Func.keep_keep (p q : Inst → Bool) (f : Func) :
    (f.keep q).keep p = f.keep fun i => p i && q i := by
  simp [Func.keep, List.filter_filter]

theorem Func.keep_congr {p q : Inst → Bool} {f : Func} (h : ∀ i ∈ f.insts, p i = q i) :
    f.keep p = f.keep q := by
  simp only [Func.keep, Func.mk.injEq]
  apply List.map_congr_left
  intro b hb
  exact List.filter_congr fun i hi => h i (List.mem_flatten.mpr ⟨b, hb, hi⟩)

theorem Func.keep_true (f : Func) : (f.keep fun _ => true) = f := by
  cases f
  simp [Func.keep]

/-- The users of `v` among the instructions, once for each operand. -/
def usersIn (insts : List Inst) (v : Nat) : List Nat :=
  insts.flatMap fun i => (i.operands.filter (· = .inst v)).map fun _ => i.id

theorem mem_usersIn {insts : List Inst} {v u : Nat} :
    u ∈ usersIn insts v ↔ ∃ i ∈ insts, i.id = u ∧ .inst v ∈ i.operands := by
  simp only [usersIn, List.mem_flatMap, List.mem_map, List.mem_filter, decide_eq_true_eq]
  constructor
  · rintro ⟨i, hi, o, ⟨ho, rfl⟩, rfl⟩
    exact ⟨i, hi, rfl, ho⟩
  · rintro ⟨i, hi, rfl, ho⟩
    exact ⟨i, hi, .inst v, ⟨ho, rfl⟩, rfl⟩

/-- Leaving out instructions leaves out what they use. -/
theorem usersIn_filter (insts : List Inst) (v : Nat) (p : Nat → Bool) :
    usersIn (insts.filter fun i => p i.id) v = (usersIn insts v).filter p := by
  induction insts with
  | nil => rfl
  | cons j insts ih =>
    simp only [usersIn, List.flatMap_cons, List.filter_append] at ih ⊢
    rw [← ih]
    by_cases hj : p j.id = true
    · have hkeep : ∀ l : List Value, (l.map fun _ => j.id).filter p = l.map fun _ => j.id :=
        fun l => List.filter_eq_self.mpr (by simp [hj])
      rw [hkeep]
      simp [hj]
    · have hdrop : ∀ l : List Value, (l.map fun _ => j.id).filter p = [] :=
        fun l => List.filter_eq_nil_iff.mpr (by simp [hj])
      rw [hdrop]
      simp [hj]

/-- An SSA module. `uses v` is `v`'s use list, which has no particular order. -/
structure Module where
  funcs : List Func
  uses : Nat → List Nat
  /-- Different instructions have different addresses. -/
  nodup : ((instsOf funcs).map Inst.id).Nodup
  /-- No operand is a pointer to an instruction outside the module. -/
  defined : ∀ i ∈ instsOf funcs, ∀ v, .inst v ∈ i.operands → ∃ j ∈ instsOf funcs, j.id = v
  /-- The use lists are exact. -/
  usesExact : ∀ v, (uses v).Perm (usersIn (instsOf funcs) v)

namespace Module

def insts (m : Module) : List Inst := instsOf m.funcs

/-- The instruction a pointer refers to; none if it dangles. -/
def find (m : Module) (id : Nat) : Option Inst := m.insts.find? (·.id = id)

theorem uses_eq_nil_iff (m : Module) (v : Nat) :
    m.uses v = [] ↔ ∀ i ∈ m.insts, .inst v ∉ i.operands := by
  have hnil : m.uses v = [] ↔ usersIn (instsOf m.funcs) v = [] := by
    constructor
    · intro h
      exact List.nil_perm.mp (h ▸ m.usesExact v)
    · intro h
      exact List.perm_nil.mp (h ▸ m.usesExact v)
  rw [hnil, List.eq_nil_iff_forall_not_mem]
  constructor
  · intro h i hi ho
    exact h i.id (mem_usersIn.mpr ⟨i, hi, rfl, ho⟩)
  · intro h u hu
    obtain ⟨i, hi, _, ho⟩ := mem_usersIn.mp hu
    exact h i hi ho

/-- Instructions of the module with the same address are the same. -/
theorem eq_of_id (m : Module) {i j : Inst} (hi : i ∈ m.insts) (hj : j ∈ m.insts)
    (h : i.id = j.id) : i = j :=
  List.inj_on_of_nodup_map m.nodup hi hj h

theorem find_eq_some_iff (m : Module) {id : Nat} {i : Inst} :
    m.find id = some i ↔ i ∈ m.insts ∧ i.id = id := by
  constructor
  · intro h
    exact ⟨List.mem_of_find?_eq_some h, by simpa using List.find?_some h⟩
  · rintro ⟨hi, rfl⟩
    cases hf : m.find i.id with
    | none =>
      have := List.find?_eq_none.mp hf i hi
      simp at this
    | some j =>
      have hj : j ∈ m.insts := List.mem_of_find?_eq_some hf
      have hid : j.id = i.id := by simpa using List.find?_some hf
      rw [m.eq_of_id hj hi hid]

/-- `LLVMInstructionEraseFromParent` on an instruction without uses: it leaves its
block, and its own uses of its operands end. -/
def erase (m : Module) (i : Nat) (h : m.uses i = []) : Module where
  funcs := m.funcs.map (Func.keep (·.id != i))
  uses v := (m.uses v).filter (· != i)
  nodup := by
    rw [instsOf_keep]
    exact m.nodup.sublist (List.filter_sublist.map _)
  defined := by
    rw [instsOf_keep]
    intro j hj v hv
    obtain ⟨hj, _⟩ := List.mem_filter.mp hj
    obtain ⟨k, hk, rfl⟩ := m.defined j hj v hv
    refine ⟨k, List.mem_filter.mpr ⟨hk, ?_⟩, rfl⟩
    rw [bne_iff_ne]
    intro hki
    exact (m.uses_eq_nil_iff i).mp h j hj (hki ▸ hv)
  usesExact v := by
    rw [instsOf_keep, usersIn_filter _ _ (· != i)]
    exact (m.usesExact v).filter _

theorem insts_erase (m : Module) (i : Nat) (h : m.uses i = []) :
    (m.erase i h).insts = m.insts.filter (·.id != i) := instsOf_keep _ _

end Module

end CourseCompilers.Dce
