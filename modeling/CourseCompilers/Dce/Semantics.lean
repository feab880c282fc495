import CourseCompilers.Dce.Worklist
import CourseCompilers.Lib.Skipping
import Mathlib.Logic.Function.Basic

/-! What a module does, and that removing dead instructions does not change it.
The meaning of single instructions is a parameter. A removable instruction has a
result and nothing else, which may depend on its operands and on everything
observed so far, so on what memory contains and on which round of which loop it
is executed in. Every other instruction is observed: a store, a call, a volatile
load, a branch decision, a return. -/

namespace CourseCompilers.Dce
open Lib

/-- What an instruction that is not removable does. -/
inductive Effect (V : Type) where
  /-- Go on with the next instruction; `v` is the result. -/
  | value (v : V)
  /-- Call the function `f` of the module. -/
  | enter (f : Nat) (args : List V)
  /-- Continue in block `b`. -/
  | goto (b : Nat)
  | ret (v : V)

/-- An executed instruction that is not removable, the values of its operands and
what it did. -/
structure Event (V : Type) where
  inst : Inst
  operands : List V
  effect : Effect V

abbrev Trace (V : Type) := List (Event V)

/-- The meaning of single instructions; the outcome `none` is undefined behaviour.
`other` gives the operands that are not instructions, in a call with the given
arguments; `resume` says how a call goes on once its callee has returned. -/
structure Meaning (V : Type) where
  other : List V → Nat → V
  result : Inst → List V → Trace V → Option V
  behave : Inst → List V → Trace V → Option (Effect V)
  resume : Inst → V → Trace V → Option (Effect V)

/-- A call in progress: what is left of the current block, and the results so far. -/
structure Frame (V : Type) where
  func : Nat
  block : Nat
  args : List V
  rest : List Inst
  regs : Nat → Option V

/-- Whether a call is in progress or has just returned. -/
inductive Control (V : Type) where
  | run (fr : Frame V)
  | back (v : V)

/-- `callers` wait for the return of the call instruction named with them. -/
structure Config (V : Type) where
  control : Control V
  callers : List (Inst × Frame V)
  trace : Trace V

variable {V : Type} (M : Meaning V)

def Inst.isPhi (i : Inst) : Bool := i.opcode = .phi

def Frame.operand (fr : Frame V) : Value → Option V
  | .inst id => fr.regs id
  | .other n => some (M.other fr.args n)

def Frame.operandValues (fr : Frame V) (i : Inst) : Option (List V) :=
  i.operands.mapM (fr.operand M)

def Frame.write (fr : Frame V) (id : Nat) (v : V) : Frame V :=
  { fr with regs := Function.update fr.regs id (some v) }

/-- The result of a phi node on arrival from block `pred`. -/
def Frame.phi (fr : Frame V) (τ : Trace V) (pred : Option Nat) (i : Inst) : Option V :=
  (pred.bind fun b => i.incoming.findIdx? (· = b)).bind fun k =>
    (i.operands[k]?).bind fun o => (fr.operand M o).bind fun v => M.result i [v] τ

/-- The phi nodes of a block, which all read the results from before the block. -/
def Frame.phis (fr : Frame V) (τ : Trace V) (pred : Option Nat) :
    List Inst → (Nat → Option V) → Option (Nat → Option V)
  | [], regs => some regs
  | i :: is, regs =>
      (fr.phi M τ pred i).bind fun v => fr.phis τ pred is (Function.update regs i.id (some v))

/-- Continue at the start of block `b`. -/
def Frame.jump (funcs : List Func) (fr : Frame V) (τ : Trace V) (pred : Option Nat) (b : Nat) :
    Option (Frame V) :=
  (funcs[fr.func]?.bind fun f => f.blocks[b]?).bind fun is =>
    (fr.phis M τ pred (is.filter Inst.isPhi) fr.regs).map fun regs =>
      { fr with block := b, rest := is.filter fun i => !i.isPhi, regs := regs }

/-- Enter function `f` at its first block. -/
def Frame.enter (funcs : List Func) (τ : Trace V) (f : Nat) (args : List V) : Option (Frame V) :=
  Frame.jump M funcs ⟨f, 0, args, [], fun _ => none⟩ τ none 0

/-- Do what instruction `i` of the call `fr` decided. -/
def perform (funcs : List Func) (fr : Frame V) (callers : List (Inst × Frame V)) (τ : Trace V)
    (i : Inst) (vs : List V) (e : Effect V) : Outcome (Config V) (Trace V × V) :=
  let τ := τ ++ [⟨i, vs, e⟩]
  match e with
  | .value v => .next ⟨.run (fr.write i.id v), callers, τ⟩
  | .enter f args =>
      match Frame.enter M funcs τ f args with
      | some callee => .next ⟨.run callee, (i, fr) :: callers, τ⟩
      | none => .stuck
  | .goto b =>
      match fr.jump M funcs τ (some fr.block) b with
      | some fr => .next ⟨.run fr, callers, τ⟩
      | none => .stuck
  | .ret v => .next ⟨.back v, callers, τ⟩

/-- Execute the next instruction, or go back to the caller. -/
def step (funcs : List Func) (c : Config V) : Outcome (Config V) (Trace V × V) :=
  match c.control with
  | .back v =>
      match c.callers with
      | [] => .halt (c.trace, v)
      | (i, fr) :: callers =>
          match M.resume i v c.trace with
          | some e => perform M funcs fr callers c.trace i [v] e
          | none => .stuck
  | .run fr =>
      match fr.rest with
      | [] => .stuck
      | i :: rest =>
          match fr.operandValues M i with
          | none => .stuck
          | some vs =>
              if i.removable then
                match M.result i vs c.trace with
                | some v => .next { c with control := .run ({ fr with rest := rest }.write i.id v) }
                | none => .stuck
              else
                match M.behave i vs c.trace with
                | some e => perform M funcs { fr with rest := rest } c.callers c.trace i vs e
                | none => .stuck

/-- The call of function `f` from outside; none if it has no first block. -/
def call (funcs : List Func) (f : Nat) (args : List V) : Option (Config V) :=
  (Frame.enter M funcs [] f args).map fun fr => ⟨.run fr, [], []⟩

/-- Two modules behave alike on the calls of the first that are free of undefined
behaviour: the same trace and result if the call returns, and the same traces on
the way. -/
def SameBehaviour (funcs funcs' : List Func) : Prop :=
  ∀ f args c, call M funcs f args = some c → Safe (step M funcs) c →
    ∃ c', call M funcs' f args = some c' ∧ Safe (step M funcs') c' ∧
      (∀ a, Returns (step M funcs) c a ↔ Returns (step M funcs') c' a) ∧
      ∀ τ, (∃ n d, Reaches (step M funcs) c n d ∧ d.trace = τ) ↔
        ∃ n d, Reaches (step M funcs') c' n d ∧ d.trace = τ

/-! ## Removing what only removed instructions use -/

variable {M}

/-- Calls of `m` and of `m` without `D`: they differ in the results of `D` only. -/
structure Frame.Sim (m : Module) (D : Finset Nat) (fr fr' : Frame V) : Prop where
  func : fr'.func = fr.func
  block : fr'.block = fr.block
  args : fr'.args = fr.args
  rest : fr'.rest = fr.rest.filter (·.id ∉ D)
  inModule : ∀ i ∈ fr.rest, i ∈ m.insts
  regs : ∀ id, id ∉ D → fr'.regs id = fr.regs id

inductive Control.Sim (m : Module) (D : Finset Nat) : Control V → Control V → Prop
  | run {fr fr' : Frame V} : fr.Sim m D fr' → Control.Sim m D (.run fr) (.run fr')
  | back (v : V) : Control.Sim m D (.back v) (.back v)

structure Config.Sim (m : Module) (D : Finset Nat) (c c' : Config V) : Prop where
  control : c.control.Sim m D c'.control
  callers : List.Forall₂ (fun p p' => p.1 = p'.1 ∧ p.2.Sim m D p'.2) c.callers c'.callers
  trace : c.trace = c'.trace

theorem Frame.Sim.write {m : Module} {D : Finset Nat} {fr fr' : Frame V} (h : fr.Sim m D fr')
    (id : Nat) (v : V) : (fr.write id v).Sim m D (fr'.write id v) where
  func := h.func
  block := h.block
  args := h.args
  rest := h.rest
  inModule := h.inModule
  regs k hk := by
    by_cases hki : k = id
    · simp [Frame.write, hki]
    · simp [Frame.write, hki, h.regs k hk]

section
variable {m : Module} {D : Finset Nat} (hD : Removal m D)
include hD

theorem Frame.Sim.operand {fr fr' : Frame V} (h : fr.Sim m D fr') {i : Inst} (hi : i ∈ m.insts)
    (hiD : i.id ∉ D) {o : Value} (ho : o ∈ i.operands) : fr'.operand M o = fr.operand M o := by
  cases o with
  | other n => rw [Frame.operand, Frame.operand, h.args]
  | inst v => exact h.regs v fun hv => hiD (hD.closed i hi v hv ho)

theorem Frame.Sim.operandValues {fr fr' : Frame V} (h : fr.Sim m D fr') {i : Inst}
    (hi : i ∈ m.insts) (hiD : i.id ∉ D) : fr'.operandValues M i = fr.operandValues M i := by
  have hcongr : ∀ os : List Value, (∀ o ∈ os, fr'.operand M o = fr.operand M o) →
      os.mapM (fr'.operand M) = os.mapM (fr.operand M) := by
    intro os hos
    induction os with
    | nil => rfl
    | cons o os ih =>
      obtain ⟨ho, hos⟩ := List.forall_mem_cons.mp hos
      rw [List.mapM_cons, List.mapM_cons, ho, ih hos]
  exact hcongr _ fun o ho => h.operand hD hi hiD ho

theorem Frame.Sim.phi {fr fr' : Frame V} (h : fr.Sim m D fr') (τ : Trace V) (pred : Option Nat)
    {i : Inst} (hi : i ∈ m.insts) (hiD : i.id ∉ D) :
    fr'.phi M τ pred i = fr.phi M τ pred i := by
  unfold Frame.phi
  cases hk : pred.bind fun b => i.incoming.findIdx? (· = b) with
  | none => rfl
  | some k =>
    simp only [Option.bind_some]
    cases ho : i.operands[k]? with
    | none => rfl
    | some o =>
      rw [Option.bind_some, Option.bind_some, h.operand hD hi hiD (List.mem_of_getElem? ho)]

/-- Removed phi nodes only change removed results. -/
theorem Frame.Sim.phis {fr fr' : Frame V} (h : fr.Sim m D fr') (τ : Trace V) (pred : Option Nat)
    {is : List Inst} (his : ∀ i ∈ is, i ∈ m.insts) {regs regs' r : Nat → Option V}
    (hregs : ∀ id, id ∉ D → regs' id = regs id) (hr : fr.phis M τ pred is regs = some r) :
    ∃ r', fr'.phis M τ pred (is.filter (·.id ∉ D)) regs' = some r' ∧
      ∀ id, id ∉ D → r' id = r id := by
  induction is generalizing regs regs' with
  | nil =>
    cases hr
    exact ⟨regs', rfl, hregs⟩
  | cons i is ih =>
    obtain ⟨hi, his⟩ := List.forall_mem_cons.mp his
    simp only [Frame.phis, Option.bind_eq_some_iff] at hr
    obtain ⟨v, hv, hr⟩ := hr
    by_cases hiD : i.id ∈ D
    · rw [List.filter_cons_of_neg (by simpa using hiD)]
      refine ih his (fun id hid => ?_) hr
      have hne : id ≠ i.id := fun he => hid (he.symm ▸ hiD)
      rw [Function.update_of_ne hne, hregs id hid]
    · rw [List.filter_cons_of_pos (by simpa using hiD)]
      simp only [Frame.phis, h.phi hD τ pred hi hiD, hv, Option.bind_some]
      refine ih his (fun id hid => ?_) hr
      by_cases he : id = i.id
      · subst he
        simp
      · simp [he, hregs id hid]

theorem Frame.Sim.jump {fr fr' : Frame V} (h : fr.Sim m D fr') (τ : Trace V) (pred : Option Nat)
    (b : Nat) {g : Frame V} (hg : fr.jump M m.funcs τ pred b = some g) :
    ∃ g', fr'.jump M (without D m.funcs) τ pred b = some g' ∧ g.Sim m D g' := by
  simp only [Frame.jump, Option.bind_eq_some_iff, Option.map_eq_some_iff] at hg
  obtain ⟨is, ⟨f, hf, his⟩, r, hr, rfl⟩ := hg
  have hblock : ((without D m.funcs)[fr'.func]?.bind fun f => f.blocks[b]?) =
      some (is.filter (·.id ∉ D)) := by
    simp [without, h.func, hf, Func.keep, his]
  have hmod : ∀ i ∈ is, i ∈ m.insts := fun i hi =>
    List.mem_flatMap.mpr ⟨f, List.mem_of_getElem? hf,
      List.mem_flatten.mpr ⟨is, List.mem_of_getElem? his, hi⟩⟩
  obtain ⟨r', hr', hagree⟩ := h.phis hD τ pred
    (fun i hi => hmod i (List.mem_filter.mp hi).1) h.regs hr
  have hphis : (is.filter (·.id ∉ D)).filter Inst.isPhi =
      (is.filter Inst.isPhi).filter (·.id ∉ D) := by
    rw [List.filter_filter, List.filter_filter]
    exact List.filter_congr fun i _ => Bool.and_comm _ _
  have hrest : (is.filter (·.id ∉ D)).filter (fun i => !i.isPhi) =
      (is.filter fun i => !i.isPhi).filter (·.id ∉ D) := by
    rw [List.filter_filter, List.filter_filter]
    exact List.filter_congr fun i _ => Bool.and_comm _ _
  have hg' : fr'.jump M (without D m.funcs) τ pred b = some { fr' with
      block := b, rest := (is.filter fun i => !i.isPhi).filter (·.id ∉ D), regs := r' } := by
    simp only [Frame.jump, hblock, Option.bind_some, hphis, hr', Option.map_some, hrest]
  exact ⟨_, hg', h.func, rfl, h.args, rfl, fun i hi => hmod i (List.mem_filter.mp hi).1, hagree⟩

theorem Frame.enter_sim (τ : Trace V) (f : Nat) (args : List V) {g : Frame V}
    (hg : Frame.enter M m.funcs τ f args = some g) :
    ∃ g', Frame.enter M (without D m.funcs) τ f args = some g' ∧ g.Sim m D g' := by
  have hstart : Frame.Sim (V := V) m D ⟨f, 0, args, [], fun _ => none⟩
      ⟨f, 0, args, [], fun _ => none⟩ :=
    ⟨rfl, rfl, rfl, rfl, fun _ hi => absurd hi List.not_mem_nil, fun _ _ => rfl⟩
  exact hstart.jump hD τ none 0 hg

/-- Both modules do what an instruction decided in the same way. -/
theorem perform_sim {fr fr' : Frame V} (h : fr.Sim m D fr')
    {callers callers' : List (Inst × Frame V)}
    (hc : List.Forall₂ (fun p p' => p.1 = p'.1 ∧ p.2.Sim m D p'.2) callers callers')
    (τ : Trace V) (i : Inst) (vs : List V) (e : Effect V) (c : Config V)
    (hp : perform M m.funcs fr callers τ i vs e = .next c) :
    ∃ c', perform M (without D m.funcs) fr' callers' τ i vs e = .next c' ∧ c.Sim m D c' := by
  cases e with
  | value v =>
    cases hp
    exact ⟨_, rfl, .run (h.write i.id v), hc, rfl⟩
  | enter f args =>
    simp only [perform] at hp ⊢
    cases hg : Frame.enter M m.funcs (τ ++ [⟨i, vs, .enter f args⟩]) f args with
    | none => simp [hg] at hp
    | some g =>
      obtain ⟨g', hg', hsim⟩ := Frame.enter_sim hD _ f args hg
      simp only [hg, Outcome.next.injEq] at hp
      subst hp
      exact ⟨⟨.run g', (i, fr') :: callers', _⟩, by simp only [hg'], .run hsim,
        .cons ⟨rfl, h⟩ hc, rfl⟩
  | goto b =>
    simp only [perform] at hp ⊢
    cases hg : fr.jump M m.funcs (τ ++ [⟨i, vs, .goto b⟩]) (some fr.block) b with
    | none => simp [hg] at hp
    | some g =>
      obtain ⟨g', hg', hsim⟩ := h.jump hD _ _ b hg
      simp only [hg, Outcome.next.injEq] at hp
      subst hp
      exact ⟨⟨.run g', callers', _⟩, by simp only [h.block, hg'], .run hsim, hc, rfl⟩
  | ret v =>
    cases hp
    exact ⟨_, rfl, .back v, hc, rfl⟩

end

theorem perform_ne_halt (funcs : List Func) (fr : Frame V) (callers : List (Inst × Frame V))
    (τ : Trace V) (i : Inst) (vs : List V) (e : Effect V) (a : Trace V × V) :
    perform M funcs fr callers τ i vs e ≠ .halt a := by
  cases e <;> simp only [perform, ne_eq] <;> (try split) <;> simp

/-- The steps the smaller module may skip before it has to make one. -/
def Config.size (c : Config V) : Nat :=
  match c.control with
  | .run fr => fr.rest.length
  | .back _ => 0

/-- Past a removed instruction: the smaller module is there already. -/
theorem Frame.Sim.drop {m : Module} {D : Finset Nat} {fr fr' : Frame V} (h : fr.Sim m D fr')
    {i : Inst} {rest : List Inst} (hrest : fr.rest = i :: rest) (hiD : i.id ∈ D) (v : V) :
    ({ fr with rest := rest }.write i.id v).Sim m D fr' where
  func := h.func
  block := h.block
  args := h.args
  rest := by
    rw [h.rest, hrest, List.filter_cons_of_neg (by simpa using hiD)]
    rfl
  inModule j hj := h.inModule j (hrest ▸ List.mem_cons_of_mem _ hj)
  regs id hid := by
    have hne : id ≠ i.id := fun he => hid (he.symm ▸ hiD)
    simp [Frame.write, hne, h.regs id hid]

/-- Past an instruction that both modules have. -/
theorem Frame.Sim.advance {m : Module} {D : Finset Nat} {fr fr' : Frame V} (h : fr.Sim m D fr')
    {i : Inst} {rest : List Inst} (hrest : fr.rest = i :: rest) :
    Frame.Sim m D { fr with rest := rest } { fr' with rest := rest.filter (·.id ∉ D) } :=
  ⟨h.func, h.block, h.args, rfl, fun j hj => h.inModule j (hrest ▸ List.mem_cons_of_mem _ hj),
    h.regs⟩

/-- Executing an instruction. -/
theorem Removal.run_matches {m : Module} {D : Finset Nat} (hD : Removal m D) {fr fr' : Frame V}
    (hfr : fr.Sim m D fr') {callers callers' : List (Inst × Frame V)} (τ : Trace V)
    (hc : List.Forall₂ (fun p p' => p.1 = p'.1 ∧ p.2.Sim m D p'.2) callers callers') :
    Matches (step M m.funcs) (step M (without D m.funcs)) (Config.Sim m D) Config.size
      ⟨.run fr, callers, τ⟩ ⟨.run fr', callers', τ⟩ := by
  cases hrest : fr.rest with
  | nil =>
    exact .intro (fun t ht => by simp [step, hrest] at ht) (fun a ha => by simp [step, hrest] at ha)
  | cons i rest =>
    have hi : i ∈ m.insts := hfr.inModule i (by simp [hrest])
    cases hvs : fr.operandValues M i with
    | none =>
      exact .intro (fun t ht => by simp [step, hrest, hvs] at ht)
        (fun a ha => by simp [step, hrest, hvs] at ha)
    | some vs =>
      by_cases hiD : i.id ∈ D
      · -- the smaller module skips the instruction
        have hrem := hD.removable i hi hiD
        cases hv : M.result i vs τ with
        | none =>
          exact .intro (fun t ht => by simp [step, hrest, hvs, hrem, hv] at ht)
            (fun a ha => by simp [step, hrest, hvs, hrem, hv] at ha)
        | some v =>
          refine .intro (fun t ht => .inl ?_)
            (fun a ha => by simp [step, hrest, hvs, hrem, hv] at ha)
          simp only [step, hrest, hvs, hrem, hv, ↓reduceIte, Outcome.next.injEq] at ht
          subst ht
          refine ⟨⟨.run (hfr.drop hrest hiD v), hc, rfl⟩, ?_⟩
          simp [Config.size, Frame.write, hrest]
      · have hrest' : fr'.rest = i :: rest.filter (·.id ∉ D) := by
          rw [hfr.rest, hrest, List.filter_cons_of_pos (by simpa using hiD)]
        have hvs' : fr'.operandValues M i = some vs := by rw [hfr.operandValues hD hi hiD, hvs]
        have hadv := hfr.advance hrest
        cases hrem : i.removable with
        | true =>
          cases hv : M.result i vs τ with
          | none =>
            exact .intro (fun t ht => by simp [step, hrest, hvs, hrem, hv] at ht)
              (fun a ha => by simp [step, hrest, hvs, hrem, hv] at ha)
          | some v =>
            refine .intro (fun t ht => .inr ?_)
              (fun a ha => by simp [step, hrest, hvs, hrem, hv] at ha)
            simp only [step, hrest, hvs, hrem, hv, ↓reduceIte, Outcome.next.injEq] at ht
            subst ht
            exact ⟨⟨.run ({ fr' with rest := rest.filter (·.id ∉ D) }.write i.id v), callers', τ⟩,
              by simp only [step, hrest', hvs', hrem, hv, ↓reduceIte],
              .run (hadv.write i.id v), hc, rfl⟩
        | false =>
          cases he : M.behave i vs τ with
          | none =>
            exact .intro (fun t ht => by simp [step, hrest, hvs, hrem, he] at ht)
              (fun a ha => by simp [step, hrest, hvs, hrem, he] at ha)
          | some e =>
            refine .intro (fun t ht => .inr ?_) fun a ha => ?_
            · simp only [step, hrest, hvs, hrem, he, Bool.false_eq_true, ↓reduceIte] at ht
              simp only [step, hrest', hvs', hrem, he, Bool.false_eq_true, ↓reduceIte]
              exact perform_sim hD hadv hc τ i vs e t ht
            · simp only [step, hrest, hvs, hrem, he, Bool.false_eq_true, ↓reduceIte] at ha
              exact absurd ha (perform_ne_halt _ _ _ _ _ _ _ _)

/-- A removal is a simulation that skips the removed instructions. -/
theorem Removal.skips {m : Module} {D : Finset Nat} (hD : Removal m D) :
    Skips (step M m.funcs) (step M (without D m.funcs)) (Config.Sim m D) Config.size := by
  rintro ⟨control, callers, τ⟩ ⟨control', callers', τ'⟩ ⟨hctl, hcallers, htrace⟩
  obtain rfl : τ = τ' := htrace
  cases hctl with
  | run hfr => exact hD.run_matches hfr τ hcallers
  | back v =>
    cases hcallers with
    | nil =>
      exact .intro (fun t ht => by simp [step] at ht) (fun a ha => by simpa [step] using ha)
    | @cons p p' callers callers' hp hrest =>
      obtain ⟨i, fr⟩ := p
      obtain ⟨i', fr'⟩ := p'
      obtain ⟨rfl, hfr⟩ := hp
      cases he : M.resume i v τ with
      | none =>
        exact .intro (fun t ht => by simp [step, he] at ht) (fun a ha => by simp [step, he] at ha)
      | some e =>
        refine .intro (fun t ht => .inr ?_) fun a ha => ?_
        · simp only [step, he] at ht ⊢
          exact perform_sim hD hfr hrest τ i [v] e t ht
        · simp only [step, he] at ha
          exact absurd ha (perform_ne_halt _ _ _ _ _ _ _ _)

/-- Removing a set of removable instructions that only its members use. -/
theorem Removal.sameBehaviour {m : Module} {D : Finset Nat} (hD : Removal m D) :
    SameBehaviour M m.funcs (without D m.funcs) := by
  intro f args c hcall hsafe
  simp only [call, Option.map_eq_some_iff] at hcall ⊢
  obtain ⟨g, hg, rfl⟩ := hcall
  obtain ⟨g', hg', hsim⟩ := Frame.enter_sim hD [] f args hg
  have hR : Config.Sim m D ⟨.run g, [], []⟩ ⟨.run g', [], []⟩ := ⟨.run hsim, .nil, rfl⟩
  refine ⟨_, ⟨g', hg', rfl⟩, hD.skips.safe hR hsafe, hD.skips.returns_iff hR hsafe, fun τ => ?_⟩
  exact hD.skips.reaches_iff Config.trace Config.trace (fun _ _ h => h.trace) hR hsafe τ

end CourseCompilers.Dce
