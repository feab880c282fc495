import CourseCompilers.Ir.Growth
import CourseCompilers.Lib.Cfg

/-! The structural rules of the IR, and what a builder has to respect so that the
finished function obeys them. Dominance is a property of the finished function,
so the rules for it speak of a function `f` that the builder's own grows into. -/

namespace CourseCompilers.Ir
open Lib

/-- A block that ends in a terminator and has none before. -/
def Block.Terminated (b : Block) : Prop :=
  ∃ init t, b = init ++ [t] ∧ t.instr.isTerminator = true ∧
    ∀ i ∈ init, i.instr.isTerminator = false

/-- The definition of `id` comes before place `k` of block `b` on every way there. -/
def Func.DefinedBefore (f : Func) (id b k : Nat) : Prop :=
  ∃ d j i, f.InstAt d j i ∧ i.id = id ∧ i.instr.hasResult = true ∧
    (d = b ∧ j < k ∨ d ≠ b ∧ Dominates f.Edge 0 d b)

/-- Every operand of the instruction is defined before its place. -/
def Func.UsesOk (f : Func) (b k : Nat) (i : Inst) : Prop :=
  ∀ id, .inst id ∈ i.instr.operands → f.DefinedBefore id b k

structure Func.WellFormed (f : Func) : Prop where
  terminated : ∀ b < f.blocks.length, (f.block b).Terminated
  targets : ∀ a b, f.Edge a b → b < f.blocks.length
  uses : ∀ b k i, f.InstAt b k i → f.UsesOk b k i

/-! ## Terminators -/

/-- A block without a terminator yet. -/
def Block.Open (b : Block) : Prop := ∀ i ∈ b, i.instr.isTerminator = false

theorem Block.Open.terminate {b : Block} (h : b.Open) {t : Inst}
    (ht : t.instr.isTerminator = true) : Terminated (b ++ [t]) := ⟨b, t, rfl, ht, h⟩

/-- The current block is open. -/
def Builder.Open (B : Builder) : Prop := (B.func.block B.cur).Open

theorem Builder.Open.insert {B : Builder} (h : B.Open) (hok : B.Ok) {i : Instr}
    (hi : i.isTerminator = false) : (B.insert i).2.Open := by
  intro j hj
  rw [insert_cur, B.insert_block i B.cur hok, if_pos rfl] at hj
  rcases List.mem_append.mp hj with hj | hj
  · exact h j hj
  · rw [List.mem_singleton.mp hj]
    exact hi

theorem Builder.Line.open {known : Operand → Prop} {B B' : Builder} (h : B.Line known B')
    (hB : B.Open) (hok : B.Ok) : B'.Open := by
  induction h with
  | refl => exact hB
  | insert hl hi _ ih =>
    exact ih.insert (hl.straight.ok hok) (Instr.not_terminator_of_hasResult hi)

theorem Builder.Open.terminated {B : Builder} (h : B.Open) (hok : B.Ok) {i : Instr}
    (hi : i.isTerminator = true) : ((B.insert i).2.func.block B.cur).Terminated := by
  rw [B.insert_block i B.cur hok, if_pos rfl]
  exact Block.Open.terminate h hi

/-- Emission from `B` to `B'` finished every block it touched but the last one,
which is open. -/
structure Builder.Closes (B B' : Builder) : Prop where
  open' : B'.Open
  closed : ∀ b < B'.func.blocks.length, (b = B.cur ∨ B.func.blocks.length ≤ b) → b ≠ B'.cur →
    (B'.func.block b).Terminated

theorem Builder.Closes.trans {B B' B'' : Builder} (h : B.Closes B') (h' : B'.Closes B'')
    (hframe : ∀ b < B'.func.blocks.length, b ≠ B'.cur → B''.func.block b = B'.func.block b) :
    B.Closes B'' where
  open' := h'.open'
  closed b hb hnew hne := by
    by_cases hlate : b = B'.cur ∨ B'.func.blocks.length ≤ b
    · exact h'.closed b hb hlate hne
    · rw [not_or, Nat.not_le] at hlate
      rw [hframe b hlate.2 hlate.1]
      exact h.closed b hlate.2 hnew hlate.1

/-! ## Definitions before uses -/

/-- The operand's definition is built already and dominates the insertion point. -/
def Builder.Avail (f : Func) (B : Builder) : Operand → Prop
  | .const _ => True
  | .inst id => ∃ d j i, B.func.InstAt d j i ∧ i.id = id ∧ i.instr.hasResult = true ∧
      Dominates f.Edge 0 d B.cur

/-- The uses in the code appended between `B` and `B'` are fine in `f`. -/
def Builder.NewUsesOk (f : Func) (B B' : Builder) : Prop :=
  ∀ b k i, B'.func.InstAt b k i → B.func.InstAt b k i ∨ f.UsesOk b k i

variable {f : Func}

theorem Builder.NewUsesOk.refl (B : Builder) : B.NewUsesOk f B := fun _ _ _ => .inl

theorem Builder.NewUsesOk.trans {B B' B'' : Builder} (h : B.NewUsesOk f B')
    (h' : B'.NewUsesOk f B'') : B.NewUsesOk f B'' := by
  intro b k i hi
  rcases h' b k i hi with hi | hok
  · exact h b k i hi
  · exact .inr hok

theorem Func.InstAt.lt {g : Func} {b k : Nat} {i : Inst} (h : g.InstAt b k i) :
    k < (g.block b).length := (List.getElem?_eq_some_iff.mp h).1

theorem Func.InstAt.block_lt {g : Func} {b k : Nat} {i : Inst} (h : g.InstAt b k i) :
    b < g.blocks.length := by
  by_contra hb
  rw [Func.InstAt, Func.block_eq_nil (Nat.le_of_not_lt hb)] at h
  cases h

/-- Operands that are available make an appended use fine. -/
theorem Builder.NewUsesOk.insert {B : Builder} {i : Instr} (hext : (B.insert i).2.func.Extends f)
    (hi : ∀ o ∈ i.operands, B.Avail f o) : B.NewUsesOk f (B.insert i).2 := by
  intro b k j hj
  rcases insert_instAt hj with hj | ⟨rfl, rfl, rfl⟩
  · exact .inl hj
  · refine .inr fun id hid => ?_
    obtain ⟨d, m, e, he, hide, hres, hdom⟩ := hi _ hid
    refine ⟨d, m, e, he.mono ((B.insert_extends i).trans hext), hide, hres, ?_⟩
    by_cases hd : d = B.cur
    · subst hd
      exact .inl ⟨rfl, he.lt⟩
    · exact .inr ⟨hd, hdom⟩

theorem Builder.Avail.straight {B B' : Builder} {o : Operand} (h : B.Avail f o)
    (hs : B.Straight B') : B'.Avail f o := by
  cases o with
  | const c => trivial
  | inst id =>
    obtain ⟨d, j, i, hi, hid, hres, hdom⟩ := h
    exact ⟨d, j, i, hi.mono hs.grows, hid, hres, hs.cur ▸ hdom⟩

theorem Builder.insert_instAt_self {B : Builder} (i : Instr) (hok : B.Ok) :
    (B.insert i).2.func.InstAt B.cur (B.func.block B.cur).length ⟨B.nextId, i⟩ := by
  rw [Func.InstAt, B.insert_block i B.cur hok, if_pos rfl, List.getElem?_concat_length]

/-- The result of the instruction just appended. -/
theorem Builder.Avail.new {B : Builder} {i : Instr} (hok : B.Ok) (hi : i.hasResult = true) :
    (B.insert i).2.Avail f (.inst B.nextId) :=
  ⟨B.cur, _, _, B.insert_instAt_self i hok, rfl, hi, Dominates.refl _⟩

/-- Results of a straight line are available at its end. -/
theorem Builder.Line.avail {known : Operand → Prop} {B B' : Builder} (h : B.Line known B')
    (hok : B.Ok) {o : Operand} (ho : o.Between B.nextId B'.nextId) : B'.Avail f o := by
  induction h with
  | refl =>
    cases o with
    | const c => trivial
    | inst id => exact absurd ho.2 (Nat.not_lt.mpr ho.1)
  | @insert B' i hl hi _ ih =>
    cases o with
    | const c => trivial
    | inst id =>
      by_cases hid : id < B'.nextId
      · exact (ih ⟨ho.1, hid⟩).straight (B'.straight_insert i)
      · have hlt := ho.2
        rw [insert_nextId] at hlt
        obtain rfl : id = B'.nextId := by omega
        exact .new (hl.straight.ok hok) hi

theorem Builder.Line.newUsesOk {known : Operand → Prop} {B B' : Builder} (h : B.Line known B')
    (hok : B.Ok) (hext : B'.func.Extends f) (hknown : ∀ o, known o → B.Avail f o) :
    B.NewUsesOk f B' := by
  induction h with
  | refl => exact .refl B
  | @insert B' i hl hi ho ih =>
    refine (ih ((B'.insert_extends i).trans hext)).trans (.insert hext fun o hmem => ?_)
    rcases ho o hmem with hk | hb
    · exact (hknown o hk).straight hl.straight
    · exact hl.avail hok hb

/-- Branches stay inside the function. -/
def Builder.InRange (B : Builder) : Prop := ∀ a b, B.func.Edge a b → b < B.func.blocks.length

theorem Builder.InRange.entry : Builder.entry.InRange := by
  rintro a b ⟨i, hi, _⟩
  rw [Builder.entry_block] at hi
  cases hi

theorem Builder.InRange.grow {B B' : Builder} (h : B.InRange) (hg : B.Grows B') : B'.InRange := by
  intro a b he
  have := hg.length_le
  rcases hg.edges a b he with he | hnew
  · have := h a b he
    omega
  · omega

/-- No edge that `f` has beyond `B'` leads into the blocks added since `B`. -/
def Builder.Sealed (f : Func) (B B' : Builder) : Prop :=
  ∀ a b, f.Edge a b → B.func.blocks.length ≤ b → b < B'.func.blocks.length → B'.func.Edge a b

/-- What is available where a piece of emission starts is available in all the
blocks it adds: control enters them only from there. -/
theorem Builder.Avail.region {B B' : Builder} {o : Operand} (h : B.Avail f o) (hok : B.Ok)
    (hg : B.Grows B') (hrange : B.InRange) (hseal : B.Sealed f B') {B₁ : Builder}
    (hext : B.func.Extends B₁.func)
    (hcur : B₁.cur = B.cur ∨
      B.func.blocks.length ≤ B₁.cur ∧ B₁.cur < B'.func.blocks.length) : B₁.Avail f o := by
  cases o with
  | const c => trivial
  | inst id =>
    obtain ⟨d, j, i, hi, hid, hres, hdom⟩ := h
    refine ⟨d, j, i, hi.mono hext, hid, hres, ?_⟩
    rcases hcur with hcur | hnew
    · rw [hcur]
      exact hdom
    · refine Dominates.of_region (R := fun b => B.func.blocks.length ≤ b ∧
        b < B'.func.blocks.length) ?_ ?_ hnew
      · rw [Builder.Ok] at hok
        omega
      · rintro a b he ⟨hle, hlt⟩
        have he' := hseal a b he hle hlt
        obtain ⟨t, ht, _⟩ := he'
        obtain ⟨k, hk⟩ := List.getElem?_of_mem ht
        have ha : a < B'.func.blocks.length := Func.InstAt.block_lt (k := k) (i := t) hk
        rcases hg.edges a b (hseal a b he hle hlt) with hold | ⟨rfl | ha', _⟩
        · exact absurd (hrange a b hold) (by omega)
        · exact .inr hdom
        · exact .inl ⟨ha', ha⟩

theorem Builder.Sealed.left {B B' B'' : Builder} (h : B.Sealed f B'') (hg : B'.Grows B'') :
    B.Sealed f B' := by
  intro a b he hle hlt
  have := hg.length_le
  rcases hg.edges a b (h a b he hle (by omega)) with he' | hnew
  · exact he'
  · omega

theorem Builder.Sealed.right {B B' B'' : Builder} (h : B.Sealed f B'') (hg : B.Grows B') :
    B'.Sealed f B'' := fun a b he hle hlt => h a b he (Nat.le_trans hg.length_le hle) hlt

theorem Builder.NewUsesOk.appendBlock (B : Builder) : B.NewUsesOk f B.appendBlock.2 := by
  intro b k i hi
  rw [Func.InstAt, appendBlock_block] at hi
  exact .inl hi

end CourseCompilers.Ir
