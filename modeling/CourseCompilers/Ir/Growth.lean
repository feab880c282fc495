import CourseCompilers.Ir.Builder

/-! What a whole piece of emission, with blocks of its own, may do to a function
under construction. Code is appended to the current block and to new blocks
only, and control enters the new blocks only from there. -/

namespace CourseCompilers.Ir
open Lib

/-- A branch in block `a` names block `b`. -/
def Func.Edge (f : Func) (a b : Nat) : Prop := ∃ i ∈ f.block a, b ∈ i.instr.targets

theorem Func.Edge.mono {f g : Func} (h : f.Extends g) {a b : Nat} (he : f.Edge a b) :
    g.Edge a b := by
  obtain ⟨i, hi, hb⟩ := he
  exact ⟨i, (h a).subset hi, hb⟩

theorem Builder.insert_edge {B : Builder} {i : Instr} {a b : Nat}
    (h : (B.insert i).2.func.Edge a b) : B.func.Edge a b ∨ (a = B.cur ∧ b ∈ i.targets) := by
  obtain ⟨j, hj, hb⟩ := h
  by_cases hok : B.Ok
  · rw [B.insert_block i a hok] at hj
    split at hj
    · rcases List.mem_append.mp hj with hj | hj
      · exact .inl ⟨j, hj, hb⟩
      · cases List.mem_singleton.mp hj
        exact .inr ⟨‹_›, hb⟩
    · exact .inl ⟨j, hj, hb⟩
  · have hlen : B.func.blocks.length ≤ B.cur := Nat.le_of_not_lt hok
    rw [Builder.insert, Func.append, List.modify_eq_self hlen] at hj
    exact .inl ⟨j, hj, hb⟩

theorem Builder.insert_edge_self {B : Builder} (hok : B.Ok) {i : Instr} {b : Nat}
    (hb : b ∈ i.targets) : (B.insert i).2.func.Edge B.cur b := by
  refine ⟨⟨B.nextId, i⟩, ?_, hb⟩
  rw [B.insert_block i B.cur hok, if_pos rfl]
  simp

theorem Builder.appendBlock_edge {B : Builder} {a b : Nat}
    (h : B.appendBlock.2.func.Edge a b) : B.func.Edge a b := by
  obtain ⟨j, hj, hb⟩ := h
  rw [Builder.appendBlock_block] at hj
  exact ⟨j, hj, hb⟩

/-- `B'` is `B` after emission that started in the current block: where the code
and the branches went. -/
structure Builder.Grows (B B' : Builder) : Prop where
  grows : B.func.Extends B'.func
  nextId_le : B.nextId ≤ B'.nextId
  length_le : B.func.blocks.length ≤ B'.func.blocks.length
  ok : B'.Ok
  cur : B'.cur = B.cur ∨ B.func.blocks.length ≤ B'.cur
  frame : ∀ b < B.func.blocks.length, b ≠ B.cur → B'.func.block b = B.func.block b
  edges : ∀ a b, B'.func.Edge a b → B.func.Edge a b ∨
    (a = B.cur ∨ B.func.blocks.length ≤ a) ∧
      B.func.blocks.length ≤ b ∧ b < B'.func.blocks.length

namespace Builder.Grows

theorem refl {B : Builder} (h : B.Ok) : B.Grows B :=
  ⟨.refl _, Nat.le_refl _, Nat.le_refl _, h, .inl rfl, fun _ _ _ => rfl, fun _ _ => .inl⟩

theorem trans {B B' B'' : Builder} (h : B.Grows B') (h' : B'.Grows B'') : B.Grows B'' where
  grows := h.grows.trans h'.grows
  nextId_le := Nat.le_trans h.nextId_le h'.nextId_le
  length_le := Nat.le_trans h.length_le h'.length_le
  ok := h'.ok
  cur := by
    have := h.cur
    have := h'.cur
    have := h.length_le
    omega
  frame b hb hne := by
    have := h.cur
    have := h.length_le
    exact (h'.frame b (by omega) (by omega)).trans (h.frame b hb hne)
  edges a b he := by
    have := h.cur
    have := h.length_le
    have := h'.length_le
    rcases h'.edges a b he with he | hnew
    · rcases h.edges a b he with he | hnew
      · exact .inl he
      · exact .inr (by omega)
    · exact .inr (by omega)

/-- Moving on to the end of a block appended meanwhile. -/
theorem positionAtEnd {B B' : Builder} (h : B.Grows B') {b : Nat}
    (hb : b < B'.func.blocks.length) (hnew : B.func.blocks.length ≤ b) :
    B.Grows (B'.positionAtEnd b) :=
  ⟨h.grows, h.nextId_le, h.length_le, hb, .inr hnew, h.frame, h.edges⟩

theorem appendBlock {B B' : Builder} (h : B.Grows B') : B.Grows B'.appendBlock.2 where
  grows := h.grows.trans B'.appendBlock_extends
  nextId_le := h.nextId_le
  length_le := by
    have := h.length_le
    rw [appendBlock_length]
    omega
  ok := by
    have hok : B'.cur < B'.func.blocks.length := h.ok
    show B'.appendBlock.2.cur < _
    rw [appendBlock_length, appendBlock_cur]
    omega
  cur := h.cur
  frame b hb hne := by rw [appendBlock_block, h.frame b hb hne]
  edges a b he := by
    rcases h.edges a b (appendBlock_edge he) with he | hnew
    · exact .inl he
    · rw [appendBlock_length]
      exact .inr (by omega)

/-- Appending an instruction whose branches stay within the new blocks. -/
theorem insert {B B' : Builder} (h : B.Grows B') {i : Instr}
    (hi : ∀ b ∈ i.targets, B.func.blocks.length ≤ b ∧ b < B'.func.blocks.length) :
    B.Grows (B'.insert i).2 where
  grows := h.grows.trans (B'.insert_extends i)
  nextId_le := Nat.le_succ_of_le h.nextId_le
  length_le := by
    rw [insert_length]
    exact h.length_le
  ok := (B'.straight_insert i).ok h.ok
  cur := h.cur
  frame b hb hne := by
    have := h.cur
    rw [(B'.straight_insert i).frame b (by omega), h.frame b hb hne]
  edges a b he := by
    rw [insert_length]
    rcases insert_edge he with he | ⟨rfl, hb⟩
    · exact h.edges a b he
    · exact .inr ⟨h.cur, hi b hb⟩

theorem straightLine {B B' : Builder} (h : B.Grows B') {i : Instr}
    (hi : i.isTerminator = false) : B.Grows (B'.insert i).2 :=
  h.insert (by simp [Instr.targets_eq_nil hi])

theorem buildOp {B B' : Builder} (F : Folder) (h : B.Grows B') (o : Op) :
    B.Grows (B'.buildOp F o).2 := by
  rcases B'.buildOp_cases F o with ⟨c, _, he⟩ | he
  · rw [he]
    exact h
  · rw [he]
    exact h.straightLine rfl

end Builder.Grows

/-! ## Straight-line code -/

/-- Constants and results of instructions built from `n` on and before `m`. -/
def Operand.Between (n m : Nat) : Operand → Prop
  | .const _ => True
  | .inst id => n ≤ id ∧ id < m

theorem Operand.Between.mono {o : Operand} {n m n' m' : Nat} (h : o.Between n m) (hn : n' ≤ n)
    (hm : m ≤ m') : o.Between n' m' := by
  cases o with
  | const c => trivial
  | inst id => exact ⟨Nat.le_trans hn h.1, Nat.lt_of_lt_of_le h.2 hm⟩

theorem Builder.buildOp_between (F : Folder) (B : Builder) (o : Op) :
    (B.buildOp F o).1.Between B.nextId (B.buildOp F o).2.nextId := by
  rcases B.buildOp_cases F o with ⟨c, _, he⟩ | he
  · rw [he]
    trivial
  · rw [he]
    exact ⟨Nat.le_refl _, Nat.lt_succ_self _⟩

/-- `B'` is `B` with instructions appended that have results; an operand that was
not built along the way is among the `known` ones. -/
inductive Builder.Line (known : Operand → Prop) (B : Builder) : Builder → Prop
  | refl : B.Line known B
  | insert {B' : Builder} {i : Instr} : B.Line known B' → i.hasResult = true →
      (∀ o ∈ i.operands, known o ∨ o.Between B.nextId B'.nextId) → B.Line known (B'.insert i).2

namespace Builder.Line

variable {known known' : Operand → Prop} {B B' B'' : Builder}

theorem straight (h : B.Line known B') : B.Straight B' := by
  induction h with
  | refl => exact .refl B
  | insert _ _ _ ih => exact ih.trans (straight_insert _ _)

theorem grows (h : B.Line known B') (hok : B.Ok) : B.Grows B' := by
  induction h with
  | refl => exact .refl hok
  | insert _ hi _ ih => exact ih.straightLine (Instr.not_terminator_of_hasResult hi)

theorem mono (h : B.Line known B') (hsub : ∀ o, known o → known' o) : B.Line known' B' := by
  induction h with
  | refl => exact .refl
  | insert _ hi ho ih => exact .insert ih hi fun o hmem => (ho o hmem).imp_left (hsub o)

theorem trans (h : B.Line known B') (h' : B'.Line known B'') : B.Line known B'' := by
  induction h' with
  | refl => exact h
  | insert _ hi ho ih =>
    refine .insert ih hi fun o hmem => ?_
    exact (ho o hmem).imp_right fun hb => hb.mono h.straight.nextId_le (Nat.le_refl _)

theorem buildOp (F : Folder) {o : Op} (h : B.Line known B')
    (ho : ∀ a ∈ o.operands, known a ∨ a.Between B.nextId B'.nextId) :
    B.Line known (B'.buildOp F o).2 := by
  rcases B'.buildOp_cases F o with ⟨c, _, he⟩ | he
  · rw [he]
    exact h
  · rw [he]
    exact .insert h rfl ho

end Builder.Line

/-! ## Names are given once -/

/-- Instruction `i` stands at place `k` of block `b`. -/
def Func.InstAt (f : Func) (b k : Nat) (i : Inst) : Prop := (f.block b)[k]? = some i

theorem Func.InstAt.mono {f g : Func} (h : f.Extends g) {b k : Nat} {i : Inst}
    (hi : f.InstAt b k i) : g.InstAt b k i := by
  obtain ⟨l, hl⟩ := h b
  unfold Func.InstAt at hi ⊢
  rw [← hl, List.getElem?_append_left (List.getElem?_eq_some_iff.mp hi).1, hi]

/-- Builder calls, whatever they append and wherever they move. -/
inductive Builder.Emits (B : Builder) : Builder → Prop
  | refl : B.Emits B
  | insert {B' : Builder} (i : Instr) : B.Emits B' → B.Emits (B'.insert i).2
  | appendBlock {B' : Builder} : B.Emits B' → B.Emits B'.appendBlock.2
  | positionAtEnd {B' : Builder} (b : Nat) : B.Emits B' → B.Emits (B'.positionAtEnd b)

theorem Builder.Emits.trans {B B' B'' : Builder} (h : B.Emits B') (h' : B'.Emits B'') :
    B.Emits B'' := by
  induction h' with
  | refl => exact h
  | insert i _ ih => exact ih.insert i
  | appendBlock _ ih => exact ih.appendBlock
  | positionAtEnd b _ ih => exact ih.positionAtEnd b

theorem Builder.Line.emits {known : Operand → Prop} {B B' : Builder} (h : B.Line known B') :
    B.Emits B' := by
  induction h with
  | refl => exact .refl
  | insert _ _ _ ih => exact ih.insert _

theorem Builder.Emits.buildOp {B B' : Builder} (F : Folder) (o : Op) (h : B.Emits B') :
    B.Emits (B'.buildOp F o).2 := by
  rcases B'.buildOp_cases F o with ⟨c, _, he⟩ | he
  · rw [he]
    exact h
  · rw [he]
    exact h.insert _

/-- Every instruction of the function has a name of its own, given by the builder. -/
structure Builder.Named (B : Builder) : Prop where
  lt : ∀ {b k i}, B.func.InstAt b k i → i.id < B.nextId
  unique : ∀ {b k b' k' i i'}, B.func.InstAt b k i → B.func.InstAt b' k' i' → i.id = i'.id →
    b = b' ∧ k = k'

theorem Builder.entry_block (b : Nat) : Builder.entry.func.block b = [] := by
  cases b <;> rfl

theorem Builder.entry_instAt {b k : Nat} {i : Inst} : ¬ Builder.entry.func.InstAt b k i := by
  simp [Func.InstAt, Builder.entry_block]

theorem Builder.Named.entry : Builder.entry.Named :=
  ⟨fun h => absurd h Builder.entry_instAt, fun h => absurd h Builder.entry_instAt⟩

theorem Builder.insert_instAt {B : Builder} {i : Instr} {b k : Nat} {j : Inst}
    (h : (B.insert i).2.func.InstAt b k j) :
    B.func.InstAt b k j ∨ (b = B.cur ∧ k = (B.func.block B.cur).length ∧ j = ⟨B.nextId, i⟩) := by
  unfold Func.InstAt at *
  by_cases hok : B.Ok
  · rw [B.insert_block i b hok] at h
    split at h
    · subst b
      rcases Nat.lt_trichotomy k (B.func.block B.cur).length with hk | hk | hk
      · rw [List.getElem?_append_left hk] at h
        exact .inl h
      · subst hk
        rw [List.getElem?_concat_length, Option.some.injEq] at h
        exact .inr ⟨rfl, rfl, h.symm⟩
      · rw [List.getElem?_eq_none (by simp; omega)] at h
        cases h
    · exact .inl h
  · have hlen : B.func.blocks.length ≤ B.cur := Nat.le_of_not_lt hok
    rw [Builder.insert, Func.append, List.modify_eq_self hlen] at h
    exact .inl h

theorem Builder.Named.insert {B : Builder} (h : B.Named) (i : Instr) : (B.insert i).2.Named where
  lt := by
    intro b k j hj
    rcases insert_instAt hj with hj | ⟨_, _, rfl⟩
    · exact Nat.lt_succ_of_lt (h.lt hj)
    · exact Nat.lt_succ_self _
  unique := by
    intro b k b' k' j j' hj hj' hid
    rcases insert_instAt hj with hj | ⟨rfl, rfl, rfl⟩ <;>
      rcases insert_instAt hj' with hj' | ⟨rfl, rfl, rfl⟩
    · exact h.unique hj hj' hid
    · exact absurd (h.lt hj) (by rw [hid]; exact Nat.lt_irrefl _)
    · exact absurd (h.lt hj') (by rw [← hid]; exact Nat.lt_irrefl _)
    · exact ⟨rfl, rfl⟩

theorem Builder.Emits.named {B B' : Builder} (h : B.Emits B') (hB : B.Named) : B'.Named := by
  induction h with
  | refl => exact hB
  | insert i _ ih => exact ih.insert i
  | @appendBlock B' _ ih =>
    have hsame : ∀ {b k i}, B'.appendBlock.2.func.InstAt b k i ↔ B'.func.InstAt b k i := by
      intro b k i
      rw [Func.InstAt, Builder.appendBlock_block]
      rfl
    exact ⟨fun hi => ih.lt (hsame.mp hi),
      fun hi hi' hid => ih.unique (hsame.mp hi) (hsame.mp hi') hid⟩
  | positionAtEnd b _ ih => exact ⟨ih.lt, ih.unique⟩

end CourseCompilers.Ir
