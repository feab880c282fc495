import CourseCompilers.Ir.Growth
import CourseCompilers.Structured.Translate

/-! What the actions build, before anything is run: on a program whose reads all
follow an assignment no null pointer reaches LLVM, the map covers exactly the
variables assigned so far, and the code of a statement grows out of the current
block. -/

namespace CourseCompilers.Structured
open Lib Ir

variable {F : Folder} {V : Version}

/-- The address of `x` in the map, an instruction built before `n`. -/
def NameMap.Has (N : NameMap) (m : N.Map) (n : Nat) (x : String) : Prop :=
  ∃ id < n, N.find m x = some (.inst id)

/-- The map holds an alloca for each variable of `A` and nothing else. -/
structure Parse.Knows (P : Parse V) (A : List String) : Prop where
  ok : P.builder.Ok
  valid : V.names.Valid P.map
  has : ∀ x ∈ A, V.names.Has P.map P.builder.nextId x
  fresh : ∀ x, x ∉ A → V.names.find P.map x = none

/-- An operand that is the address of a variable in `xs`. -/
def AddressIn (V : Version) (m : V.names.Map) (xs : List String) (o : Operand) : Prop :=
  ∃ x ∈ xs, V.names.find m x = some o

theorem AddressIn.mono {m : V.names.Map} {xs ys : List String} {o : Operand}
    (h : AddressIn V m xs o) (hsub : ∀ x ∈ xs, x ∈ ys) : AddressIn V m ys o := by
  obtain ⟨x, hx, ho⟩ := h
  exact ⟨x, hsub x hx, ho⟩

@[simp] theorem zero_between (n m : Nat) : zero.Between n m := trivial

/-- The actions of an expression leave straight-line code and its value. -/
def Expr.Built (F : Folder) (V : Version) (m : V.names.Map) (e : Expr) (B : Builder) : Prop :=
  ∃ o B', e.build F V m B = some (o, B') ∧ B.Line (AddressIn V m e.reads) B' ∧
    o.Between B.nextId B'.nextId

theorem NameMap.Has.mono {N : NameMap} {m : N.Map} {n k : Nat} {x : String} (h : N.Has m n x)
    (hn : n ≤ k) : N.Has m k x := by
  obtain ⟨id, hid, hf⟩ := h
  exact ⟨id, Nat.lt_of_lt_of_le hid hn, hf⟩

/-- Two operands built in turn, seen from the start. -/
private theorem Expr.Built.pair {m : V.names.Map} {a b : Expr} {B : Builder}
    (ha : a.Built F V m B) (hb : ∀ {B'}, B.nextId ≤ B'.nextId → b.Built F V m B') :
    ∃ x Ba y Bb, a.build F V m B = some (x, Ba) ∧ b.build F V m Ba = some (y, Bb) ∧
      B.Line (AddressIn V m (a.reads ++ b.reads)) Bb ∧ x.Between B.nextId Bb.nextId ∧
      y.Between B.nextId Bb.nextId := by
  obtain ⟨x, Ba, hea, hla, hx⟩ := ha
  have hle := hla.straight.nextId_le
  obtain ⟨y, Bb, heb, hlb, hy⟩ := hb hle
  have hl : ∀ o, AddressIn V m a.reads o → AddressIn V m (a.reads ++ b.reads) o :=
    fun _ h => h.mono (by simp +contextual)
  have hr : ∀ o, AddressIn V m b.reads o → AddressIn V m (a.reads ++ b.reads) o :=
    fun _ h => h.mono (by simp +contextual)
  exact ⟨x, Ba, y, Bb, hea, heb, (hla.mono hl).trans (hlb.mono hr),
    hx.mono (Nat.le_refl _) hlb.straight.nextId_le, hy.mono hle (Nat.le_refl _)⟩

/-- One more operation on operands built along the way. -/
private theorem line_op {m : V.names.Map} {xs : List String} {B B' : Builder} {o : Op}
    (h : B.Line (AddressIn V m xs) B') (ho : ∀ a ∈ o.operands, a.Between B.nextId B'.nextId) :
    B.Line (AddressIn V m xs) (B'.buildOp F o).2 ∧
      (B'.buildOp F o).1.Between B.nextId (B'.buildOp F o).2.nextId :=
  ⟨h.buildOp F fun a ha => .inr (ho a ha),
    (B'.buildOp_between F o).mono h.straight.nextId_le (Nat.le_refl _)⟩

/-- An operation on the values of two operands. -/
private theorem Expr.Built.binary {m : V.names.Map} {a b e : Expr} {B : Builder}
    (mk : Operand → Operand → Op) (hmk : ∀ x y, (mk x y).operands = [x, y])
    (hreads : e.reads = a.reads ++ b.reads) (ha : a.Built F V m B)
    (hb : ∀ {B'}, B.nextId ≤ B'.nextId → b.Built F V m B')
    (he : ∀ {x Ba y Bb}, a.build F V m B = some (x, Ba) → b.build F V m Ba = some (y, Bb) →
      e.build F V m B = some (Bb.buildOp F (mk x y))) : e.Built F V m B := by
  obtain ⟨x, Ba, y, Bb, hea, heb, hl, hx, hy⟩ := ha.pair hb
  rw [← hreads] at hl
  exact ⟨_, _, he hea heb, line_op hl (by simp [hmk, hx, hy])⟩

/-- `*` and `/`: the operation, or the left operand where the action is empty. -/
private theorem Expr.Built.mulDiv {m : V.names.Map} {a b e : Expr} {B : Builder}
    (mk : Operand → Operand → Op) (hmk : ∀ x y, (mk x y).operands = [x, y])
    (hreads : e.reads = a.reads ++ b.reads) (ha : a.Built F V m B)
    (hb : ∀ {B'}, B.nextId ≤ B'.nextId → b.Built F V m B')
    (he : ∀ {x Ba y Bb}, a.build F V m B = some (x, Ba) → b.build F V m Ba = some (y, Bb) →
      e.build F V m B = some (if V.mulDiv then Bb.buildOp F (mk x y) else (x, Bb))) :
    e.Built F V m B := by
  cases hm : V.mulDiv with
  | false =>
    obtain ⟨x, Ba, y, Bb, hea, heb, hl, hx, _⟩ := ha.pair hb
    rw [← hreads] at hl
    exact ⟨x, Bb, by simp [he hea heb, hm], hl, hx⟩
  | true => exact ha.binary mk hmk hreads hb fun hea heb => by simp [he hea heb, hm]

theorem Expr.built (m : V.names.Map) (e : Expr) (B : Builder)
    (h : ∀ x ∈ e.reads, V.names.Has m B.nextId x) : e.Built F V m B := by
  induction e generalizing B with
  | immediate n => exact ⟨_, B, rfl, .refl, trivial⟩
  | id x =>
    obtain ⟨id, hid, hf⟩ := h x (by simp [reads])
    refine ⟨.inst B.nextId, (B.insert (.load (.inst id))).2, by simp [build, hf, Builder.insert],
      ?_, Nat.le_refl _, Nat.lt_succ_self _⟩
    refine .insert .refl rfl fun o ho => ?_
    cases List.mem_singleton.mp ho
    exact .inl ⟨x, by simp [reads], hf⟩
  | plus a b iha ihb =>
    obtain ⟨ha, hb⟩ := List.forall_mem_append.mp h
    exact (iha B ha).binary .add (fun _ _ => rfl) rfl
      (fun hle => ihb _ fun x hx => (hb x hx).mono hle)
      fun hea heb => by simp [build, hea, heb]
  | minus a b iha ihb =>
    obtain ⟨ha, hb⟩ := List.forall_mem_append.mp h
    exact (iha B ha).binary .sub (fun _ _ => rfl) rfl
      (fun hle => ihb _ fun x hx => (hb x hx).mono hle)
      fun hea heb => by simp [build, hea, heb]
  | multiply a b iha ihb =>
    obtain ⟨ha, hb⟩ := List.forall_mem_append.mp h
    exact (iha B ha).mulDiv .mul (fun _ _ => rfl) rfl
      (fun hle => ihb _ fun x hx => (hb x hx).mono hle)
      fun hea heb => by simp [build, hea, heb]
  | divide a b iha ihb =>
    obtain ⟨ha, hb⟩ := List.forall_mem_append.mp h
    exact (iha B ha).mulDiv .sdiv (fun _ _ => rfl) rfl
      (fun hle => ihb _ fun x hx => (hb x hx).mono hle)
      fun hea heb => by simp [build, hea, heb]
  | paren a iha => exact iha B h
  | neg a iha =>
    obtain ⟨x, Ba, hea, hl, hx⟩ := iha B h
    have he : (Expr.neg a).build F V m B = some (Ba.buildOp F (.sub zero x)) := by
      simp [build, hea]
    exact ⟨_, _, he, line_op hl (by simp [Op.operands, hx])⟩
  | not a iha =>
    obtain ⟨x, Ba, hea, hl, hx⟩ := iha B h
    obtain ⟨hl', hc⟩ := line_op (F := F) (o := .icmpEq x zero) hl
      (by simp [Op.operands, hx])
    have he : (Expr.not a).build F V m B =
        some ((Ba.buildOp F (.icmpEq x zero)).2.buildOp F
          (.zext (Ba.buildOp F (.icmpEq x zero)).1 .i64)) := by
      simp [build, hea]
    refine ⟨_, _, he, line_op hl' fun o ho => ?_⟩
    cases List.mem_singleton.mp ho
    exact hc

/-! ## Branching -/

/-- What `branchOnNonzero` leaves: two new empty blocks, the builder in the first. -/
structure Branched (F : Folder) (v : Operand) (B : Builder) : Prop where
  join : (branchOnNonzero F v B).1 = B.func.blocks.length + 1
  cur : (branchOnNonzero F v B).2.cur = B.func.blocks.length
  length : (branchOnNonzero F v B).2.func.blocks.length = B.func.blocks.length + 2
  grows : B.Grows (branchOnNonzero F v B).2
  emits : B.Emits (branchOnNonzero F v B).2
  empty : ∀ b, B.func.blocks.length ≤ b → (branchOnNonzero F v B).2.func.block b = []

/-- The builder before the two instructions of `branchOnNonzero`. -/
abbrev twoBlocks (B : Builder) : Builder := B.appendBlock.2.appendBlock.2

theorem branchOnNonzero_eq (F : Folder) (v : Operand) (B : Builder) :
    branchOnNonzero F v B =
      (B.func.blocks.length + 1,
        (((twoBlocks B).buildOp F (.icmpNe v zero)).2.insert
          (.condBr ((twoBlocks B).buildOp F (.icmpNe v zero)).1 B.func.blocks.length
            (B.func.blocks.length + 1))).2.positionAtEnd B.func.blocks.length) := by
  simp only [branchOnNonzero, twoBlocks, Builder.appendBlock_fst, Builder.appendBlock_length]

theorem branched (F : Folder) (v : Operand) (B : Builder) (hok : B.Ok) : Branched F v B := by
  have hline := (twoBlocks B).straight_buildOp F (.icmpNe v zero)
  have hgrow : B.Grows ((twoBlocks B).buildOp F (.icmpNe v zero)).2 :=
    (Builder.Grows.refl hok).appendBlock.appendBlock.buildOp F _
  have hlen : ((twoBlocks B).buildOp F (.icmpNe v zero)).2.func.blocks.length =
      B.func.blocks.length + 2 := by
    rw [hline.length, Builder.appendBlock_length, Builder.appendBlock_length]
  have hcur : ((twoBlocks B).buildOp F (.icmpNe v zero)).2.cur = B.cur := hline.cur
  rw [Builder.Ok] at hok
  constructor
  · rw [branchOnNonzero_eq]
  · rw [branchOnNonzero_eq]
    rfl
  · rw [branchOnNonzero_eq]
    simp [hlen]
  · rw [branchOnNonzero_eq]
    refine (hgrow.insert ?_).positionAtEnd (by simp [hlen]) (Nat.le_refl _)
    intro b hb
    simp [Instr.targets] at hb
    omega
  · rw [branchOnNonzero_eq]
    exact ((Builder.Emits.refl.appendBlock.appendBlock.buildOp F _).insert _).positionAtEnd _
  · intro b hb
    rw [branchOnNonzero_eq]
    simp only [Builder.positionAtEnd_func]
    rw [(Builder.straight_insert _ _).frame b (by omega),
      hline.frame b (by simp; omega), Builder.appendBlock_block, Builder.appendBlock_block,
      Func.block_eq_nil hb]

/-! ## Statements -/

/-- What the actions of a statement leave behind. -/
structure Parse.Grown (P P' : Parse V) (A B : List String) : Prop where
  grows : P.builder.Grows P'.builder
  emits : P.builder.Emits P'.builder
  knows : P'.Knows (A ++ B)
  old : ∀ x ∈ A, V.names.find P'.map x = V.names.find P.map x

theorem Parse.Knows.grow {P : Parse V} {A : List String} (h : P.Knows A) {B : Builder}
    (hg : P.builder.Grows B) : Parse.Knows (V := V) ⟨B, P.map⟩ A :=
  ⟨hg.ok, h.valid, fun x hx => (h.has x hx).mono hg.nextId_le, h.fresh⟩

/-- Remembering a new alloca. -/
theorem Parse.Knows.declare {P : Parse V} {A : List String} (h : P.Knows A) {x : String}
    (hx : x ∉ A) {B : Builder} (hg : P.builder.Grows B) {id : Nat} (hid : id < B.nextId) :
    Parse.Knows (V := V) ⟨B, V.names.insert x (.inst id) P.map⟩ (A ++ [x]) := by
  have hfind := V.names.find_insert (a := .inst id) h.valid (h.fresh x hx)
  refine ⟨hg.ok, V.names.insert_valid h.valid (h.fresh x hx), ?_, ?_⟩
  · intro y hy
    by_cases hyx : y = x
    · exact ⟨id, hid, by rw [hfind, if_pos hyx]⟩
    · obtain ⟨k, hk, hf⟩ := h.has y (by simpa [hyx] using hy)
      exact ⟨k, Nat.lt_of_lt_of_le hk hg.nextId_le, by rw [hfind, if_neg hyx, hf]⟩
  · intro y hy
    rw [List.mem_append, List.mem_singleton, not_or] at hy
    rw [hfind, if_neg hy.2, h.fresh y hy.1]

theorem Parse.Knows.congr {P : Parse V} {A B : List String} (h : P.Knows A)
    (hAB : ∀ x, x ∈ A ↔ x ∈ B) : P.Knows B :=
  ⟨h.ok, h.valid, fun x hx => h.has x ((hAB x).mpr hx), fun x hx => h.fresh x (by rwa [hAB])⟩

theorem Parse.Grown.trans {P P' P'' : Parse V} {A B C : List String} (h : P.Grown P' A B)
    (h' : P'.Grown P'' (A ++ B) C) : P.Grown P'' A (B ++ C) where
  grows := h.grows.trans h'.grows
  emits := h.emits.trans h'.emits
  knows := by simpa using h'.knows
  old x hx := (h'.old x (List.mem_append_left _ hx)).trans (h.old x hx)

/-- The end of a body: branch to `dest` and go on in `join`. -/
def Parse.close (P : Parse V) (dest join : Nat) : Parse V :=
  ⟨(P.builder.insert (.br dest)).2.positionAtEnd join, P.map⟩

@[simp] theorem Parse.close_length (P : Parse V) (dest join : Nat) :
    (P.close dest join).builder.func.blocks.length = P.builder.func.blocks.length :=
  Builder.insert_length _ _

/-- The start of a loop: a new block for the condition, entered from here. -/
def loopHead (B : Builder) : Builder :=
  (B.appendBlock.2.insert (.br B.func.blocks.length)).2.positionAtEnd B.func.blocks.length

section
variable {P : Parse V} {e c : Expr} {x : String} {v : Operand} {B : Builder} {s : Stmt}

theorem Stmt.build_assign_old {a : Operand} (he : e.build F V P.map P.builder = some (v, B))
    (hx : V.names.find P.map x = some a) :
    (Stmt.assign x e).build F P = some ⟨(B.insert (.store v a)).2, P.map⟩ := by
  simp [build, he, hx]

theorem Stmt.build_assign_new (he : e.build F V P.map P.builder = some (v, B))
    (hx : V.names.find P.map x = none) :
    (Stmt.assign x e).build F P =
      some ⟨((B.insert (.alloca .i64)).2.insert (.store v (.inst B.nextId))).2,
        V.names.insert x (.inst B.nextId) P.map⟩ := by
  simp [build, he, hx, Builder.insert]

theorem Stmt.build_ifThen {P' : Parse V} (hc : c.build F V P.map P.builder = some (v, B))
    (hs : s.build F ⟨(branchOnNonzero F v B).2, P.map⟩ = some P') :
    (Stmt.ifThen c s).build F P =
      some (P'.close (branchOnNonzero F v B).1 (branchOnNonzero F v B).1) := by
  simp [build, hc, hs, Parse.close]

theorem Stmt.build_whileDo {P' : Parse V}
    (hc : c.build F V P.map (loopHead P.builder) = some (v, B))
    (hs : s.build F ⟨(branchOnNonzero F v B).2, P.map⟩ = some P') :
    (Stmt.whileDo c s).build F P =
      some (P'.close
        (if V.backEdge then P.builder.func.blocks.length else (branchOnNonzero F v B).1)
        (branchOnNonzero F v B).1) := by
  unfold loopHead at hc
  simp [build, hc, hs, Parse.close]

end

/-- `loopHead` leaves one new empty block, with the builder in it. -/
structure Headed (B : Builder) : Prop where
  length : (loopHead B).func.blocks.length = B.func.blocks.length + 1
  grows : B.Grows (loopHead B)
  emits : B.Emits (loopHead B)
  empty : (loopHead B).func.block B.func.blocks.length = []

theorem headed {B : Builder} (hok : B.Ok) : Headed B := by
  constructor
  · simp [loopHead]
  · refine (((Builder.Grows.refl hok).appendBlock).insert ?_).positionAtEnd (by simp)
      (Nat.le_refl _)
    simp [Instr.targets]
  · exact (Builder.Emits.refl.appendBlock.insert _).positionAtEnd _
  · rw [Builder.Ok] at hok
    rw [loopHead, Builder.positionAtEnd_func,
      (Builder.straight_insert _ _).frame _ (by rw [Builder.appendBlock_cur]; omega),
      Builder.appendBlock_block, Func.block_eq_nil (Nat.le_refl _)]

/-- A body built after a branch and closed again, seen from before the branch.
The block the closing branch names and the join block are new. -/
theorem Parse.Grown.body {P P' : Parse V} {A C : List String} {B : Builder} {v : Operand}
    {dest : Nat} (hg : P.builder.Grows B) (he : P.builder.Emits B)
    (h : Parse.Grown (V := V) ⟨(branchOnNonzero F v B).2, P.map⟩ P' A C)
    (hdest : P.builder.func.blocks.length ≤ dest) (hlt : dest < B.func.blocks.length + 2) :
    P.Grown (P'.close dest (branchOnNonzero F v B).1) A C := by
  have hbr := branched F v B hg.ok
  have hle := h.grows.length_le
  have hle' := hg.length_le
  simp only [hbr.length] at hle
  have hgrows : P.builder.Grows (P'.close dest (branchOnNonzero F v B).1).builder := by
    refine (((hg.trans hbr.grows).trans h.grows).insert ?_).positionAtEnd ?_ ?_
    · intro b hb
      simp only [Instr.targets, List.mem_singleton] at hb
      omega
    · simp only [hbr.join, Builder.insert_length]
      omega
    · simp only [hbr.join]
      omega
  exact ⟨hgrows, (((he.trans hbr.emits).trans h.emits).insert _).positionAtEnd _,
    ⟨hgrows.ok, h.knows.valid, fun x hx => h.knows.has x hx |>.mono (Nat.le_succ _),
      h.knows.fresh⟩, h.old⟩

/-- The pieces an `if` or `while` statement is built from: the condition at `H`,
up to `B`, and the body, up to `P₁`. -/
structure Body (F : Folder) (c : Expr) (s : Stmt) (P : Parse V) (A : List String) (H : Builder)
    (v : Operand) (B : Builder) (P₁ : Parse V) : Prop where
  cond : c.build F V P.map H = some (v, B)
  line : H.Line (AddressIn V P.map c.reads) B
  value : v.Between H.nextId B.nextId
  knows : Parse.Knows (V := V) ⟨(branchOnNonzero F v B).2, P.map⟩ A
  body : s.build F ⟨(branchOnNonzero F v B).2, P.map⟩ = some P₁
  grown : Parse.Grown (V := V) ⟨(branchOnNonzero F v B).2, P.map⟩ P₁ A s.assigned

theorem Body.grows {c : Expr} {s : Stmt} {P P₁ : Parse V} {A : List String} {H B : Builder}
    {v : Operand} (h : Body F c s P A H v B P₁) (hok : H.Ok) : H.Grows P₁.builder := by
  have hg := h.line.grows hok
  exact (hg.trans (branched F v B hg.ok).grows).trans h.grown.grows

/-- A statement is built whenever its reads follow assignments. -/
def Stmt.Built (F : Folder) (V : Version) (s : Stmt) : Prop :=
  ∀ {P : Parse V} {A : List String}, P.Knows A → s.ReadsAssigned A →
    ∃ P', s.build F P = some P' ∧ P.Grown P' A s.assigned

theorem Stmt.Built.body {c : Expr} {s : Stmt} {P : Parse V} {A : List String} {H : Builder}
    (hs : s.Built F V) (hk : P.Knows A) (hrc : ∀ x ∈ c.reads, x ∈ A) (hrs : s.ReadsAssigned A)
    (hH : P.builder.Grows H) : ∃ v B P₁, Body F c s P A H v B P₁ := by
  obtain ⟨v, B, he, hl, hv⟩ := c.built (F := F) P.map H fun y hy =>
    (hk.has y (hrc y hy)).mono hH.nextId_le
  have hg := hl.grows hH.ok
  have hk' := hk.grow ((hH.trans hg).trans (branched F v B hg.ok).grows)
  obtain ⟨P₁, hb, hgrown⟩ := hs hk' hrs
  exact ⟨v, B, P₁, he, hl, hv, hk', hb, hgrown⟩

theorem Stmt.built (s : Stmt) : s.Built F V := by
  intro P A hk hr
  induction s generalizing P A with
  | assign x e =>
    obtain ⟨v, B, he, hl, _⟩ := e.built (F := F) P.map P.builder fun y hy => hk.has y (hr y hy)
    have hg := hl.grows hk.ok
    by_cases hx : x ∈ A
    · obtain ⟨id, hid, hf⟩ := hk.has x hx
      have hg' := hg.straightLine (i := .store v (.inst id)) rfl
      have hsame : ∀ y, y ∈ A ↔ y ∈ A ++ [x] := by
        intro y
        rw [List.mem_append, List.mem_singleton, or_iff_left_of_imp]
        rintro rfl
        exact hx
      exact ⟨_, build_assign_old he hf, hg', hl.emits.insert _, (hk.grow hg').congr hsame,
        fun _ _ => rfl⟩
    · have hf := hk.fresh x hx
      have hg' := (hg.straightLine (i := .alloca .i64) rfl).straightLine
        (i := .store v (.inst B.nextId)) rfl
      refine ⟨_, build_assign_new he hf, hg', (hl.emits.insert _).insert _,
        hk.declare hx hg' (Nat.lt_succ_of_lt (Nat.lt_succ_self _)), ?_⟩
      intro y hy
      rw [V.names.find_insert hk.valid hf, if_neg]
      rintro rfl
      exact hx hy
  | ifThen c s ih =>
    obtain ⟨v, B, P₁, hbody⟩ := Stmt.Built.body (F := F) ih hk hr.1 hr.2 (.refl hk.ok)
    have hg := hbody.line.grows hk.ok
    have hjoin := (branched F v B hg.ok).join
    have hle := hg.length_le
    exact ⟨_, build_ifThen hbody.cond hbody.body,
      hbody.grown.body hg hbody.line.emits (by omega) (by omega)⟩
  | whileDo c s ih =>
    have hh := headed hk.ok
    obtain ⟨v, B, P₁, hbody⟩ := Stmt.Built.body (F := F) ih hk hr.1 hr.2 hh.grows
    have hg := hh.grows.trans (hbody.line.grows hh.grows.ok)
    have hjoin := (branched F v B hg.ok).join
    have hle := hg.length_le
    have hlen := hh.length
    have hlen' := hbody.line.straight.length
    refine ⟨_, build_whileDo hbody.cond hbody.body,
      hbody.grown.body hg (hh.emits.trans hbody.line.emits) ?_ ?_⟩ <;> split <;> omega
  | null => exact ⟨P, rfl, .refl hk.ok, .refl, by simpa [assigned] using hk, fun _ _ => rfl⟩
  | seq l s ihl ihs =>
    obtain ⟨P', hl, hgl⟩ := ihl hk hr.1
    obtain ⟨P'', hs, hgs⟩ := ihs hgl.knows hr.2
    exact ⟨P'', by simp [build, hl, hs], hgl.trans hgs⟩

/-! ## Taking a built statement apart -/

theorem Parse.Knows.start (V : Version) :
    Parse.Knows (V := V) ⟨Builder.entry, V.names.empty⟩ [] :=
  ⟨Nat.zero_lt_one, V.names.empty_valid, fun _ hx => absurd hx List.not_mem_nil,
    fun x _ => V.names.find_empty x⟩

section
variable {P P' : Parse V} {A : List String} (hk : P.Knows A)
include hk

theorem Expr.built_of_knows (F : Folder) {e : Expr} (hr : ∀ x ∈ e.reads, x ∈ A) {B : Builder}
    (hid : P.builder.nextId ≤ B.nextId) : e.Built F V P.map B :=
  e.built P.map B fun x hx => (hk.has x (hr x hx)).mono hid

theorem Stmt.grown {s : Stmt} (hr : s.ReadsAssigned A) (hb : s.build F P = some P') :
    P.Grown P' A s.assigned := by
  obtain ⟨P'', hb', hg⟩ := s.built (F := F) hk hr
  rw [hb, Option.some.injEq] at hb'
  exact hb' ▸ hg

theorem Stmt.ifThen_inv {c : Expr} {s : Stmt} (hr : (Stmt.ifThen c s).ReadsAssigned A)
    (hb : (Stmt.ifThen c s).build F P = some P') :
    ∃ v B P₁, Body F c s P A P.builder v B P₁ ∧
      P' = P₁.close (branchOnNonzero F v B).1 (branchOnNonzero F v B).1 := by
  obtain ⟨v, B, P₁, hbody⟩ := Stmt.Built.body (F := F) s.built hk hr.1 hr.2 (.refl hk.ok)
  rw [build_ifThen hbody.cond hbody.body, Option.some.injEq] at hb
  exact ⟨v, B, P₁, hbody, hb.symm⟩

theorem Stmt.whileDo_inv {c : Expr} {s : Stmt} (hr : (Stmt.whileDo c s).ReadsAssigned A)
    (hb : (Stmt.whileDo c s).build F P = some P') :
    ∃ v B P₁, Body F c s P A (loopHead P.builder) v B P₁ ∧
      P' = P₁.close (if V.backEdge then P.builder.func.blocks.length else (branchOnNonzero F v B).1)
        (branchOnNonzero F v B).1 := by
  obtain ⟨v, B, P₁, hbody⟩ := Stmt.Built.body (F := F) s.built hk hr.1 hr.2 (headed hk.ok).grows
  rw [build_whileDo hbody.cond hbody.body, Option.some.injEq] at hb
  exact ⟨v, B, P₁, hbody, hb.symm⟩

theorem Stmt.seq_inv {l s : Stmt} (hr : (Stmt.seq l s).ReadsAssigned A)
    (hb : (Stmt.seq l s).build F P = some P') :
    ∃ P₁, l.build F P = some P₁ ∧ P.Grown P₁ A l.assigned ∧ s.build F P₁ = some P' ∧
      P₁.Grown P' (A ++ l.assigned) s.assigned := by
  obtain ⟨P₁, hl, hgl⟩ := l.built (F := F) hk hr.1
  simp only [build, hl] at hb
  exact ⟨P₁, hl, hgl, hb, Stmt.grown hgl.knows hr.2 hb⟩

end

/-! ## Programs -/

/-- The pieces a program is built from. -/
structure Program.Pieces (F : Folder) (p : Program) (P : Parse V) (o : Operand) (B : Builder) :
    Prop where
  body : p.body.build F ⟨Builder.entry, V.names.empty⟩ = some P
  grown : Parse.Grown (V := V) ⟨Builder.entry, V.names.empty⟩ P [] p.body.assigned
  result : p.result.build F V P.map P.builder = some (o, B)
  line : P.builder.Line (AddressIn V P.map p.result.reads) B
  value : o.Between P.builder.nextId B.nextId
  compile : p.compile F V = some (B.insert (.ret (some o))).2.func

theorem Program.pieces (F : Folder) (V : Version) (p : Program) (hr : p.ReadsAssigned) :
    ∃ (P : Parse V) (o : Operand) (B : Builder), p.Pieces F P o B := by
  obtain ⟨P, hb, hgrown⟩ := p.body.built (F := F) (Parse.Knows.start V) hr.1
  obtain ⟨o, B, he, hline, hv⟩ := Expr.built_of_knows hgrown.knows F hr.2 (Nat.le_refl _)
  exact ⟨P, o, B, hb, hgrown, he, hline, hv, by simp [Program.compile, hb, he]⟩

end CourseCompilers.Structured
