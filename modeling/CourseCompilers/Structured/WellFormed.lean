import CourseCompilers.Ir.WellFormed
import CourseCompilers.Structured.Build

/-! When the emitted function is well formed. Terminators and branch targets are
always right. Dominance is a matter of scope: the alloca of a variable stands
where its textually first assignment stands, so it dominates what comes later in
the same statement list, and nothing after the body that list is. -/

namespace CourseCompilers.Structured
open Lib Ir

/-- The variables assigned in the statement list itself, outside its bodies. -/
def Stmt.atTop : Stmt → List String
  | .assign x _ => [x]
  | .ifThen _ _ | .whileDo _ _ | .null => []
  | .seq l s => l.atTop ++ s.atTop

theorem Stmt.assigned_of_atTop (s : Stmt) : ∀ x ∈ s.atTop, x ∈ s.assigned := by
  induction s with
  | assign x e => exact fun _ => id
  | ifThen | whileDo | null => exact fun _ hx => absurd hx List.not_mem_nil
  | seq l s ihl ihs =>
    intro x hx
    exact List.mem_append.mpr ((List.mem_append.mp hx).imp (ihl x) (ihs x))

/-- Every variable is used only inside the statement list that holds its textually
first assignment. The variables of `seen` were assigned before, those of `vis` in
this list or in one around it. -/
def Stmt.Scoped (vis seen : List String) : Stmt → Prop
  | .assign x e => (∀ y ∈ e.reads, y ∈ vis) ∧ (x ∈ seen → x ∈ vis)
  | .ifThen c s | .whileDo c s => (∀ y ∈ c.reads, y ∈ vis) ∧ s.Scoped vis seen
  | .null => True
  | .seq l s => l.Scoped vis seen ∧ s.Scoped (vis ++ l.atTop) (seen ++ l.assigned)

def Program.Scoped (p : Program) : Prop :=
  p.body.Scoped [] [] ∧ ∀ x ∈ p.result.reads, x ∈ p.body.atTop

instance Stmt.decScoped : (s : Stmt) → (vis seen : List String) → Decidable (s.Scoped vis seen)
  | .assign x e, vis, seen =>
      inferInstanceAs (Decidable ((∀ y ∈ e.reads, y ∈ vis) ∧ (x ∈ seen → x ∈ vis)))
  | .ifThen c s, vis, seen | .whileDo c s, vis, seen =>
      have := decScoped s vis seen
      inferInstanceAs (Decidable ((∀ y ∈ c.reads, y ∈ vis) ∧ s.Scoped vis seen))
  | .null, _, _ => inferInstanceAs (Decidable True)
  | .seq l s, vis, seen =>
      have := decScoped l vis seen
      have := decScoped s (vis ++ l.atTop) (seen ++ l.assigned)
      inferInstanceAs (Decidable (l.Scoped vis seen ∧ s.Scoped _ _))

instance (p : Program) : Decidable p.Scoped :=
  inferInstanceAs (Decidable (p.body.Scoped [] [] ∧ ∀ x ∈ p.result.reads, x ∈ p.body.atTop))

variable {F : Folder} {V : Version} {f : Func}

/-! ## Terminators -/

/-- The branch ends the block it is made in; the join block is left for later. -/
theorem branch_terminated {v : Operand} {B : Builder} (hok : B.Ok) (hopen : B.Open) :
    ((branchOnNonzero F v B).2.func.block B.cur).Terminated := by
  rw [branchOnNonzero_eq]
  have hok' := ((Builder.Grows.refl hok).appendBlock).appendBlock.ok
  have hs := (twoBlocks B).straight_buildOp F (.icmpNe v zero)
  have hopen' : ((twoBlocks B).buildOp F (.icmpNe v zero)).2.Open := by
    have hopen₂ : (twoBlocks B).Open := by
      intro i hi
      rw [Builder.appendBlock_block, Builder.appendBlock_block] at hi
      exact hopen i hi
    rcases (twoBlocks B).buildOp_cases F (.icmpNe v zero) with ⟨c, _, he⟩ | he
    · rw [he]
      exact hopen₂
    · rw [he]
      exact hopen₂.insert hok' rfl
  have hterm := hopen'.terminated (hs.ok hok')
    (i := .condBr ((twoBlocks B).buildOp F (.icmpNe v zero)).1 B.func.blocks.length
      (B.func.blocks.length + 1)) rfl
  rw [hs.cur] at hterm
  exact hterm

/-- A body between its branch and its closing branch. -/
theorem Parse.Grown.closes_body {P P' : Parse V} {A C : List String} {B : Builder} {v : Operand}
    (dest : Nat) (hok : B.Ok) (hopen : B.Open)
    (h : Parse.Grown (V := V) ⟨(branchOnNonzero F v B).2, P.map⟩ P' A C)
    (hc : (branchOnNonzero F v B).2.Closes P'.builder) :
    B.Closes (P'.close dest (branchOnNonzero F v B).1).builder := by
  have hbr := branched F v B hok
  have hcur := h.grows.cur
  have hle := h.grows.length_le
  simp only [hbr.cur, hbr.length] at hcur hle
  rw [Builder.Ok] at hok
  have hs := P'.builder.straight_insert (.br dest)
  -- the two old blocks the body leaves alone
  have hold : ∀ b < B.func.blocks.length + 2, b ≠ B.func.blocks.length →
      (P'.builder.insert (.br dest)).2.func.block b =
        (branchOnNonzero F v B).2.func.block b := by
    intro b hb hne
    rw [hs.frame b (by omega), h.grows.frame b (by simp only [hbr.length]; omega)
      (by simp only [hbr.cur]; omega)]
  constructor
  · show ((P'.builder.insert (.br dest)).2.func.block (branchOnNonzero F v B).1).Open
    rw [hbr.join, hold _ (by omega) (by omega), hbr.empty _ (by omega)]
    intro i hi
    cases hi
  · intro b hb hnew hne
    simp only [Parse.close, Builder.positionAtEnd_func, Builder.positionAtEnd_cur,
      Builder.insert_length, hbr.join] at hb hne ⊢
    by_cases hbP : b = P'.builder.cur
    · rw [hbP]
      exact hc.open'.terminated h.grows.ok rfl
    · rcases hnew with rfl | hnew
      · rw [hold _ (by omega) (by omega)]
        exact branch_terminated hok hopen
      · rw [hs.frame b hbP]
        refine hc.closed b hb ?_ hbP
        rw [hbr.cur, hbr.length]
        omega

/-- The branch into the condition block closes the block before it. -/
theorem headed_closes {B : Builder} (hok : B.Ok) (hopen : B.Open) : B.Closes (loopHead B) := by
  have hh := headed hok
  constructor
  · intro i hi
    rw [show (loopHead B).cur = B.func.blocks.length from rfl, hh.empty] at hi
    cases hi
  · intro b hb hnew hne
    rw [hh.length] at hb
    have hne' : b ≠ B.func.blocks.length := hne
    obtain rfl : b = B.cur := by omega
    have hopen' : B.appendBlock.2.Open := by
      intro i hi
      rw [Builder.appendBlock_block] at hi
      exact hopen i hi
    exact hopen'.terminated (Builder.Grows.refl hok).appendBlock.ok rfl

theorem Builder.Closes.of_line {known : Operand → Prop} {B B' B'' : Builder}
    (hl : B.Line known B') (h : B'.Closes B'') : B.Closes B'' := by
  have hs := hl.straight
  refine ⟨h.open', fun b hb hnew => h.closed b hb ?_⟩
  rw [hs.cur, hs.length]
  exact hnew

theorem Body.closes {c : Expr} {s : Stmt} {P P₁ : Parse V} {A : List String} {H B : Builder}
    {v : Operand} (h : Body F c s P A H v B P₁) (dest : Nat) (hok : H.Ok) (hopen : H.Open)
    (hs : (branchOnNonzero F v B).2.Open → (branchOnNonzero F v B).2.Closes P₁.builder) :
    H.Closes (P₁.close dest (branchOnNonzero F v B).1).builder := by
  have hokB := h.line.straight.ok hok
  have hbr := branched F v B hokB
  refine Builder.Closes.of_line h.line (h.grown.closes_body dest hokB (h.line.open hopen hok)
    (hs ?_))
  intro i hi
  rw [hbr.cur, hbr.empty _ (Nat.le_refl _)] at hi
  cases hi

/-- Every statement finishes the blocks it makes. -/
theorem Stmt.closes (s : Stmt) {P P' : Parse V} {A : List String} (hk : P.Knows A)
    (hr : s.ReadsAssigned A) (hb : s.build F P = some P') (hopen : P.builder.Open) :
    P.builder.Closes P'.builder := by
  induction s generalizing P P' A with
  | assign x e =>
    have hlast : ∀ {B : Builder}, P.builder.Straight B → B.Open → P.builder.Closes B := by
      intro B hs hB
      refine ⟨hB, fun b hb hnew hne => ?_⟩
      rw [hs.length] at hb
      rw [hs.cur] at hne
      omega
    obtain ⟨v, B, he, hl, _⟩ := Expr.built_of_knows hk F hr (Nat.le_refl _)
    have hokB := hl.straight.ok hk.ok
    have hopenB := hl.open hopen hk.ok
    by_cases hx : x ∈ A
    · obtain ⟨id, _, hf⟩ := hk.has x hx
      rw [build_assign_old he hf, Option.some.injEq] at hb
      subst hb
      exact hlast (hl.straight.trans (B.straight_insert _)) (hopenB.insert hokB rfl)
    · rw [build_assign_new he (hk.fresh x hx), Option.some.injEq] at hb
      subst hb
      exact hlast ((hl.straight.trans (B.straight_insert _)).trans (Builder.straight_insert _ _))
        ((hopenB.insert hokB rfl).insert ((B.straight_insert _).ok hokB) rfl)
  | ifThen c s ih =>
    obtain ⟨v, B, P₁, hbody, rfl⟩ := Stmt.ifThen_inv hk hr hb
    exact hbody.closes _ hk.ok hopen (ih hbody.knows hr.2 hbody.body)
  | whileDo c s ih =>
    obtain ⟨v, B, P₁, hbody, rfl⟩ := Stmt.whileDo_inv hk hr hb
    have hh := headed hk.ok
    have hc := headed_closes hk.ok hopen
    have hrest := hbody.closes (if V.backEdge then P.builder.func.blocks.length
      else (branchOnNonzero F v B).1) hh.grows.ok hc.open' (ih hbody.knows hr.2 hbody.body)
    refine hc.trans hrest fun b hb hne => ?_
    have hg := hbody.grows hh.grows.ok
    have hcur := hg.cur
    exact (Builder.straight_insert _ _).frame b (by omega) |>.trans (hg.frame b hb hne)
  | null =>
    cases hb
    exact ⟨hopen, fun b hb hnew hne => absurd hb (by omega)⟩
  | seq l s ihl ihs =>
    obtain ⟨P₁, hl, hgl, hs, hgs⟩ := Stmt.seq_inv hk hr hb
    have h₁ := ihl hk hr.1 hl hopen
    exact h₁.trans (ihs hgl.knows hr.2 hs h₁.open') hgs.grows.frame

/-! ## Scoped programs define before they use -/

/-- The allocas of `vis` dominate the insertion point. -/
def Parse.Visible (f : Func) (P : Parse V) (vis : List String) : Prop :=
  ∀ x ∈ vis, ∀ o, V.names.find P.map x = some o → P.builder.Avail f o

theorem branch_newUses {v : Operand} {B : Builder} (hok : B.Ok) (hv : B.Avail f v)
    (hext : (branchOnNonzero F v B).2.func.Extends f) :
    B.NewUsesOk f (branchOnNonzero F v B).2 := by
  rw [branchOnNonzero_eq] at hext ⊢
  have hok' := ((Builder.Grows.refl hok).appendBlock).appendBlock.ok
  have hline : (twoBlocks B).Line (· = v) ((twoBlocks B).buildOp F (.icmpNe v zero)).2 := by
    refine .buildOp F .refl ?_
    intro o ho
    rcases List.mem_cons.mp ho with rfl | ho
    · exact .inl rfl
    · rw [List.mem_singleton.mp ho]
      exact .inr trivial
  have hv' : (twoBlocks B).Avail f v := by
    cases v with
    | const c => trivial
    | inst id =>
      obtain ⟨d, j, i, hi, hrest⟩ := hv
      exact ⟨d, j, i, hi.mono (B.appendBlock_extends.trans (Builder.appendBlock_extends _)), hrest⟩
  have hline_ok := hline.newUsesOk hok' ((Builder.insert_extends _ _).trans hext)
    fun o ho => ho ▸ hv'
  refine (((Builder.NewUsesOk.appendBlock B).trans (.appendBlock _)).trans hline_ok).trans
    (.insert hext fun o ho => ?_)
  rw [List.mem_singleton.mp ho]
  exact hline.avail hok' (Builder.buildOp_between F _ _)

theorem headed_newUses {B : Builder} (hext : (loopHead B).func.Extends f) :
    B.NewUsesOk f (loopHead B) :=
  (Builder.NewUsesOk.appendBlock B).trans
    (Builder.NewUsesOk.insert hext fun _ ho => absurd ho List.not_mem_nil)

theorem Parse.Visible.grown {P P' : Parse V} {vis seen C : List String} (h : P.Visible f vis)
    (hok : P.builder.Ok) (hsub : ∀ x ∈ vis, x ∈ seen) (hg : P.Grown P' seen C)
    (hrange : P.builder.InRange) (hseal : P.builder.Sealed f P'.builder) : P'.Visible f vis := by
  intro x hx o ho
  rw [hg.old x (hsub x hx)] at ho
  have hcur : P'.builder.cur < P'.builder.func.blocks.length := hg.grows.ok
  exact (h x hx o ho).region hok hg.grows hrange hseal hg.grows.grows
    (hg.grows.cur.imp_right fun hle => ⟨hle, hcur⟩)

/-- The condition and the body of an `if` or `while`. -/
theorem Body.newUses {c : Expr} {s : Stmt} {P P₁ : Parse V} {vis seen : List String}
    {H B : Builder} {v : Operand} (h : Body F c s P seen H v B P₁) (dest : Nat) (hok : H.Ok)
    (hext : (P₁.close dest (branchOnNonzero F v B).1).builder.func.Extends f)
    (hc : ∀ x ∈ c.reads, x ∈ vis) (hvis : Parse.Visible (V := V) f ⟨H, P.map⟩ vis)
    (hs : P₁.builder.func.Extends f → (branchOnNonzero F v B).2.NewUsesOk f P₁.builder) :
    H.NewUsesOk f (P₁.close dest (branchOnNonzero F v B).1).builder := by
  have hext₁ := (P₁.builder.insert_extends (.br dest)).trans hext
  have hextb := h.grown.grows.grows.trans hext₁
  have hokB := h.line.straight.ok hok
  have hextB := (branched F v B hokB).grows.grows.trans hextb
  have hcond := h.line.newUsesOk hok hextB fun o ho => by
    obtain ⟨x, hx, hf⟩ := ho
    exact hvis x (hc x hx) o hf
  refine ((hcond.trans (branch_newUses hokB (h.line.avail hok h.value) hextb)).trans
    (hs hext₁)).trans ?_
  exact Builder.NewUsesOk.insert (i := .br dest) hext fun o ho => absurd ho List.not_mem_nil

/-- What holds where the body is entered: the allocas visible before the statement
still are, and control enters the body's own blocks only from the body. -/
theorem Body.enter {c : Expr} {s : Stmt} {P P₁ : Parse V} {vis seen C : List String}
    {H B : Builder} {v : Operand} (h : Body F c s P seen H v B P₁) {dest : Nat}
    (hk : P.Knows seen) (hH : P.builder.Grows H)
    (hg : P.Grown (P₁.close dest (branchOnNonzero F v B).1) seen C)
    (hdest : dest < B.func.blocks.length + 2) (hrange : P.builder.InRange)
    (hseal : P.builder.Sealed f (P₁.close dest (branchOnNonzero F v B).1).builder)
    (hvis : P.Visible f vis) :
    (branchOnNonzero F v B).2.InRange ∧ (branchOnNonzero F v B).2.Sealed f P₁.builder ∧
      Parse.Visible (V := V) f ⟨(branchOnNonzero F v B).2, P.map⟩ vis := by
  have hgB := hH.trans (h.line.grows hH.ok)
  have hbr := branched F v B hgB.ok
  have hle := hgB.length_le
  have hle₁ := h.grown.grows.length_le
  simp only [hbr.length] at hle₁
  refine ⟨hrange.grow (hgB.trans hbr.grows), ?_, ?_⟩
  · intro a b he hb hlt
    rw [hbr.length] at hb
    have he' := hseal a b he (by omega) (by rw [Parse.close_length]; omega)
    rcases Builder.insert_edge he' with he' | ⟨_, hb'⟩
    · exact he'
    · rw [List.mem_singleton.mp hb'] at hb
      omega
  · intro x hx o ho
    refine (hvis x hx o ho).region hk.ok hg.grows hrange hseal (hgB.trans hbr.grows).grows (.inr ?_)
    simp only [Parse.close_length, hbr.cur]
    omega

/-- An assignment stores after its operands are defined; a new variable's alloca
stays visible. -/
theorem Stmt.assign_newUses {x : String} {e : Expr} {P P' : Parse V} {vis seen : List String}
    (hk : P.Knows seen) (hr : (Stmt.assign x e).ReadsAssigned seen)
    (hs : (Stmt.assign x e).Scoped vis seen) (hb : (Stmt.assign x e).build F P = some P')
    (hext : P'.builder.func.Extends f) (hvis : P.Visible f vis) :
    P.builder.NewUsesOk f P'.builder ∧ P'.Visible f (vis ++ (Stmt.assign x e).atTop) := by
  obtain ⟨v, B, he, hl, hv⟩ := Expr.built_of_knows hk F hr (Nat.le_refl _)
  have hokB := hl.straight.ok hk.ok
  have hline : B.func.Extends f → P.builder.NewUsesOk f B := fun hB =>
    hl.newUsesOk hk.ok hB fun o ho => by
      obtain ⟨y, hy, hf⟩ := ho
      exact hvis y (hs.1 y hy) o hf
  have hvB : B.Avail f v := hl.avail hk.ok hv
  by_cases hx : x ∈ seen
  · obtain ⟨id, _, hf⟩ := hk.has x hx
    rw [Stmt.build_assign_old he hf, Option.some.injEq] at hb
    subst hb
    have hxv := hs.2 hx
    refine ⟨(hline ((B.insert_extends _).trans hext)).trans (.insert hext ?_), ?_⟩
    · intro o ho
      rcases List.mem_cons.mp ho with rfl | ho
      · exact hvB
      · rw [List.mem_singleton.mp ho]
        exact (hvis x hxv _ hf).straight hl.straight
    · intro y hy o ho
      have hyv : y ∈ vis := by
        rcases List.mem_append.mp hy with hy | hy
        · exact hy
        · rw [List.mem_singleton.mp hy]
          exact hxv
      exact (hvis y hyv o ho).straight (hl.straight.trans (B.straight_insert _))
  · have hf := hk.fresh x hx
    rw [Stmt.build_assign_new he hf, Option.some.injEq] at hb
    subst hb
    have hokB' := (B.straight_insert (.alloca .i64)).ok hokB
    have hextB' := (Builder.insert_extends _ _).trans hext
    have hvar : (B.insert (.alloca .i64)).2.Avail f (.inst B.nextId) := .new hokB rfl
    have hstore : (B.insert (.alloca .i64)).2.NewUsesOk f
        ((B.insert (.alloca .i64)).2.insert (.store v (.inst B.nextId))).2 := by
      refine .insert hext fun o ho => ?_
      rcases List.mem_cons.mp ho with rfl | ho
      · exact hvB.straight (B.straight_insert _)
      · rw [List.mem_singleton.mp ho]
        exact hvar
    refine ⟨((hline ((B.insert_extends _).trans hextB')).trans
      (.insert hextB' fun o ho => absurd ho List.not_mem_nil)).trans hstore, ?_⟩
    intro y hy o ho
    simp only [V.names.find_insert hk.valid hf] at ho
    by_cases hyx : y = x
    · rw [if_pos hyx, Option.some.injEq] at ho
      subst ho
      exact hvar.straight (Builder.straight_insert _ _)
    · rw [if_neg hyx] at ho
      have hyv : y ∈ vis := by simpa [Stmt.atTop, hyx] using hy
      exact (hvis y hyv o ho).straight
        ((hl.straight.trans (B.straight_insert _)).trans (Builder.straight_insert _ _))

/-- In a scoped statement every use comes after the definition, and the allocas of
the list itself stay visible. -/
theorem Stmt.newUses (s : Stmt) {P P' : Parse V} {vis seen : List String} (hk : P.Knows seen)
    (hr : s.ReadsAssigned seen) (hs : s.Scoped vis seen) (hsub : ∀ x ∈ vis, x ∈ seen)
    (hb : s.build F P = some P') (hext : P'.builder.func.Extends f) (hrange : P.builder.InRange)
    (hseal : P.builder.Sealed f P'.builder) (hvis : P.Visible f vis) :
    P.builder.NewUsesOk f P'.builder ∧ P'.Visible f (vis ++ s.atTop) := by
  induction s generalizing P P' vis seen with
  | assign x e => exact assign_newUses hk hr hs hb hext hvis
  | ifThen c s ih =>
    have hg := Stmt.grown hk hr hb
    obtain ⟨v, B, P₁, hbody, rfl⟩ := Stmt.ifThen_inv hk hr hb
    have hgB := hbody.line.grows hk.ok
    have hdest := (branched F v B hgB.ok).join
    obtain ⟨hrange', hseal', hvis'⟩ := hbody.enter hk (.refl hk.ok) hg (by omega) hrange hseal hvis
    refine ⟨hbody.newUses _ hk.ok hext hs.1 hvis fun hext₁ => ?_, ?_⟩
    · exact (ih hbody.knows hr.2 hs.2 hsub hbody.body hext₁ hrange' hseal' hvis').1
    · rw [atTop, List.append_nil]
      exact hvis.grown hk.ok hsub hg hrange hseal
  | whileDo c s ih =>
    have hg := Stmt.grown hk hr hb
    obtain ⟨v, B, P₁, hbody, rfl⟩ := Stmt.whileDo_inv hk hr hb
    have hh := headed hk.ok
    have hgB := hbody.line.grows hh.grows.ok
    have hjoin := (branched F v B hgB.ok).join
    have hlen := hh.length
    have hlenB := hbody.line.straight.length
    obtain ⟨hrange', hseal', hvis'⟩ := hbody.enter hk hh.grows hg (by split <;> omega) hrange
      hseal hvis
    -- the condition block is one of the blocks the statement adds
    have hvisH : Parse.Visible (V := V) f ⟨loopHead P.builder, P.map⟩ vis := by
      intro x hx o ho
      refine (hvis x hx o ho).region hk.ok hg.grows hrange hseal hh.grows.grows (.inr ?_)
      have hle := (hbody.grows hh.grows.ok).length_le
      rw [Parse.close_length]
      exact ⟨Nat.le_refl _, by simp only [loopHead, Builder.positionAtEnd_cur]; omega⟩
    have hnew := hbody.newUses _ hh.grows.ok hext hs.1 hvisH fun hext₁ =>
      (ih hbody.knows hr.2 hs.2 hsub hbody.body hext₁ hrange' hseal' hvis').1
    refine ⟨(headed_newUses ?_).trans hnew, ?_⟩
    · exact (hbody.grows hh.grows.ok).grows.trans ((P₁.builder.insert_extends _).trans hext)
    · rw [atTop, List.append_nil]
      exact hvis.grown hk.ok hsub hg hrange hseal
  | null =>
    cases hb
    exact ⟨.refl _, by rwa [atTop, List.append_nil]⟩
  | seq l s ihl ihs =>
    obtain ⟨P₁, hl, hgl, hsb, hgs⟩ := Stmt.seq_inv hk hr hb
    obtain ⟨hul, hvl⟩ := ihl hk hr.1 hs.1 hsub hl (hgs.grows.grows.trans hext) hrange
      (hseal.left hgs.grows) hvis
    have hsub' : ∀ x ∈ vis ++ l.atTop, x ∈ seen ++ l.assigned := by
      intro x hx
      exact List.mem_append.mpr ((List.mem_append.mp hx).imp (hsub x) (l.assigned_of_atTop x))
    obtain ⟨hus, hvs⟩ := ihs hgl.knows hr.2 hs.2 hsub' hsb hext (hrange.grow hgl.grows)
      (hseal.right hgl.grows) hvl
    exact ⟨hul.trans hus, by rwa [atTop, ← List.append_assoc]⟩

/-! ## Unscoped programs use what does not dominate -/

/-- The insertion point can be reached. -/
def Reached (B : Builder) : Prop := ∃ p, Walk B.func.Edge 0 B.cur p

/-- The insertion point can be reached without passing the alloca of `x`. -/
def Parse.Hidden (P : Parse V) (x : String) : Prop :=
  ∃ id d j i p, V.names.find P.map x = some (.inst id) ∧ P.builder.func.InstAt d j i ∧ i.id = id ∧
    Walk P.builder.func.Edge 0 P.builder.cur p ∧ d ∉ p

theorem Reached.step {B B' : Builder} (h : Reached B) (hext : B.func.Extends B'.func)
    (he : B'.func.Edge B.cur B'.cur) : Reached B' := by
  obtain ⟨p, hp⟩ := h
  exact ⟨_, (hp.mono fun _ _ => Func.Edge.mono hext).step he⟩

theorem Parse.Hidden.step {P P' : Parse V} {x : String} (h : P.Hidden x)
    (hm : V.names.find P'.map x = V.names.find P.map x)
    (hext : P.builder.func.Extends P'.builder.func)
    (he : P'.builder.func.Edge P.builder.cur P'.builder.cur)
    (hnew : P.builder.func.blocks.length ≤ P'.builder.cur) : P'.Hidden x := by
  obtain ⟨id, d, j, i, p, hf, hi, hid, hp, hd⟩ := h
  refine ⟨id, d, j, i, _, hm.trans hf, hi.mono hext, hid,
    (hp.mono fun _ _ => Func.Edge.mono hext).step he, ?_⟩
  have := hi.block_lt
  rw [List.mem_cons, not_or]
  exact ⟨by omega, hd⟩

/-- Code that stays in the current block changes nothing about that. -/
theorem Parse.Hidden.straight {P P' : Parse V} {x : String} (h : P.Hidden x)
    (hm : V.names.find P'.map x = V.names.find P.map x) (hs : P.builder.Straight P'.builder) :
    P'.Hidden x := by
  obtain ⟨id, d, j, i, p, hf, hi, hid, hp, hd⟩ := h
  exact ⟨id, d, j, i, p, hm.trans hf, hi.mono hs.grows, hid,
    hs.cur ▸ hp.mono fun _ _ => Func.Edge.mono hs.grows, hd⟩

/-- A finished function in which every use is fine and names are unique. -/
structure UsesFine (f : Func) : Prop where
  uses : ∀ b k i, f.InstAt b k i → f.UsesOk b k i
  unique : ∀ {b k b' k' i i'}, f.InstAt b k i → f.InstAt b' k' i' → i.id = i'.id → b = b' ∧ k = k'

/-- An instruction at the insertion point does not use a hidden alloca. -/
theorem Parse.Hidden.unused {P : Parse V} {x : String} (h : P.Hidden x) (hf : UsesFine f)
    (hext : P.builder.func.Extends f) {k : Nat} {i : Inst} (hi : f.InstAt P.builder.cur k i)
    {a : Operand} (ha : V.names.find P.map x = some a) : a ∉ i.instr.operands := by
  obtain ⟨id, d, j, e, p, hfx, he, hid, hp, hd⟩ := h
  rw [ha, Option.some.injEq] at hfx
  subst hfx
  intro hmem
  obtain ⟨d', j', e', he', hid', _, hdom⟩ := hf.uses _ _ _ hi id hmem
  obtain ⟨rfl, rfl⟩ := hf.unique he' (he.mono hext) (hid'.trans hid.symm)
  rcases hdom with ⟨hcur, _⟩ | ⟨_, hdom⟩
  · exact hd (hcur ▸ hp.head_mem)
  · exact hd (hdom p (hp.mono fun _ _ => Func.Edge.mono hext))

/-- The code of an expression loads every variable the expression reads. -/
def Expr.Loads (F : Folder) (V : Version) (m : V.names.Map) (e : Expr) : Prop :=
  ∀ {B B' : Builder} {o : Operand}, B.Ok → (∀ x ∈ e.reads, V.names.Has m B.nextId x) →
    e.build F V m B = some (o, B') →
    ∀ x ∈ e.reads, ∃ a k id, V.names.find m x = some a ∧ B'.func.InstAt B.cur k ⟨id, .load a⟩

private theorem Expr.Loads.binary {m : V.names.Map} {a b e : Expr} (ha : a.Loads F V m)
    (hb : b.Loads F V m) (hreads : e.reads = a.reads ++ b.reads)
    (he : ∀ {B x Ba y Bb o B'}, a.build F V m B = some (x, Ba) → b.build F V m Ba = some (y, Bb) →
      e.build F V m B = some (o, B') → Bb.func.Extends B'.func) : e.Loads F V m := by
  intro B B' o hok hhas hbuild x hx
  rw [hreads] at hhas hx
  obtain ⟨hhasa, hhasb⟩ := List.forall_mem_append.mp hhas
  obtain ⟨va, Ba, hea, hla, _⟩ := a.built (F := F) m B hhasa
  have hhasb' : ∀ z ∈ b.reads, V.names.Has m Ba.nextId z := fun z hz =>
    (hhasb z hz).mono hla.straight.nextId_le
  obtain ⟨vb, Bb, heb, hlb, _⟩ := b.built (F := F) m Ba hhasb'
  have hext := he hea heb hbuild
  rcases List.mem_append.mp hx with hx | hx
  · obtain ⟨w, k, id, hf, hi⟩ := ha hok hhasa hea x hx
    exact ⟨w, k, id, hf, hi.mono (hlb.straight.grows.trans hext)⟩
  · obtain ⟨w, k, id, hf, hi⟩ := hb (hla.straight.ok hok) hhasb' heb x hx
    rw [hla.straight.cur] at hi
    exact ⟨w, k, id, hf, hi.mono hext⟩

theorem Expr.loads (m : V.names.Map) (e : Expr) : e.Loads F V m := by
  induction e with
  | immediate n => exact fun _ _ _ x hx => absurd hx List.not_mem_nil
  | id x =>
    intro B B' o hok hhas hb y hy
    rw [List.mem_singleton.mp hy]
    obtain ⟨id, _, hf⟩ := hhas x (by simp [reads])
    simp only [build, hf] at hb
    cases hb
    exact ⟨_, _, _, hf, B.insert_instAt_self _ hok⟩
  | plus a b iha ihb | minus a b iha ihb =>
    refine iha.binary ihb rfl fun hea heb he => ?_
    simp [build, hea, heb] at he
    obtain rfl := congrArg Prod.snd he
    exact (Builder.straight_buildOp F _ _).grows
  | multiply a b iha ihb | divide a b iha ihb =>
    refine iha.binary ihb rfl fun hea heb he => ?_
    simp [build, hea, heb] at he
    split at he
    · obtain rfl := congrArg Prod.snd he
      exact (Builder.straight_buildOp F _ _).grows
    · cases he
      exact .refl _
  | paren a iha => exact iha
  | neg a iha =>
    intro B B' o hok hhas hb y hy
    obtain ⟨v, Ba, hea, _, _⟩ := a.built (F := F) m B hhas
    obtain ⟨w, k, id, hf, hi⟩ := iha hok hhas hea y hy
    simp [build, hea] at hb
    obtain rfl := congrArg Prod.snd hb
    exact ⟨w, k, id, hf, hi.mono (Builder.straight_buildOp F _ _).grows⟩
  | not a iha =>
    intro B B' o hok hhas hb y hy
    obtain ⟨v, Ba, hea, _, _⟩ := a.built (F := F) m B hhas
    obtain ⟨w, k, id, hf, hi⟩ := iha hok hhas hea y hy
    simp [build, hea] at hb
    obtain rfl := congrArg Prod.snd hb
    exact ⟨w, k, id, hf, hi.mono ((Builder.straight_buildOp F _ _).grows.trans
      (Builder.straight_buildOp F _ _).grows)⟩

theorem branch_edges {v : Operand} {B : Builder} (hok : B.Ok) :
    (branchOnNonzero F v B).2.func.Edge B.cur B.func.blocks.length ∧
      (branchOnNonzero F v B).2.func.Edge B.cur (B.func.blocks.length + 1) := by
  have hs := (twoBlocks B).straight_buildOp F (.icmpNe v zero)
  have hok' := hs.ok ((Builder.Grows.refl hok).appendBlock).appendBlock.ok
  have hcur : ((twoBlocks B).buildOp F (.icmpNe v zero)).2.cur = B.cur := hs.cur
  rw [branchOnNonzero_eq, ← hcur]
  exact ⟨Builder.insert_edge_self hok' (by simp [Instr.targets]),
    Builder.insert_edge_self hok' (by simp [Instr.targets])⟩

theorem headed_edge {B : Builder} (hok : B.Ok) :
    (loopHead B).func.Edge B.cur (loopHead B).cur :=
  Builder.insert_edge_self (B := B.appendBlock.2) (Builder.Grows.refl hok).appendBlock.ok
    (by simp [Instr.targets, loopHead])

/-- The alloca of `x` stands in block `d`. -/
def Parse.AllocaIn (P : Parse V) (x : String) (d : Nat) : Prop :=
  ∃ id j i, V.names.find P.map x = some (.inst id) ∧ P.builder.func.InstAt d j i ∧ i.id = id

theorem Parse.AllocaIn.mono {P P' : Parse V} {x : String} {d : Nat} (h : P.AllocaIn x d)
    (hm : V.names.find P'.map x = V.names.find P.map x)
    (hext : P.builder.func.Extends P'.builder.func) : P'.AllocaIn x d := by
  obtain ⟨id, j, i, hf, hi, hid⟩ := h
  exact ⟨id, j, i, hm.trans hf, hi.mono hext, hid⟩

/-- The allocas a statement adds stand in the current block or in blocks it adds. -/
theorem Stmt.allocaIn (s : Stmt) {P P' : Parse V} {A : List String} (hk : P.Knows A)
    (hr : s.ReadsAssigned A) (hb : s.build F P = some P') {x : String} (hx : x ∈ s.assigned)
    (hnew : x ∉ A) :
    ∃ d, P'.AllocaIn x d ∧ (d = P.builder.cur ∨ P.builder.func.blocks.length ≤ d) := by
  induction s generalizing P P' A with
  | assign y e =>
    rw [List.mem_singleton.mp hx] at hnew ⊢
    obtain ⟨v, B, he, hl, _⟩ := Expr.built_of_knows hk F hr (Nat.le_refl _)
    have hf := hk.fresh y hnew
    rw [build_assign_new he hf, Option.some.injEq] at hb
    subst hb
    refine ⟨P.builder.cur, ⟨B.nextId, (B.func.block B.cur).length, ⟨B.nextId, .alloca .i64⟩, ?_, ?_,
      rfl⟩, .inl rfl⟩
    · rw [V.names.find_insert hk.valid hf, if_pos rfl]
    · rw [← hl.straight.cur]
      exact (B.insert_instAt_self _ (hl.straight.ok hk.ok)).mono (Builder.insert_extends _ _)
  | ifThen c s ih =>
    obtain ⟨v, B, P₁, hbody, rfl⟩ := Stmt.ifThen_inv hk hr hb
    have hgB := hbody.line.grows hk.ok
    have hbr := branched F v B hgB.ok
    have hle := hgB.length_le
    obtain ⟨d, hd, hplace⟩ := ih hbody.knows hr.2 hbody.body hx hnew
    simp only [hbr.cur, hbr.length] at hplace
    exact ⟨d, hd.mono rfl (P₁.builder.insert_extends _), .inr (by omega)⟩
  | whileDo c s ih =>
    obtain ⟨v, B, P₁, hbody, rfl⟩ := Stmt.whileDo_inv hk hr hb
    have hgB := (headed hk.ok).grows.trans (hbody.line.grows (headed hk.ok).grows.ok)
    have hbr := branched F v B hgB.ok
    have hle := hgB.length_le
    obtain ⟨d, hd, hplace⟩ := ih hbody.knows hr.2 hbody.body hx hnew
    simp only [hbr.cur, hbr.length] at hplace
    exact ⟨d, hd.mono rfl (P₁.builder.insert_extends _), .inr (by omega)⟩
  | null => exact absurd hx List.not_mem_nil
  | seq l s ihl ihs =>
    obtain ⟨P₁, hl, hgl, hs, hgs⟩ := Stmt.seq_inv hk hr hb
    by_cases hxl : x ∈ l.assigned
    · obtain ⟨d, hd, hplace⟩ := ihl hk hr.1 hl hxl hnew
      exact ⟨d, hd.mono (hgs.old x (List.mem_append_right _ hxl)) hgs.grows.grows, hplace⟩
    · have hxs : x ∈ s.assigned := (List.mem_append.mp hx).resolve_left hxl
      obtain ⟨d, hd, hplace⟩ := ihs hgl.knows hr.2 hs hxs (by simp [hnew, hxl])
      have hcur := hgl.grows.cur
      have hle := hgl.grows.length_le
      exact ⟨d, hd, by omega⟩

/-- What is hidden where the condition is evaluated, and what the body adds, is
hidden in the join block: control can get there without the body. -/
theorem Body.hidden {c : Expr} {s : Stmt} {P P₁ : Parse V} {vis seen : List String}
    {H B : Builder} {v : Operand} (h : Body F c s P seen H v B P₁) (dest : Nat) (hok : H.Ok)
    (hrs : s.ReadsAssigned seen) (hrange : H.InRange) (hreach : Reached H)
    (hhid : ∀ x ∈ seen, x ∉ vis → Parse.Hidden (V := V) ⟨H, P.map⟩ x) :
    Reached (P₁.close dest (branchOnNonzero F v B).1).builder ∧
      ∀ x ∈ seen ++ s.assigned, x ∉ vis →
        (P₁.close dest (branchOnNonzero F v B).1).Hidden x := by
  have hokB := h.line.straight.ok hok
  have hbr := branched F v B hokB
  have hext : H.func.Extends (P₁.close dest (branchOnNonzero F v B).1).builder.func :=
    (h.grows hok).grows.trans (P₁.builder.insert_extends _)
  have hlen := h.line.straight.length
  have hedge : (P₁.close dest (branchOnNonzero F v B).1).builder.func.Edge H.cur
      (P₁.close dest (branchOnNonzero F v B).1).builder.cur := by
    have he := (branch_edges (F := F) (v := v) hokB).2
    rw [h.line.straight.cur, ← hbr.join] at he
    exact he.mono (h.grown.grows.grows.trans (P₁.builder.insert_extends _))
  have hjoin : (P₁.close dest (branchOnNonzero F v B).1).builder.cur =
      B.func.blocks.length + 1 := hbr.join
  refine ⟨hreach.step hext hedge, ?_⟩
  intro x hx hxv
  by_cases hxs : x ∈ seen
  · exact (hhid x hxs hxv).step (h.grown.old x hxs) hext hedge (by simp only [hjoin]; omega)
  · have hxa := (List.mem_append.mp hx).resolve_left hxs
    obtain ⟨d, hd, hplace⟩ := s.allocaIn h.knows hrs h.body hxa hxs
    obtain ⟨id, j, i, hf, hi, hid⟩ := hd
    obtain ⟨p, hp⟩ := hreach
    simp only [hbr.cur, hbr.length] at hplace
    have hold : ∀ a ∈ p, a < H.func.blocks.length :=
      hp.forall_mem (· < H.func.blocks.length) (Nat.lt_of_le_of_lt (Nat.zero_le _) hok) hrange
    refine ⟨id, d, j, i, _, hf, hi.mono (P₁.builder.insert_extends _), hid,
      (hp.mono fun _ _ => Func.Edge.mono hext).step hedge, ?_⟩
    rw [List.mem_cons, not_or, hjoin]
    refine ⟨by omega, fun hdp => ?_⟩
    have := hold d hdp
    omega

/-- The body is entered with everything hidden that was hidden before. -/
theorem Body.hidden_enter {c : Expr} {s : Stmt} {P P₁ : Parse V} {vis seen : List String}
    {H B : Builder} {v : Operand} (h : Body F c s P seen H v B P₁) (hok : H.Ok)
    (hreach : Reached H)
    (hhid : ∀ x ∈ seen, x ∉ vis → Parse.Hidden (V := V) ⟨H, P.map⟩ x) :
    Reached (branchOnNonzero F v B).2 ∧ ∀ x ∈ seen, x ∉ vis →
      Parse.Hidden (V := V) ⟨(branchOnNonzero F v B).2, P.map⟩ x := by
  have hokB := h.line.straight.ok hok
  have hbr := branched F v B hokB
  have hext := h.line.straight.grows.trans hbr.grows.grows
  have hlen := h.line.straight.length
  have hedge : (branchOnNonzero F v B).2.func.Edge H.cur (branchOnNonzero F v B).2.cur := by
    have he := (branch_edges (F := F) (v := v) hokB).1
    rwa [h.line.straight.cur, ← hbr.cur] at he
  refine ⟨hreach.step hext hedge, fun x hx hxv => ?_⟩
  exact (hhid x hx hxv).step rfl hext hedge (by simp only [hbr.cur]; omega)

/-- An expression whose loads are all fine reads only what is not hidden. -/
theorem Expr.reads_of_usesFine (hf : UsesFine f) {e : Expr} {P : Parse V} {vis seen : List String}
    (hk : P.Knows seen) (hr : ∀ y ∈ e.reads, y ∈ seen) {B B' : Builder} {v : Operand}
    (hok : B.Ok) (hid : P.builder.nextId ≤ B.nextId) (he : e.build F V P.map B = some (v, B'))
    (hext : B'.func.Extends f)
    (hhid : ∀ x ∈ seen, x ∉ vis → Parse.Hidden (V := V) ⟨B, P.map⟩ x) :
    ∀ y ∈ e.reads, y ∈ vis := by
  intro y hy
  by_contra hyv
  obtain ⟨a, k, id, ha, hi⟩ := e.loads P.map hok (fun z hz => (hk.has z (hr z hz)).mono hid) he y hy
  obtain ⟨_, B'', he', hl, _⟩ := Expr.built_of_knows hk F hr hid
  rw [he, Option.some.injEq, Prod.mk.injEq] at he'
  obtain ⟨rfl, rfl⟩ := he'
  exact (hhid y (hr y hy) hyv).unused hf (hl.straight.grows.trans hext) (hi.mono hext) ha
    (List.mem_singleton.mpr rfl)

/-- An assignment whose uses are fine is scoped, and hides nothing but what was hidden. -/
theorem Stmt.assign_scoped (hf : UsesFine f) {x : String} {e : Expr} {P P' : Parse V}
    {vis seen : List String} (hk : P.Knows seen) (hr : (Stmt.assign x e).ReadsAssigned seen)
    (hb : (Stmt.assign x e).build F P = some P') (hext : P'.builder.func.Extends f)
    (hreach : Reached P.builder) (hhid : ∀ x ∈ seen, x ∉ vis → P.Hidden x) :
    (Stmt.assign x e).Scoped vis seen ∧ Reached P'.builder ∧
      ∀ y ∈ seen ++ (Stmt.assign x e).assigned, y ∉ vis ++ (Stmt.assign x e).atTop →
        P'.Hidden y := by
  obtain ⟨v, B, he, hl, _⟩ := Expr.built_of_knows hk F hr (Nat.le_refl _)
  have hokB := hl.straight.ok hk.ok
  have hreads : B.func.Extends f → ∀ y ∈ e.reads, y ∈ vis := fun hB =>
    Expr.reads_of_usesFine hf hk hr hk.ok (Nat.le_refl _) he hB hhid
  have hstay : ∀ {B : Builder}, P.builder.Straight B → Reached B := by
    intro B hs
    obtain ⟨p, hp⟩ := hreach
    exact ⟨p, hs.cur ▸ hp.mono fun _ _ => Func.Edge.mono hs.grows⟩
  by_cases hx : x ∈ seen
  · obtain ⟨id, _, hfx⟩ := hk.has x hx
    rw [Stmt.build_assign_old he hfx, Option.some.injEq] at hb
    subst hb
    have hs := hl.straight.trans (B.straight_insert (.store v (.inst id)))
    have hxv : x ∈ vis := by
      by_contra hxv
      have hi := (B.insert_instAt_self (.store v (.inst id)) hokB).mono hext
      rw [hl.straight.cur] at hi
      exact (hhid x hx hxv).unused hf (hs.grows.trans hext) hi hfx (by simp [Instr.operands])
    refine ⟨⟨hreads ((B.insert_extends _).trans hext), fun _ => hxv⟩, hstay hs, ?_⟩
    intro y hy hyv
    rw [Stmt.atTop, List.mem_append, List.mem_singleton, not_or] at hyv
    have hys : y ∈ seen := by simpa [Stmt.assigned, hyv.2] using hy
    exact (hhid y hys hyv.1).straight rfl hs
  · have hfx := hk.fresh x hx
    rw [Stmt.build_assign_new he hfx, Option.some.injEq] at hb
    subst hb
    have hs := (hl.straight.trans (B.straight_insert (.alloca .i64))).trans
      (Builder.straight_insert _ (.store v (.inst B.nextId)))
    have hB := (B.insert_extends _).trans ((Builder.insert_extends _ _).trans hext)
    refine ⟨⟨hreads hB, fun h => absurd h hx⟩, hstay hs, ?_⟩
    intro y hy hyv
    rw [Stmt.atTop, List.mem_append, List.mem_singleton, not_or] at hyv
    have hys : y ∈ seen := by simpa [Stmt.assigned, hyv.2] using hy
    exact (hhid y hys hyv.1).straight
      (by rw [V.names.find_insert hk.valid hfx, if_neg hyv.2]) hs

/-- If all uses in the finished function are fine, the statement is scoped. -/
theorem Stmt.scoped_of_usesFine (hf : UsesFine f) (s : Stmt) {P P' : Parse V}
    {vis seen : List String} (hk : P.Knows seen) (hr : s.ReadsAssigned seen)
    (hb : s.build F P = some P') (hext : P'.builder.func.Extends f) (hrange : P.builder.InRange)
    (hreach : Reached P.builder) (hhid : ∀ x ∈ seen, x ∉ vis → P.Hidden x) :
    s.Scoped vis seen ∧ Reached P'.builder ∧
      ∀ x ∈ seen ++ s.assigned, x ∉ vis ++ s.atTop → P'.Hidden x := by
  induction s generalizing P P' vis seen with
  | assign x e => exact assign_scoped hf hk hr hb hext hreach hhid
  | ifThen c s ih =>
    obtain ⟨v, B, P₁, hbody, rfl⟩ := Stmt.ifThen_inv hk hr hb
    have hext₁ := (P₁.builder.insert_extends _).trans hext
    have hgB := hbody.line.grows hk.ok
    have hbr := branched F v B hgB.ok
    have hreads := Expr.reads_of_usesFine hf hk hr.1 hk.ok (Nat.le_refl _) hbody.cond
      ((hbr.grows.trans hbody.grown.grows).grows.trans hext₁) hhid
    obtain ⟨hreach', hhid'⟩ := hbody.hidden_enter hk.ok hreach hhid
    obtain ⟨hs, _, _⟩ := ih hbody.knows hr.2 hbody.body hext₁
      (hrange.grow (hgB.trans hbr.grows)) hreach' hhid'
    rw [atTop, List.append_nil]
    exact ⟨⟨hreads, hs⟩, hbody.hidden _ hk.ok hr.2 hrange hreach hhid⟩
  | whileDo c s ih =>
    obtain ⟨v, B, P₁, hbody, rfl⟩ := Stmt.whileDo_inv hk hr hb
    have hh := headed hk.ok
    have hext₁ := (P₁.builder.insert_extends _).trans hext
    have hgB := hbody.line.grows hh.grows.ok
    have hbr := branched F v B hgB.ok
    have hrangeH := hrange.grow hh.grows
    have hreachH : Reached (loopHead P.builder) := hreach.step hh.grows.grows (headed_edge hk.ok)
    have hhidH : ∀ x ∈ seen, x ∉ vis → Parse.Hidden (V := V) ⟨loopHead P.builder, P.map⟩ x :=
      fun x hx hxv => (hhid x hx hxv).step rfl hh.grows.grows (headed_edge hk.ok) (Nat.le_refl _)
    have hreads := Expr.reads_of_usesFine hf hk hr.1 hh.grows.ok hh.grows.nextId_le hbody.cond
      ((hbr.grows.trans hbody.grown.grows).grows.trans hext₁) hhidH
    obtain ⟨hreach', hhid'⟩ := hbody.hidden_enter hh.grows.ok hreachH hhidH
    obtain ⟨hs, _, _⟩ := ih hbody.knows hr.2 hbody.body hext₁
      (hrangeH.grow (hgB.trans hbr.grows)) hreach' hhid'
    rw [atTop, List.append_nil]
    exact ⟨⟨hreads, hs⟩, hbody.hidden _ hh.grows.ok hr.2 hrangeH hreachH hhidH⟩
  | null =>
    cases hb
    rw [assigned, atTop, List.append_nil, List.append_nil]
    exact ⟨trivial, hreach, hhid⟩
  | seq l s ihl ihs =>
    obtain ⟨P₁, hl, hgl, hs, hgs⟩ := Stmt.seq_inv hk hr hb
    obtain ⟨hsl, hreach₁, hhid₁⟩ := ihl hk hr.1 hl (hgs.grows.grows.trans hext) hrange hreach hhid
    obtain ⟨hss, hreach₂, hhid₂⟩ := ihs hgl.knows hr.2 hs hext (hrange.grow hgl.grows) hreach₁ hhid₁
    rw [assigned, atTop, ← List.append_assoc, ← List.append_assoc]
    exact ⟨⟨hsl, hss⟩, hreach₂, hhid₂⟩

/-! ## Programs -/

section
variable {p : Program} {P : Parse V} {o : Operand} {B : Builder} (h : p.Pieces F P o B)
include h

theorem Program.Pieces.inRange : P.builder.InRange :=
  Builder.InRange.entry.grow h.grown.grows

theorem Program.Pieces.edge {a b : Nat} (he : (B.insert (.ret (some o))).2.func.Edge a b) :
    P.builder.func.Edge a b := by
  rcases Builder.insert_edge he with he | ⟨_, hb⟩
  · rcases (h.line.grows h.grown.grows.ok).edges a b he with he | ⟨_, hle, hlt⟩
    · exact he
    · rw [h.line.straight.length] at hlt
      omega
  · cases hb

theorem Program.Pieces.terminated (hr : p.ReadsAssigned) :
    ∀ b < (B.insert (.ret (some o))).2.func.blocks.length,
      ((B.insert (.ret (some o))).2.func.block b).Terminated := by
  intro b hb
  have hopen : Builder.entry.Open := fun i hi => absurd hi (by simp [Builder.entry_block])
  have hclose := p.body.closes (Parse.Knows.start V) hr.1 h.body hopen
  have hok := h.grown.grows.ok
  rw [Builder.insert_length, h.line.straight.length] at hb
  by_cases hcur : b = B.cur
  · rw [hcur]
    exact (h.line.open hclose.open' hok).terminated (h.line.straight.ok hok) rfl
  · rw [(B.straight_insert _).frame b hcur]
    rw [h.line.straight.cur] at hcur
    rw [h.line.straight.frame b hcur]
    refine hclose.closed b hb ?_ hcur
    have hlen : Builder.entry.func.blocks.length = 1 := rfl
    have hzero : Builder.entry.cur = 0 := rfl
    simp only [hlen, hzero]
    omega

theorem Program.Pieces.usesOk (hr : p.ReadsAssigned) (hs : p.Scoped) (b k : Nat) (i : Inst)
    (hi : (B.insert (.ret (some o))).2.func.InstAt b k i) :
    (B.insert (.ret (some o))).2.func.UsesOk b k i := by
  have hextB := B.insert_extends (.ret (some o))
  have hok := h.grown.grows.ok
  have hseal : Builder.entry.Sealed (B.insert (.ret (some o))).2.func P.builder :=
    fun a b he _ _ => h.edge he
  obtain ⟨hbody, hvis⟩ := p.body.newUses (Parse.Knows.start V) hr.1 hs.1
    (fun _ hx => absurd hx List.not_mem_nil) h.body (h.line.straight.grows.trans hextB) .entry hseal
    (fun _ hx => absurd hx List.not_mem_nil)
  have hres := h.line.newUsesOk hok hextB fun a ha => by
    obtain ⟨x, hx, hf⟩ := ha
    exact hvis x (hs.2 x hx) a hf
  have hret := Builder.NewUsesOk.insert (i := .ret (some o)) (Func.Extends.refl _) fun a ha => by
    rw [List.mem_singleton.mp ha]
    exact h.line.avail hok h.value
  rcases ((hbody.trans hres).trans hret) b k i hi with hi | huses
  · exact absurd hi Builder.entry_instAt
  · exact huses

theorem Program.Pieces.scoped (hr : p.ReadsAssigned)
    (huses : ∀ b k i, (B.insert (.ret (some o))).2.func.InstAt b k i →
      (B.insert (.ret (some o))).2.func.UsesOk b k i) : p.Scoped := by
  have hextB := B.insert_extends (.ret (some o))
  have hnamed := ((h.grown.emits.trans h.line.emits).insert (.ret (some o))).named .entry
  have hfine : UsesFine (B.insert (.ret (some o))).2.func := ⟨huses, hnamed.unique⟩
  obtain ⟨hs, hreach, hhid⟩ := Stmt.scoped_of_usesFine hfine p.body (Parse.Knows.start V) hr.1
    h.body (h.line.straight.grows.trans hextB) .entry ⟨_, .start⟩
    fun x (hx : x ∈ []) => absurd hx List.not_mem_nil
  exact ⟨hs, Expr.reads_of_usesFine hfine h.grown.knows hr.2 h.grown.grows.ok (Nat.le_refl _)
    h.result hextB hhid⟩

end

/-- Either version emits a well-formed function exactly for scoped programs. -/
theorem Program.compile_wellFormed (F : Folder) (V : Version) (p : Program)
    (hr : p.ReadsAssigned) : ∃ f, p.compile F V = some f ∧ (f.WellFormed ↔ p.Scoped) := by
  obtain ⟨P, o, B, h⟩ := p.pieces F V hr
  refine ⟨_, h.compile, fun hwf => h.scoped hr hwf.uses, fun hs => ?_⟩
  refine ⟨h.terminated hr, fun a b he => ?_, h.usesOk hr hs⟩
  rw [Builder.insert_length, h.line.straight.length]
  exact h.inRange a b (h.edge he)

theorem Program.compile_wellFormed_iff (F : Folder) (p : Program) (hr : p.ReadsAssigned) :
    ∃ fc fcpp, p.compile F .c = some fc ∧ p.compile F .cpp = some fcpp ∧
      (fc.WellFormed ↔ p.Scoped) ∧ (fcpp.WellFormed ↔ p.Scoped) := by
  obtain ⟨fc, hc, hwfc⟩ := p.compile_wellFormed F .c hr
  obtain ⟨fcpp, hcpp, hwfcpp⟩ := p.compile_wellFormed F .cpp hr
  exact ⟨fc, fcpp, hc, hcpp, hwfc, hwfcpp⟩

/-- `{ y = 1; while (y) { x = y; y = x - 1; } return y; }` -/
def scopedLoop : Program :=
  ⟨.seq (.assign "y" (.immediate 1)) (.whileDo (.id "y")
      (.seq (.assign "x" (.id "y")) (.assign "y" (.minus (.id "x") (.immediate 1))))), .id "y"⟩

theorem Program.compile_wellFormed_iff_loop :
    ∃ fc fcpp, scopedLoop.compile .constants .c = some fc ∧
      scopedLoop.compile .constants .cpp = some fcpp ∧
      (fc.WellFormed ↔ scopedLoop.Scoped) ∧ (fcpp.WellFormed ↔ scopedLoop.Scoped) :=
  scopedLoop.compile_wellFormed_iff .constants (by decide)

/-- `{ if (1) { x = 1; } return x; }` -/
def escaping : Program := ⟨.ifThen (.immediate 1) (.assign "x" (.immediate 1)), .id "x"⟩

/-- The alloca of a variable first assigned in a body does not dominate its use
after the body. -/
theorem Program.compile_escaping :
    escaping.ReadsAssigned ∧ ∃ fc fcpp, escaping.compile .constants .c = some fc ∧
      escaping.compile .constants .cpp = some fcpp ∧ ¬ fc.WellFormed ∧ ¬ fcpp.WellFormed := by
  have hr : escaping.ReadsAssigned := by decide
  have hs : ¬ escaping.Scoped := by decide
  obtain ⟨fc, hc, hwfc⟩ := escaping.compile_wellFormed .constants .c hr
  obtain ⟨fcpp, hcpp, hwfcpp⟩ := escaping.compile_wellFormed .constants .cpp hr
  exact ⟨hr, fc, fcpp, hc, hcpp, by rwa [hwfc], by rwa [hwfcpp]⟩

end CourseCompilers.Structured
