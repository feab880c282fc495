import CourseCompilers.Lib.Unambiguous
import CourseCompilers.MiniC.Grammar

/-! The grammar of `minic.y` is unambiguous: the tokens of a translation unit determine
its tree, in both front ends. -/

namespace CourseCompilers.MiniC
open Lib

/-! ## Tokens -/

def Token.binaryOp? : Token → Option BinaryOp
  | .logicalOr => some .logicalOr
  | .logicalAnd => some .logicalAnd
  | .bitwiseOr => some .bitwiseOr
  | .bitwiseXor => some .bitwiseXor
  | .ampersand => some .ampersand
  | .eq => some .eq
  | .neq => some .neq
  | .lt => some .lt
  | .gt => some .gt
  | .lte => some .lte
  | .gte => some .gte
  | .lshift => some .lshift
  | .rshift => some .rshift
  | .plus => some .plus
  | .minus => some .minus
  | .star => some .star
  | .div => some .div
  | .mod => some .mod
  | _ => none

@[simp] theorem BinaryOp.binaryOp?_token (op : BinaryOp) : op.token.binaryOp? = some op := by
  cases op <;> rfl

theorem BinaryOp.token_inj {op op' : BinaryOp} (h : op.token = op'.token) : op = op' := by
  have hop := congrArg Token.binaryOp? h
  rw [binaryOp?_token, binaryOp?_token] at hop
  exact Option.some.inj hop

theorem BinaryOp.token_ne {op : BinaryOp} {t : Token} (ht : t.binaryOp? = none) : op.token ≠ t := by
  rintro rfl
  rw [binaryOp?_token] at ht
  cases ht

theorem UnaryOp.token_inj {op op' : UnaryOp} (h : op.token = op'.token) : op = op' := by
  cases op <;> cases op' <;> first | rfl | cases h

/-- The tokens an expression may begin with. -/
def Token.beginsExpr : Token → Bool
  | .id _ | .constantInteger _ | .constantFloat _ | .lparen => true
  | .ampersand | .star | .minus | .plus | .bitwiseInvert | .not => true
  | _ => false

/-- The tokens a `primary_expression` may begin with. -/
def Token.beginsPrimary : Token → Bool
  | .id _ | .constantInteger _ | .constantFloat _ | .lparen => true
  | _ => false

/-- The tokens that make an expression of this level longer. -/
def ExprLevel.continues : ExprLevel → Token → Bool
  | .binary n, t => t.binaryOp?.any fun op => n ≤ op.level
  | .constant, t | .conditional, t => t.binaryOp?.isSome || t = .questionMark
  | .expression, t | .assignment, t => t.binaryOp?.isSome || t = .questionMark || t = .assign
  | .cast, _ | .unary, _ | .postfixed, _ | .primary, _ => false

/-- The tokens after an expression of this level. -/
def ExprLevel.Ends (l : ExprLevel) (r : List Token) : Prop := ∀ t ∈ r.head?, l.continues t = false

variable {v : FrontEnd} {e : Expr} {ts r : List Token}

theorem TypeSpecifier.Derives.unique {type type' : TypeSpecifier} {t : Token}
    (h : type.Derives v t) (h' : type'.Derives v t) : type = type' := by
  cases h <;> cases h' <;> rfl

theorem TypeSpecifier.Derives.not_beginsExpr {type : TypeSpecifier} {t : Token}
    (h : type.Derives v t) : t.beginsExpr = false := by
  cases h <;> rfl

/-- An optional star in front of a token that is not a star. -/
theorem starTokens_append_inj {star star' : Bool} {t t' : Token} {us us' : List Token}
    (ht : t ≠ .star) (ht' : t' ≠ .star)
    (h : starTokens star ++ t :: us = starTokens star' ++ t' :: us') :
    star = star' ∧ t = t' ∧ us = us' := by
  cases star <;> cases star' <;> simp_all [starTokens, eq_comm]

/-! ## Where an expression begins and ends -/

theorem Expr.Derives.head_primary {e : Expr} {ts : List Token} (h : e.Derives v .primary ts) :
    ∃ t us, ts = t :: us ∧ t.beginsPrimary = true := by
  cases h with
  | id | constantInteger | constantFloat | paren => exact ⟨_, _, rfl, rfl⟩

theorem Expr.Derives.head {l : ExprLevel} (h : e.Derives v l ts) :
    ∃ t us, ts = t :: us ∧ t.beginsExpr = true := by
  induction h with
  | expression _ ih | assignment _ ih | constant _ ih | conditional _ ih | operand _ _ ih
  | cast _ ih | unary _ ih | postfixed _ ih => exact ih
  | @assign star id => cases star <;> exact ⟨_, _, rfl, rfl⟩
  | questionMark _ _ _ ih | binary _ _ ih =>
    obtain ⟨t, us, rfl, ht⟩ := ih
    exact ⟨t, _, rfl, ht⟩
  | castTo | id | constantInteger | constantFloat | paren => exact ⟨_, _, rfl, rfl⟩
  | @prefixed op => cases op <;> exact ⟨_, _, rfl, rfl⟩

/-- The tokens look like an `lhs_expression` and an assignment sign. -/
def assigns : List Token → Bool
  | .star :: .id _ :: .assign :: _ | .id _ :: .assign :: _ => true
  | _ => false

/-- Up to `conditional_expression` no expression begins with an assignment. -/
theorem Expr.Derives.head_of_assigns {l : ExprLevel} (h : e.Derives v l ts)
    (hl : l ≠ .expression ∧ l ≠ .assignment) (hr : assigns (ts ++ r) = true) :
    r.head? = some .assign := by
  induction h generalizing r with
  | expression => exact absurd rfl hl.1
  | assignment | assign => exact absurd rfl hl.2
  | constant _ ih | conditional _ ih | cast _ ih | unary _ ih | postfixed _ ih =>
    exact ih (by simp) hr
  | @operand n _ _ _ _ ih =>
    refine ih ?_ hr
    rw [operandLevel]
    split <;> simp
  | questionMark _ _ _ ih =>
    rw [List.append_assoc, List.append_assoc] at hr
    cases ih (by simp) hr
  | @binary op _ _ _ _ _ _ ih =>
    rw [List.append_assoc] at hr
    exact absurd (Option.some.inj (ih (by simp) hr)) (BinaryOp.token_ne rfl)
  | castTo | constantInteger | constantFloat | paren => cases hr
  | @prefixed op _ _ h =>
    cases op with
    | star =>
      cases h with
      | id =>
        cases r with
        | nil => cases hr
        | cons t r => cases t <;> first | rfl | cases hr
      | constantInteger | constantFloat | paren => cases hr
    | ampersand | minus | plus | bitwiseInvert | not => cases hr
  | id =>
    cases r with
    | nil => cases hr
    | cons t r => cases t <;> first | rfl | cases hr

/-- One more operator of level `n` and its right operand. -/
inductive BinaryStep (v : FrontEnd) (n : Nat) : Expr → Expr → List Token → Prop
  | intro {op : BinaryOp} {a b : Expr} {us : List Token} : op.level = n →
      Expr.Derives v (operandLevel n) b us → BinaryStep v n a (.binary op a b) (op.token :: us)

theorem Expr.Derives.begun {n : Nat} (h : e.Derives v (.binary n) ts) :
    Begun (fun e ts => e.Derives v (operandLevel n) ts) (BinaryStep v n) e ts := by
  generalize hl : ExprLevel.binary n = l at h
  induction h with
  | operand _ h =>
    cases hl
    exact ⟨_, _, [], h, .nil _, (List.append_nil _).symm⟩
  | binary ha hb ih =>
    cases hl
    obtain ⟨a, us, ws, hfirst, hc, rfl⟩ := ih rfl
    exact ⟨a, us, _, hfirst, hc.append (.single (.intro rfl hb)), List.append_assoc ..⟩
  | _ => cases hl

theorem continues_binary_iff {n : Nat} {t : Token} :
    (ExprLevel.binary n).continues t = true ↔ ∃ op, t.binaryOp? = some op ∧ n ≤ op.level := by
  simp [ExprLevel.continues, Option.any_eq_true]

theorem continues_operandLevel {n : Nat} {t : Token} (h : (operandLevel n).continues t = true) :
    ∃ op, t.binaryOp? = some op ∧ n < op.level := by
  rw [operandLevel] at h
  split at h
  · exact continues_binary_iff.mp h
  · cases h

theorem binaryStep_separates (n : Nat) :
    Separates (BinaryStep v n) (operandLevel n).Ends (ExprLevel.binary n).Ends := by
  constructor
  · rintro _ _ _ r ⟨hop, -⟩ t ht
    cases ht
    by_contra hcont
    obtain ⟨op', hop', hlt⟩ := continues_operandLevel (Bool.eq_true_of_not_eq_false hcont)
    rw [BinaryOp.binaryOp?_token] at hop'
    cases hop'
    omega
  · intro r hr t ht
    by_contra hcont
    obtain ⟨op, hop, hlt⟩ := continues_operandLevel (Bool.eq_true_of_not_eq_false hcont)
    have hbinary := continues_binary_iff.mpr ⟨op, hop, hlt.le⟩
    rw [hr t ht] at hbinary
    cases hbinary
  · rintro _ _ _ r ⟨hop, -⟩ hends
    have hbinary := continues_binary_iff.mpr ⟨_, BinaryOp.binaryOp?_token _, hop.ge⟩
    rw [hends _ rfl] at hbinary
    cases hbinary

/-! ## One way to read an expression -/

/-- The expression is the only one of its level to be read from its tokens. -/
def Expr.Once (v : FrontEnd) (l : ExprLevel) (e : Expr) (ts : List Token) : Prop :=
  Only (fun e ts => e.Derives v l ts) l.Ends e ts

/-- What the induction shows of a derivation; of an expression of binary operators, that
each of its operands can be read in one way only. -/
def Expr.Settled (v : FrontEnd) : ExprLevel → Expr → List Token → Prop
  | .binary n, e, ts => ∃ a us ws, a.Once v (operandLevel n) us ∧
      Chain (fun a b ts => BinaryStep v n a b ts ∧
        Only (BinaryStep v n a) (operandLevel n).Ends b ts) a e ws ∧ ts = us ++ ws
  | l, e, ts => e.Once v l ts

theorem Expr.Settled.once {l : ExprLevel} (h : e.Settled v l ts) : e.Once v l ts := by
  cases l with
  | binary n =>
    obtain ⟨a, us, ws, ha, hc, rfl⟩ := h
    exact (Only.begun (binaryStep_separates n) ha hc).mono (fun _ _ h => h.begun) fun _ h => h
  | expression | assignment | constant | conditional | cast | unary | postfixed | primary => exact h

/-- A step is read in one way if its operand is. -/
theorem Expr.Once.binaryStep {op : BinaryOp} {a b : Expr} {us : List Token}
    (h : b.Once v (operandLevel op.level) us) :
    Only (BinaryStep v op.level a) (operandLevel op.level).Ends (.binary op a b)
      (op.token :: us) := by
  rintro _ _ r r' ⟨hop, hb⟩ heq hr hr'
  obtain ⟨hop', hrest⟩ := List.cons.inj heq
  obtain rfl := BinaryOp.token_inj hop'
  obtain ⟨rfl, rfl⟩ := h _ _ _ _ hb hrest hr hr'
  exact ⟨rfl, rfl⟩

theorem ends_cons {l : ExprLevel} {t : Token} {r : List Token} (h : l.continues t = false) :
    l.Ends (t :: r) := by
  rintro _ ⟨⟩
  exact h

/-- These tokens end every expression. -/
def Token.closes : Token → Bool
  | .semicolon | .rparen | .colon => true
  | _ => false

theorem ends_of_closes {l : ExprLevel} {t : Token} {r : List Token} (h : t.closes = true) :
    l.Ends (t :: r) := by
  refine ends_cons ?_
  cases t <;> first | (cases l <;> rfl) | cases h

theorem ExprLevel.Ends.mono {l l' : ExprLevel} (hr : l.Ends r)
    (h : ∀ t, l'.continues t = true → l.continues t = true) : l'.Ends r := by
  intro t ht
  by_contra hcont
  have hcont' := h t (Bool.eq_true_of_not_eq_false hcont)
  rw [hr t ht] at hcont'
  cases hcont'

theorem ExprLevel.Ends.conditional (hr : ExprLevel.assignment.Ends r) :
    ExprLevel.conditional.Ends r :=
  hr.mono fun t ht => by simp only [ExprLevel.continues, Bool.or_eq_true] at ht ⊢; exact .inl ht

theorem ExprLevel.Ends.binary (hr : ExprLevel.conditional.Ends r) :
    (ExprLevel.binary 0).Ends r := by
  refine hr.mono fun t ht => ?_
  obtain ⟨op, hop, -⟩ := continues_binary_iff.mp ht
  simp [ExprLevel.continues, hop]

/-- A conditional expression in front of an assignment sign is none in front of a text
that ends it. -/
theorem Expr.Derives.not_assigns (h : e.Derives v .conditional ts)
    (hr : ExprLevel.assignment.Ends r) {star : Bool} {x : String} {us : List Token} :
    ts ++ r ≠ starTokens star ++ .id x :: .assign :: us := by
  intro heq
  have hhead := h.head_of_assigns (by simp) (r := r) (by rw [heq]; cases star <;> rfl)
  cases hr _ hhead

/-- A `unary_expression` does not begin like a cast. -/
theorem Expr.Derives.not_casts (h : e.Derives v .unary ts) {type : TypeSpecifier} {t : Token}
    (ht : type.Derives v t) {us : List Token} : ts ++ r ≠ .lparen :: t :: us := by
  intro heq
  cases h with
  | @prefixed op => cases op <;> cases heq
  | unary h =>
    cases h with
    | postfixed h =>
      cases h with
      | id | constantInteger | constantFloat => cases heq
      | paren h =>
        obtain ⟨t', us', rfl, ht'⟩ := h.head
        cases heq
        rw [ht.not_beginsExpr] at ht'
        cases ht'

/-- A `postfix_expression` does not begin with a prefix operator. -/
theorem Expr.Derives.not_prefixed (h : e.Derives v .postfixed ts) {op : UnaryOp}
    {us : List Token} : ts ++ r ≠ op.token :: us := by
  intro heq
  cases h with
  | postfixed h =>
    obtain ⟨t, us', rfl, ht⟩ := h.head_primary
    cases op <;> (cases heq; cases ht)

theorem UnaryOp.operandLevel_ends (op : UnaryOp) (r : List Token) : op.operandLevel.Ends r := by
  intro t _
  cases op <;> rfl

theorem Expr.Derives.settled {l : ExprLevel} (h : e.Derives v l ts) : e.Settled v l ts := by
  induction h with
  | expression h ih =>
    intro e' ts' r r' h' heq hr hr'
    cases h' with
    | expression h' => exact ih _ _ _ _ h' heq hr hr'
  | assignment h ih =>
    intro e' ts' r r' h' heq hr hr'
    cases h' with
    | assignment h' => exact ih _ _ _ _ h' heq hr.conditional hr'.conditional
    | assign h' =>
      rw [List.append_assoc] at heq
      exact absurd heq (h.not_assigns hr)
  | assign h ih =>
    intro e' ts' r r' h' heq hr hr'
    cases h' with
    | assignment h' =>
      rw [List.append_assoc] at heq
      exact absurd heq.symm (h'.not_assigns hr')
    | assign h' =>
      rw [List.append_assoc, List.append_assoc] at heq
      obtain ⟨rfl, hid, hrest⟩ := starTokens_append_inj (by simp) (by simp) heq
      obtain ⟨-, hrest⟩ := List.cons.inj hrest
      obtain ⟨rfl, rfl⟩ := ih _ _ _ _ h' hrest hr hr'
      cases hid
      exact ⟨rfl, rfl⟩
  | constant h ih =>
    intro e' ts' r r' h' heq hr hr'
    cases h' with
    | constant h' => exact ih _ _ _ _ h' heq hr hr'
  | conditional h ih =>
    intro e' ts' r r' h' heq hr hr'
    cases h' with
    | conditional h' => exact ih.once _ _ _ _ h' heq hr.binary hr'.binary
    | questionMark hc' =>
      rw [List.append_assoc, List.append_assoc] at heq
      obtain ⟨-, -, hrest⟩ := ih.once.eq hc' heq hr.binary (ends_cons rfl)
      exact absurd (hr _ (congrArg List.head? hrest)) (by simp [ExprLevel.continues])
  | questionMark hc ht he ihc iht ihe =>
    intro e' ts' r r' h' heq hr hr'
    cases h' with
    | conditional h' =>
      rw [List.append_assoc, List.append_assoc] at heq
      obtain ⟨-, -, hrest⟩ := ihc.once.eq h' heq (ends_cons rfl) hr'.binary
      exact absurd (hr' _ (congrArg List.head? hrest.symm)) (by simp [ExprLevel.continues])
    | questionMark hc' ht' he' =>
      simp only [List.append_assoc, List.cons_append] at heq
      obtain ⟨rfl, rfl, hrest⟩ := ihc.once.eq hc' heq (ends_cons rfl) (ends_cons rfl)
      obtain ⟨-, hrest⟩ := List.cons.inj hrest
      obtain ⟨rfl, rfl, hlast⟩ :=
        iht.once.eq ht' hrest (ends_of_closes rfl) (ends_of_closes rfl)
      obtain ⟨-, hlast⟩ := List.cons.inj hlast
      obtain ⟨rfl, rfl⟩ := ihe _ _ _ _ he' hlast hr hr'
      exact ⟨rfl, rfl⟩
  | operand hn h ih => exact ⟨_, _, [], ih.once, .nil _, (List.append_nil _).symm⟩
  | binary ha hb iha ihb =>
    obtain ⟨a, us, ws, hfirst, hc, rfl⟩ := iha
    exact ⟨a, us, _, hfirst, hc.append (.single ⟨.intro rfl hb, ihb.once.binaryStep⟩),
      List.append_assoc ..⟩
  | cast h ih =>
    intro e' ts' r r' h' heq hr hr'
    cases h' with
    | cast h' => exact ih _ _ _ _ h' heq hr hr'
    | castTo ht' h' => exact absurd heq (h.not_casts ht')
  | castTo ht h ih =>
    intro e' ts' r r' h' heq hr hr'
    cases h' with
    | cast h' => exact absurd heq.symm (h'.not_casts ht)
    | castTo ht' h' =>
      simp only [List.append_assoc, List.cons_append] at heq
      obtain ⟨-, htype⟩ := List.cons.inj heq
      obtain ⟨rfl, hstar⟩ := List.cons.inj htype
      obtain rfl := ht.unique ht'
      obtain ⟨rfl, -, hrest⟩ := starTokens_append_inj (by simp) (by simp) hstar
      obtain ⟨rfl, rfl⟩ := ih _ _ _ _ h' hrest hr hr'
      exact ⟨rfl, rfl⟩
  | unary h ih =>
    intro e' ts' r r' h' heq hr hr'
    cases h' with
    | unary h' => exact ih _ _ _ _ h' heq hr hr'
    | prefixed h' => exact absurd heq h.not_prefixed
  | prefixed h ih =>
    intro e' ts' r r' h' heq hr hr'
    cases h' with
    | unary h' => exact absurd heq.symm h'.not_prefixed
    | prefixed h' =>
      obtain ⟨hop, hrest⟩ := List.cons.inj heq
      obtain rfl := UnaryOp.token_inj hop
      obtain ⟨rfl, rfl⟩ := ih.once _ _ _ _ h' hrest (UnaryOp.operandLevel_ends _ r)
        (UnaryOp.operandLevel_ends _ r')
      exact ⟨rfl, rfl⟩
  | postfixed h ih =>
    intro e' ts' r r' h' heq hr hr'
    cases h' with
    | postfixed h' => exact ih _ _ _ _ h' heq hr hr'
  | id | constantInteger | constantFloat =>
    intro e' ts' r r' h' heq hr hr'
    cases h' <;> cases heq
    exact ⟨rfl, rfl⟩
  | paren h ih =>
    intro e' ts' r r' h' heq hr hr'
    cases h' with
    | id | constantInteger | constantFloat => cases heq
    | paren h' =>
      simp only [List.append_assoc, List.cons_append] at heq
      obtain ⟨-, heq⟩ := List.cons.inj heq
      obtain ⟨rfl, rfl, -⟩ := ih.once.eq h' heq (ends_of_closes rfl) (ends_of_closes rfl)
      exact ⟨rfl, rfl⟩

/-- Expressions that end at a closing token are read in one way. -/
theorem Expr.Derives.eq_of_closes {l : ExprLevel} {e' : Expr} {t t' : Token}
    {ts' us us' : List Token} (h : e.Derives v l ts) (h' : e'.Derives v l ts')
    (heq : ts ++ t :: us = ts' ++ t' :: us') (ht : t.closes = true) (ht' : t'.closes = true) :
    e = e' ∧ ts = ts' ∧ us = us' := by
  obtain ⟨he, hts, hrest⟩ := h.settled.once.eq h' heq (ends_of_closes ht) (ends_of_closes ht')
  exact ⟨he, hts, (List.cons.inj hrest).2⟩

/-! ## One way to read a declaration -/

theorem not_closes_of_beginsExpr {t : Token} (h : t.beginsExpr = true) : t.closes = false := by
  cases t <;> first | rfl | cases h

theorem ExprOptDerives.eq_of_closes {e e' : Option Expr} {t t' : Token} {ts ts' us us' : List Token}
    (h : ExprOptDerives v e ts) (h' : ExprOptDerives v e' ts')
    (heq : ts ++ t :: us = ts' ++ t' :: us') (ht : t.closes = true) (ht' : t'.closes = true) :
    e = e' ∧ ts = ts' ∧ us = us' := by
  cases h with
  | none =>
    cases h' with
    | none => exact ⟨rfl, rfl, (List.cons.inj heq).2⟩
    | some h' =>
      obtain ⟨_, _, rfl, hbegins⟩ := h'.head
      cases heq
      rw [not_closes_of_beginsExpr hbegins] at ht
      cases ht
  | some h =>
    cases h' with
    | none =>
      obtain ⟨_, _, rfl, hbegins⟩ := h.head
      cases heq
      rw [not_closes_of_beginsExpr hbegins] at ht'
      cases ht'
    | some h' =>
      obtain ⟨rfl, hrest⟩ := h.eq_of_closes h' heq ht ht'
      exact ⟨rfl, hrest⟩

/-- A phrase that is read in one way whatever follows it. -/
abbrev Prefix {α : Type} (D : α → List Token → Prop) (a : α) (ts : List Token) : Prop :=
  Only D (fun _ => True) a ts

theorem Declaration.Derives.once {d : Declaration} (h : d.Derives v ts) :
    Prefix (Declaration.Derives v) d ts := by
  intro d' ts' r r' h' heq _ _
  cases h with
  | plain ht =>
    cases h' with
    | plain ht' =>
      simp only [List.append_assoc, List.cons_append] at heq
      obtain ⟨rfl, hstar⟩ := List.cons.inj heq
      obtain ⟨rfl, hid, -⟩ := starTokens_append_inj (by simp) (by simp) hstar
      cases hid
      obtain rfl := ht.unique ht'
      exact ⟨rfl, rfl⟩
    | initialized ht' he' =>
      simp only [List.append_assoc, List.cons_append] at heq
      obtain ⟨-, -, hrest⟩ :=
        starTokens_append_inj (by simp) (by simp) (List.cons.inj heq).2
      cases hrest
  | initialized ht he =>
    cases h' with
    | plain ht' =>
      simp only [List.append_assoc, List.cons_append] at heq
      obtain ⟨-, -, hrest⟩ :=
        starTokens_append_inj (by simp) (by simp) (List.cons.inj heq).2
      cases hrest
    | initialized ht' he' =>
      simp only [List.append_assoc, List.cons_append] at heq
      obtain ⟨rfl, hstar⟩ := List.cons.inj heq
      obtain ⟨rfl, hid, hrest⟩ := starTokens_append_inj (by simp) (by simp) hstar
      cases hid
      obtain ⟨rfl, rfl, -⟩ := he.eq_of_closes he' (List.cons.inj hrest).2 rfl rfl
      obtain rfl := ht.unique ht'
      exact ⟨rfl, rfl⟩

/-- The tokens a declaration begins with. -/
def Token.isType : Token → Bool
  | .intKeyword | .floatKeyword | .voidKeyword => true
  | _ => false

theorem TypeSpecifier.Derives.isType {type : TypeSpecifier} {t : Token} (h : type.Derives v t) :
    t.isType = true := by
  cases h <;> rfl

theorem Declaration.Derives.head {d : Declaration} (h : d.Derives v ts) :
    ∃ t us, ts = t :: us ∧ t.isType = true := by
  cases h with
  | plain ht | initialized ht => exact ⟨_, _, rfl, ht.isType⟩

/-- The declarations of a block are read in one way in front of what does not begin one. -/
theorem DeclarationsDerive.once {ds : List Declaration} (h : DeclarationsDerive v ds ts) :
    Only (DeclarationsDerive v) (fun r => ∀ t ∈ r.head?, t.isType = false) ds ts := by
  induction h with
  | nil =>
    intro ds' ts' r r' h' heq hr hr'
    cases h' with
    | nil => exact ⟨rfl, rfl⟩
    | cons hd' =>
      obtain ⟨t, us, rfl, ht⟩ := hd'.head
      cases heq
      rw [hr t rfl] at ht
      cases ht
  | cons hd _ ih =>
    intro ds' ts' r r' h' heq hr hr'
    cases h' with
    | nil =>
      obtain ⟨t, us, rfl, ht⟩ := hd.head
      cases heq
      rw [hr' t rfl] at ht
      cases ht
    | cons hd' h' =>
      rw [List.append_assoc, List.append_assoc] at heq
      obtain ⟨rfl, rfl, hrest⟩ := hd.once.eq hd' heq trivial trivial
      obtain ⟨rfl, rfl⟩ := ih _ _ _ _ h' hrest hr hr'
      exact ⟨rfl, rfl⟩

/-! ## One way to read a statement -/

/-- The keyword or the brace a statement begins with; expression statements have none. -/
def Stmt.keyword? : Stmt → Option Token
  | .compoundStmt _ _ => some .lbrace
  | .ifStmt _ _ _ => some .ifKeyword
  | .switchStmt _ _ => some .switchKeyword
  | .whileStmt _ _ => some .whileKeyword
  | .forStmt _ _ _ _ => some .forKeyword
  | .doStmt _ _ => some .doKeyword
  | .returnStmt _ => some .returnKeyword
  | .breakStmt => some .breakKeyword
  | .continueStmt => some .continueKeyword
  | .caseStmt _ => some .caseKeyword
  | .none | .list _ _ | .exprStmt _ => Option.none

def Token.keyword? : Token → Option Token
  | .lbrace => some .lbrace
  | .ifKeyword => some .ifKeyword
  | .switchKeyword => some .switchKeyword
  | .whileKeyword => some .whileKeyword
  | .forKeyword => some .forKeyword
  | .doKeyword => some .doKeyword
  | .returnKeyword => some .returnKeyword
  | .breakKeyword => some .breakKeyword
  | .continueKeyword => some .continueKeyword
  | .caseKeyword => some .caseKeyword
  | _ => none

/-- The tokens a statement may begin with. -/
def Token.beginsStatement (t : Token) : Bool :=
  t.beginsExpr || t = .semicolon || t.keyword?.isSome

theorem Stmt.Derives.head {st : Stmt} (h : st.Derives v .statement ts) :
    ∃ t us, ts = t :: us ∧ t.keyword? = st.keyword? ∧ t.beginsStatement = true := by
  cases h with
  | exprStmt h =>
    cases h with
    | none => exact ⟨_, _, rfl, rfl, rfl⟩
    | some h =>
      obtain ⟨t, us, rfl, ht⟩ := h.head
      refine ⟨t, _, rfl, ?_, by simp [Token.beginsStatement, ht]⟩
      cases t <;> first | rfl | cases ht
  | compoundStmt | ifStmt | switchStmt | whileStmt | forStmt | doStmt | returnStmt | breakStmt
  | continueStmt | caseStmt => exact ⟨_, _, rfl, rfl, rfl⟩

/-- Statements with the same first token are of the same kind. -/
theorem Stmt.Derives.keyword?_eq {st st' : Stmt} {ts' r' : List Token}
    (h : st.Derives v .statement ts) (h' : st'.Derives v .statement ts')
    (heq : ts ++ r = ts' ++ r') : st'.keyword? = st.keyword? := by
  obtain ⟨t, us, rfl, ht, -⟩ := h.head
  obtain ⟨t', us', rfl, ht', -⟩ := h'.head
  obtain ⟨rfl, -⟩ := List.cons.inj heq
  rw [← ht, ← ht']

/-- One more statement of a list. -/
inductive StmtStep (v : FrontEnd) : Stmt → Stmt → List Token → Prop
  | intro {l s : Stmt} {ts : List Token} : s.Derives v .statement ts → StmtStep v l (.list l s) ts

/-- The tokens after the statements of a block. -/
def BlockEnds (r : List Token) : Prop := r.head? = some .rbrace

theorem stmtStep_separates : Separates (StmtStep v) (fun _ => True) BlockEnds := by
  refine ⟨fun _ _ _ _ _ => trivial, fun _ _ => trivial, ?_⟩
  rintro _ _ _ r ⟨h⟩ hends
  obtain ⟨t, us, rfl, -, ht⟩ := h.head
  cases hends
  cases ht

theorem Stmt.Derives.chain {l : StmtLevel} {st : Stmt} (h : st.Derives v l ts)
    (hl : l ≠ .statement) : Chain (StmtStep v) .none st ts := by
  induction h with
  | noList => exact .nil _
  | listOpt _ ih => exact ih (by simp)
  | first h => exact .single (.intro h)
  | next _ h ih => exact (ih (by simp)).append (.single (.intro h))
  | _ => exact absurd rfl hl

/-- After the declarations of a block there is no type. -/
theorem Stmt.Derives.not_isType {st : Stmt} (h : st.Derives v .listOpt ts) :
    ∀ t ∈ (ts ++ .rbrace :: r).head?, t.isType = false := by
  intro t ht
  cases h.chain (by simp) with
  | nil =>
    cases ht
    rfl
  | cons hs =>
    obtain ⟨hs⟩ := hs
    obtain ⟨t', us, rfl, -, hbegins⟩ := hs.head
    cases ht
    cases t <;> first | rfl | cases hbegins

/-- What the induction shows of a derivation; of a list, that each of its statements can
be read in one way only. -/
def Stmt.Settled (v : FrontEnd) : StmtLevel → Stmt → List Token → Prop
  | .statement, st, ts => Prefix (Stmt.Derives v .statement) st ts
  | _, st, ts => Chain (fun a b ts => StmtStep v a b ts ∧
      Only (StmtStep v a) (fun _ => True) b ts) .none st ts

theorem Stmt.Settled.once {st : Stmt} (h : st.Settled v .listOpt ts) :
    Only (Stmt.Derives v .listOpt) BlockEnds st ts :=
  (Chain.only stmtStep_separates h).mono (fun _ _ h => h.chain (by simp)) fun _ h => h

theorem Stmt.Settled.step {l st : Stmt} (h : st.Settled v .statement ts) :
    Only (StmtStep v l) (fun _ => True) (.list l st) ts := by
  rintro _ ts' r r' ⟨h'⟩ heq _ _
  obtain ⟨rfl, rfl⟩ := h _ _ _ _ h' heq trivial trivial
  exact ⟨rfl, rfl⟩

theorem Stmt.Derives.settled {l : StmtLevel} {st : Stmt} (h : st.Derives v l ts) :
    st.Settled v l ts := by
  induction h with
  | noList => exact .nil _
  | listOpt _ ih => exact ih
  | first h ih => exact .single ⟨.intro h, ih.step⟩
  | next _ h ihl ih => exact ihl.append (.single ⟨.intro h, ih.step⟩)
  | exprStmt h =>
    intro st' ts' r r' h' heq _ _
    have hkey := (Stmt.Derives.exprStmt h).keyword?_eq h' heq
    cases h' with
    | exprStmt h' =>
      simp only [List.append_assoc, List.cons_append] at heq
      obtain ⟨rfl, rfl, -⟩ := h.eq_of_closes h' heq rfl rfl
      exact ⟨rfl, rfl⟩
    | _ => cases hkey
  | compoundStmt hd hb ih =>
    intro st' ts' r r' h' heq _ _
    have hkey := (Stmt.Derives.compoundStmt hd hb).keyword?_eq h' heq
    cases h' with
    | compoundStmt hd' hb' =>
      simp only [List.append_assoc, List.cons_append] at heq
      obtain ⟨rfl, rfl, hrest⟩ := hd.once.eq hd' (List.cons.inj heq).2 hb.not_isType hb'.not_isType
      obtain ⟨rfl, rfl⟩ := ih.once _ _ _ _ hb' hrest rfl rfl
      exact ⟨rfl, rfl⟩
    | _ => cases hkey
  | ifStmt hc ht he iht ihe =>
    intro st' ts' r r' h' heq _ _
    have hkey := (Stmt.Derives.ifStmt hc ht he).keyword?_eq h' heq
    cases h' with
    | ifStmt hc' ht' he' =>
      simp only [List.append_assoc, List.cons_append] at heq
      obtain ⟨-, hopen⟩ := List.cons.inj heq
      obtain ⟨rfl, rfl, hthen⟩ := hc.eq_of_closes hc' (List.cons.inj hopen).2 rfl rfl
      obtain ⟨rfl, rfl, helse⟩ := iht.eq ht' hthen trivial trivial
      obtain ⟨rfl, rfl⟩ := ihe _ _ _ _ he' (List.cons.inj helse).2 trivial trivial
      exact ⟨rfl, rfl⟩
    | _ => cases hkey
  | switchStmt he hs ih =>
    intro st' ts' r r' h' heq _ _
    have hkey := (Stmt.Derives.switchStmt he hs).keyword?_eq h' heq
    cases h' with
    | switchStmt he' hs' =>
      simp only [List.append_assoc, List.cons_append] at heq
      obtain ⟨-, hopen⟩ := List.cons.inj heq
      obtain ⟨rfl, rfl, hbody⟩ := he.eq_of_closes he' (List.cons.inj hopen).2 rfl rfl
      obtain ⟨rfl, rfl⟩ := ih _ _ _ _ hs' hbody trivial trivial
      exact ⟨rfl, rfl⟩
    | _ => cases hkey
  | whileStmt he hs ih =>
    intro st' ts' r r' h' heq _ _
    have hkey := (Stmt.Derives.whileStmt he hs).keyword?_eq h' heq
    cases h' with
    | whileStmt he' hs' =>
      simp only [List.append_assoc, List.cons_append] at heq
      obtain ⟨-, hopen⟩ := List.cons.inj heq
      obtain ⟨rfl, rfl, hbody⟩ := he.eq_of_closes he' (List.cons.inj hopen).2 rfl rfl
      obtain ⟨rfl, rfl⟩ := ih _ _ _ _ hs' hbody trivial trivial
      exact ⟨rfl, rfl⟩
    | _ => cases hkey
  | forStmt ha hb hc hs ih =>
    intro st' ts' r r' h' heq _ _
    have hkey := (Stmt.Derives.forStmt ha hb hc hs).keyword?_eq h' heq
    cases h' with
    | forStmt ha' hb' hc' hs' =>
      simp only [List.append_assoc, List.cons_append] at heq
      obtain ⟨-, hopen⟩ := List.cons.inj heq
      obtain ⟨rfl, rfl, htest⟩ := ha.eq_of_closes ha' (List.cons.inj hopen).2 rfl rfl
      obtain ⟨rfl, rfl, hnext⟩ := hb.eq_of_closes hb' htest rfl rfl
      obtain ⟨rfl, rfl, hbody⟩ := hc.eq_of_closes hc' hnext rfl rfl
      obtain ⟨rfl, rfl⟩ := ih _ _ _ _ hs' hbody trivial trivial
      exact ⟨rfl, rfl⟩
    | _ => cases hkey
  | doStmt hs he ih =>
    intro st' ts' r r' h' heq _ _
    have hkey := (Stmt.Derives.doStmt hs he).keyword?_eq h' heq
    cases h' with
    | doStmt hs' he' =>
      simp only [List.append_assoc, List.cons_append] at heq
      obtain ⟨rfl, rfl, hwhile⟩ := ih.eq hs' (List.cons.inj heq).2 trivial trivial
      obtain ⟨-, hopen⟩ := List.cons.inj hwhile
      obtain ⟨rfl, rfl, -⟩ := he.eq_of_closes he' (List.cons.inj hopen).2 rfl rfl
      exact ⟨rfl, rfl⟩
    | _ => cases hkey
  | returnStmt he =>
    intro st' ts' r r' h' heq _ _
    have hkey := (Stmt.Derives.returnStmt he).keyword?_eq h' heq
    cases h' with
    | returnStmt he' =>
      simp only [List.append_assoc, List.cons_append] at heq
      obtain ⟨rfl, rfl, -⟩ := he.eq_of_closes he' (List.cons.inj heq).2 rfl rfl
      exact ⟨rfl, rfl⟩
    | _ => cases hkey
  | breakStmt =>
    intro st' ts' r r' h' heq _ _
    have hkey := (Stmt.Derives.breakStmt (v := v)).keyword?_eq h' heq
    cases h' with
    | breakStmt => exact ⟨rfl, rfl⟩
    | _ => cases hkey
  | continueStmt =>
    intro st' ts' r r' h' heq _ _
    have hkey := (Stmt.Derives.continueStmt (v := v)).keyword?_eq h' heq
    cases h' with
    | continueStmt => exact ⟨rfl, rfl⟩
    | _ => cases hkey
  | caseStmt he =>
    intro st' ts' r r' h' heq _ _
    have hkey := (Stmt.Derives.caseStmt he).keyword?_eq h' heq
    cases h' with
    | caseStmt he' =>
      simp only [List.append_assoc, List.cons_append] at heq
      obtain ⟨rfl, rfl, -⟩ := he.eq_of_closes he' (List.cons.inj heq).2 rfl rfl
      exact ⟨rfl, rfl⟩
    | _ => cases hkey

/-! ## One way to read a translation unit -/

/-- The tokens after a parameter. -/
def ParamEnds (r : List Token) : Prop := r.head? = some .comma ∨ r.head? = some .rparen

theorem not_paramEnds {star : Bool} {x : String} : ¬ ParamEnds (starTokens star ++ .id x :: r) := by
  cases star <;> simp [ParamEnds, starTokens]

theorem Param.Derives.once {p : Param} (h : p.Derives v ts) :
    Only (Param.Derives v) ParamEnds p ts := by
  intro p' ts' r r' h' heq hr hr'
  cases h with
  | named ht =>
    cases h' with
    | named ht' =>
      simp only [List.append_assoc, List.cons_append] at heq
      obtain ⟨rfl, hstar⟩ := List.cons.inj heq
      obtain ⟨rfl, hid, -⟩ := starTokens_append_inj (by simp) (by simp) hstar
      cases hid
      obtain rfl := ht.unique ht'
      exact ⟨rfl, rfl⟩
    | unnamed ht' =>
      simp only [List.append_assoc, List.cons_append, List.nil_append] at heq
      obtain ⟨-, rfl⟩ := List.cons.inj heq
      exact absurd hr' not_paramEnds
  | unnamed ht =>
    cases h' with
    | named ht' =>
      simp only [List.append_assoc, List.cons_append, List.nil_append] at heq
      obtain ⟨-, rfl⟩ := List.cons.inj heq
      exact absurd hr not_paramEnds
    | unnamed ht' =>
      obtain ⟨rfl, -⟩ := List.cons.inj heq
      obtain rfl := ht.unique ht'
      exact ⟨rfl, rfl⟩

/-- A comma and one more parameter. -/
inductive ParamStep (v : FrontEnd) : List Param → List Param → List Token → Prop
  | intro {ps : List Param} {p : Param} {ts : List Token} : p.Derives v ts →
      ParamStep v ps (ps ++ [p]) (.comma :: ts)

/-- The tokens after the parameters. -/
def ParamsEnd (r : List Token) : Prop := r.head? = some .rparen

theorem paramStep_separates : Separates (ParamStep v) ParamEnds ParamsEnd := by
  constructor
  · rintro _ _ _ r ⟨h⟩
    exact .inl rfl
  · exact fun r hr => .inr hr
  · rintro _ _ _ r ⟨h⟩ hends
    cases hends

/-- A list of one parameter. -/
inductive SingleParam (v : FrontEnd) : List Param → List Token → Prop
  | intro {p : Param} {ts : List Token} : p.Derives v ts → SingleParam v [p] ts

theorem ParamsDerive.begun {ps : List Param} (h : ParamsDerive v ps ts) :
    Begun (SingleParam v) (ParamStep v) ps ts := by
  induction h with
  | single h => exact ⟨_, _, [], .intro h, .nil _, (List.append_nil _).symm⟩
  | snoc _ hp ih =>
    obtain ⟨a, us, ws, ha, hc, rfl⟩ := ih
    exact ⟨a, us, _, ha, hc.append (.single (.intro hp)), List.append_assoc ..⟩

theorem ParamsDerive.once {ps : List Param} (h : ParamsDerive v ps ts) :
    Only (ParamsDerive v) ParamsEnd ps ts := by
  have hsingle : ∀ {ps ts}, SingleParam v ps ts → Only (SingleParam v) ParamEnds ps ts := by
    rintro _ _ ⟨hp⟩ _ _ r r' ⟨hp'⟩ heq hr hr'
    obtain ⟨rfl, rfl⟩ := hp.once _ _ _ _ hp' heq hr hr'
    exact ⟨rfl, rfl⟩
  have hstep : ∀ a b ts, ParamStep v a b ts →
      ParamStep v a b ts ∧ Only (ParamStep v a) ParamEnds b ts := by
    rintro a _ _ ⟨hp⟩
    refine ⟨.intro hp, ?_⟩
    rintro _ _ r r' ⟨hp'⟩ heq hr hr'
    obtain ⟨rfl, rfl⟩ := hp.once _ _ _ _ hp' (List.cons.inj heq).2 hr hr'
    exact ⟨rfl, rfl⟩
  obtain ⟨a, us, ws, ha, hc, rfl⟩ := h.begun
  exact (Only.begun paramStep_separates (hsingle ha) (hc.mono hstep)).mono
    (fun _ _ h => h.begun) fun _ h => h

theorem ParamsDerive.head {ps : List Param} (h : ParamsDerive v ps ts) :
    ∃ t us, ts = t :: us ∧ t.isType = true := by
  induction h with
  | single h =>
    cases h with
    | named ht | unnamed ht => exact ⟨_, _, rfl, ht.isType⟩
  | snoc _ _ ih =>
    obtain ⟨t, us, rfl, ht⟩ := ih
    exact ⟨t, _, rfl, ht⟩

theorem ParamsOptDerive.once {ps : List Param} (h : ParamsOptDerive v ps ts) :
    Only (ParamsOptDerive v) ParamsEnd ps ts := by
  intro ps' ts' r r' h' heq hr hr'
  cases h with
  | none =>
    cases h' with
    | none => exact ⟨rfl, rfl⟩
    | some h' =>
      obtain ⟨t, us, rfl, ht⟩ := h'.head
      cases heq
      cases hr
      cases ht
  | some h =>
    cases h' with
    | none =>
      obtain ⟨t, us, rfl, ht⟩ := h.head
      cases heq
      cases hr'
      cases ht
    | some h' => exact h.once _ _ _ _ h' heq hr hr'

theorem FunctionDefinition.Derives.once {f : FunctionDefinition} (h : f.Derives v ts) :
    Prefix (FunctionDefinition.Derives v) f ts := by
  rintro _ _ r r' ⟨ht', hparams', hbody'⟩ heq _ _
  obtain ⟨ht, hparams, hbody⟩ := h
  simp only [List.append_assoc, List.cons_append] at heq
  obtain ⟨rfl, hstar⟩ := List.cons.inj heq
  obtain ⟨rfl, hid, hopen⟩ := starTokens_append_inj (by simp) (by simp) hstar
  cases hid
  obtain rfl := ht.unique ht'
  obtain ⟨rfl, rfl, hclose⟩ := hparams.once.eq hparams' (List.cons.inj hopen).2 rfl rfl
  have hstmt := hbody.settled _ _ _ _ hbody' (List.cons.inj hclose).2 trivial trivial
  obtain ⟨hstmt, rfl⟩ := hstmt
  cases hstmt
  exact ⟨rfl, rfl⟩

/-- A function and a declaration differ after the name. -/
theorem FunctionDefinition.Derives.ne_declaration {f : FunctionDefinition} {d : Declaration}
    {ts' r' : List Token} (h : f.Derives v ts) (h' : d.Derives v ts') : ts ++ r ≠ ts' ++ r' := by
  intro heq
  obtain ⟨ht, hparams, hbody⟩ := h
  cases h' with
  | plain ht' | initialized ht' =>
    simp only [List.append_assoc, List.cons_append] at heq
    obtain ⟨-, -, hrest⟩ := starTokens_append_inj (by simp) (by simp) (List.cons.inj heq).2
    cases hrest

theorem ExternalDeclaration.Derives.once {d : ExternalDeclaration} (h : d.Derives v ts) :
    Prefix (ExternalDeclaration.Derives v) d ts := by
  intro d' ts' r r' h' heq _ _
  cases h with
  | function h =>
    cases h' with
    | function h' =>
      obtain ⟨rfl, rfl⟩ := h.once _ _ _ _ h' heq trivial trivial
      exact ⟨rfl, rfl⟩
    | declaration h' => exact absurd heq (h.ne_declaration h')
  | declaration h =>
    cases h' with
    | function h' => exact absurd heq.symm (h'.ne_declaration h)
    | declaration h' =>
      obtain ⟨rfl, rfl⟩ := h.once _ _ _ _ h' heq trivial trivial
      exact ⟨rfl, rfl⟩

/-- One more external declaration. -/
inductive ExternalStep (v : FrontEnd) :
    TranslationUnit → TranslationUnit → List Token → Prop
  | intro {u : TranslationUnit} {d : ExternalDeclaration} {ts : List Token} :
      d.Derives v ts → ExternalStep v u (u ++ [d]) ts

theorem externalStep_separates : Separates (ExternalStep v) (fun _ => True) (· = []) := by
  refine ⟨fun _ _ _ _ _ => trivial, fun _ _ => trivial, ?_⟩
  rintro _ _ _ r ⟨h⟩ hends
  exact h.ne_nil (List.append_eq_nil_iff.mp hends).1

theorem TranslationUnit.Derives.chain {u : TranslationUnit} (h : TranslationUnit.Derives v u ts) :
    Chain (ExternalStep v) [] u ts := by
  induction h with
  | single h => exact .single (.intro (u := []) h)
  | snoc _ h ih => exact ih.append (.single (.intro h))

theorem TranslationUnit.Derives.once {u : TranslationUnit} (h : TranslationUnit.Derives v u ts) :
    Only (TranslationUnit.Derives v) (· = []) u ts := by
  have hstep : ∀ a b ts, ExternalStep v a b ts →
      ExternalStep v a b ts ∧ Only (ExternalStep v a) (fun _ => True) b ts := by
    rintro a _ _ ⟨hd⟩
    refine ⟨.intro hd, ?_⟩
    rintro _ _ r r' ⟨hd'⟩ heq _ _
    obtain ⟨rfl, rfl⟩ := hd.once _ _ _ _ hd' heq trivial trivial
    exact ⟨rfl, rfl⟩
  exact (Chain.only externalStep_separates (h.chain.mono hstep)).mono (fun _ _ h => h.chain)
    fun _ h => h

theorem TranslationUnit.Derives.eq {u u' : TranslationUnit} (h : TranslationUnit.Derives v u ts)
    (h' : TranslationUnit.Derives v u' ts) : u = u' :=
  (h.once u' ts [] [] h' rfl rfl rfl).1

variable (v) in
/-- A token stream that the grammar accepts has one tree. -/
theorem accepted_iff_existsUnique (ts : List Token) :
    Accepted v ts ↔ ∃! u, TranslationUnit.Derives v u ts :=
  ⟨fun ⟨u, h⟩ => ⟨u, h, fun _ h' => h'.eq h⟩, fun ⟨u, h, _⟩ => ⟨u, h⟩⟩

end CourseCompilers.MiniC
