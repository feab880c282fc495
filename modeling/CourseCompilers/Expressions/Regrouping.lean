import CourseCompilers.Expressions.Values

/-! The course's grammars give unary minus the level of binary minus and the other
prefix operators a level below all binary ones. What the parser makes of a C text
under such declarations, and when its value is the one in C all the same: a sign
taken out of a product changes nothing, nor does one taken out of a quotient unless
the least integer is divided by something other than 1. -/

namespace CourseCompilers.Expressions
open Lib.Precedence Ir

/-- Binary operators as in C, the sign at the level of binary minus, the other prefix
operators below all binary ones. -/
structure Declared {υ : Type} (neg : υ) (R : Resolution Binary υ) : Prop where
  bin : ∀ o next, R.bin o next = decide (levels.level next ≤ levels.level o)
  sign : ∀ next, R.pre neg next = decide (levels.level next = 0)
  other : ∀ u next, u ≠ neg → R.pre u next = false

section
variable {υ α : Type} {w : Nat}

/-- The prefix operators in front of the last operand. -/
def trailing : Tree Binary υ α → List υ
  | .atom _ | .paren _ => []
  | .pre u e => u :: trailing e
  | .bin _ _ r => trailing r

/-- The operators whose rules are still open when `*` or `/` follows, innermost first: a
prefix operator, and then a product or quotient whose last operand begins with one. -/
def pending : Tree Binary υ α → List (Binary ⊕ υ)
  | .atom _ | .paren _ => []
  | .pre u e => pending e ++ [.inr u]
  | .bin o l r => (if pending r = [] then [] else pending r ++ [.inl o]) ++ pending l

/-- At each binary operator, what the left operand leaves open does no harm. Before `+`
and `-` this is signs; before `*` signs and products; before `/` signs, an even number of
them if the dividend is the least integer and the divisor not 1. -/
def Harmless (P : Prefixes υ w) (ρ : α → BitVec w) : Tree Binary υ α → Prop
  | .atom _ => True
  | .paren e | .pre _ e => Harmless P ρ e
  | .bin o l r => Harmless P ρ l ∧ Harmless P ρ r ∧
      match o with
      | .plus | .minus => ∀ u ∈ trailing l, u = P.neg
      | .multiply => ∀ k ∈ pending l, k = .inr P.neg ∨ k = .inl .multiply
      | .divide => (∀ k ∈ pending l, k = .inr P.neg) ∧
          ((pending l).length % 2 = 1 →
            valueC P ρ l ≠ some (-2 ^ (w - 1)) ∨ valueC P ρ r = some 1)

instance decHarmless [DecidableEq υ] (P : Prefixes υ w) (ρ : α → BitVec w) :
    (t : Tree Binary υ α) → Decidable (Harmless P ρ t)
  | .atom _ => inferInstanceAs (Decidable True)
  | .paren e | .pre _ e => decHarmless P ρ e
  | .bin o l r =>
      have := decHarmless P ρ l
      have := decHarmless P ρ r
      match o with
      | .plus | .minus => inferInstanceAs (Decidable (_ ∧ _ ∧ ∀ u ∈ trailing l, u = P.neg))
      | .multiply => inferInstanceAs
          (Decidable (_ ∧ _ ∧ ∀ k ∈ pending l, k = .inr P.neg ∨ k = .inl .multiply))
      | .divide => inferInstanceAs (Decidable (_ ∧ _ ∧ (∀ k ∈ pending l, k = .inr P.neg) ∧
          ((pending l).length % 2 = 1 →
            valueC P ρ l ≠ some (-2 ^ (w - 1)) ∨ valueC P ρ r = some 1)))

theorem mem_pending_of_mem_trailing {t : Tree Binary υ α} {u : υ} (h : u ∈ trailing t) :
    .inr u ∈ pending t := by
  induction t with
  | atom a | paren e ih => cases h
  | pre u' e ih =>
    rcases List.mem_cons.mp h with rfl | h
    · simp [pending]
    · simp [pending, ih h]
  | bin o l r ihl ihr =>
    have := ihr h
    have hne : pending r ≠ [] := List.ne_nil_of_mem this
    simp [pending, hne, this]

/-- What an open rule waits to apply. -/
def rule : Frame Binary υ α → Option (Binary ⊕ υ)
  | .paren => none
  | .pre u => some (.inr u)
  | .bin o _ => some (.inl o)

end

namespace Declared
variable {υ α : Type} {neg : υ} {R : Resolution Binary υ}

theorem respects (hR : Declared neg R) : R.Respects levels := by
  intro o next h
  simpa [hR.bin] using h

/-- `*` and `/` leave the same rules open. -/
theorem opens_eq_multiply (hR : Declared neg R) {o : Binary} (ho : o = .multiply ∨ o = .divide)
    (t : Tree Binary υ α) : t.opens R o = t.opens R .multiply := by
  have hlevel : levels.level o = levels.level .multiply := by
    rcases ho with rfl | rfl <;> rfl
  have h : (R.yields o : Frame Binary υ α → Bool) = R.yields .multiply := by
    funext f
    cases f with
    | paren => rfl
    | pre u =>
      by_cases hu : u = neg
      · simp only [Resolution.yields, hu, hR.sign, hlevel]
      · simp only [Resolution.yields, hR.other _ _ hu]
    | bin o' l => simp only [Resolution.yields, hR.bin, hlevel]
  rw [Tree.opens, Tree.opens, h]

/-- No prefix operator is applied before `*`. -/
theorem not_yields_pre (hR : Declared neg R) (u : υ) :
    R.yields .multiply (.pre u : Frame Binary υ α) = false := by
  by_cases hu : u = neg
  · simp [Resolution.yields, hu, hR.sign, levels]
  · simp [Resolution.yields, hR.other _ _ hu]

theorem opens_pre (hR : Declared neg R) (u : υ) (e : Tree Binary υ α) :
    (Tree.pre u e).opens R .multiply =
      ((e.opens R .multiply).1 ++ [.pre u], (e.opens R .multiply).2) := by
  rw [Tree.opens_pre]
  split
  · next he => rw [reduceWhile_of_not (hR.not_yields_pre u), he, List.nil_append]
  · rfl

/-- A product or quotient is complete if nothing of its last operand is open; what its
first operand left open stays so. -/
theorem opens_bin (hR : Declared neg R) {o : Binary} (ho : o = .multiply ∨ o = .divide)
    (l r : Tree Binary υ α) :
    (Tree.bin o l r).opens R .multiply =
      if (r.opens R .multiply).1 = [] then
        ((l.opens R .multiply).1, .bin o (l.opens R .multiply).2 (r.opens R .multiply).2)
      else
        ((r.opens R .multiply).1 ++ .bin o (l.opens R .multiply).2 :: (l.opens R .multiply).1,
          (r.opens R .multiply).2) := by
  have hy : R.yields .multiply (.bin o (l.opens R .multiply).2) = true := by
    rcases ho with rfl | rfl <;> simp [Resolution.yields, hR.bin, levels]
  rw [Tree.opens_bin, hR.opens_eq_multiply ho]
  split
  · rw [reduceWhile, if_pos hy]
    exact reduceWhile_of_head reduceWhile_head _
  · rfl

theorem multiply_or_divide {o : Binary} (h : 1 ≤ levels.level o) : o = .multiply ∨ o = .divide := by
  cases o <;> simp [levels] at h ⊢

/-- The rules that the parser leaves open are the pending ones. -/
theorem opens_rules (hR : Declared neg R) {t : Tree Binary υ α} (ht : t.Fits levels 1) :
    (t.opens R .multiply).1.map rule = (pending t).map some := by
  induction t with
  | atom a | paren e ih => rfl
  | pre u e ih =>
    have he : e.Fits levels 1 := Tree.Fits.mono ht (by decide)
    simp [hR.opens_pre, pending, ih he, rule]
  | bin o l r ihl ihr =>
    obtain ⟨ho, hl, hr⟩ := ht
    have hl := ihl (hl.mono ho)
    have hr := ihr (hr.mono (by omega))
    have hnil : (r.opens R .multiply).1 = [] ↔ pending r = [] := by
      rw [← List.map_eq_nil_iff (f := rule), hr, List.map_eq_nil_iff]
    rw [hR.opens_bin (multiply_or_divide ho)]
    by_cases he : pending r = []
    · simp [hnil, he, pending, hl]
    · simp [hnil, he, pending, hl, hr, rule]

theorem opens_eq_nil_iff (hR : Declared neg R) {t : Tree Binary υ α} (ht : t.Fits levels 1) :
    (t.opens R .multiply).1 = [] ↔ pending t = [] := by
  rw [← List.map_eq_nil_iff (f := rule), hR.opens_rules ht, List.map_eq_nil_iff]

end Declared

/-! ## Values of open rules -/

section
variable {υ α : Type} {w : Nat} {P : Prefixes υ w} {div : BitVec w → BitVec w → Option (BitVec w)}
  {ρ : α → BitVec w}

/-- Completing the rules multiplies the operand by `c`. -/
def Scales (P : Prefixes υ w) (div : BitVec w → BitVec w → Option (BitVec w)) (ρ : α → BitVec w)
    (K : List (Frame Binary υ α)) (c : BitVec w) : Prop :=
  ∀ e y, value P div ρ e = some y → value P div ρ (close K e) = some (c * y)

theorem Scales.nil : Scales P div ρ [] 1 := by
  intro e y h
  simp [h]

theorem Scales.append {K K' : List (Frame Binary υ α)} {c c' : BitVec w}
    (h : Scales P div ρ K c) (h' : Scales P div ρ K' c') : Scales P div ρ (K ++ K') (c' * c) := by
  intro e y he
  rw [close_append, h' _ _ (h _ _ he), BitVec.mul_assoc]

theorem Scales.sign : Scales P div ρ [.pre P.neg] (-1) := by
  intro e y h
  simp [Frame.close, value, h, P.apply_neg]

theorem Scales.factor {x : Tree Binary υ α} {a : BitVec w} (hx : value P div ρ x = some a) :
    Scales P div ρ [.bin .multiply x] a := by
  intro e y h
  simp [Frame.close, value, hx, h, Binary.apply]

/-- The effect of `n` signs. -/
def signed (n : Nat) (x : BitVec w) : BitVec w := if n % 2 = 0 then x else -x

theorem signed_succ (n : Nat) (x : BitVec w) : signed (n + 1) x = signed n (-x) := by
  unfold signed
  split <;> split <;> first | omega | simp

@[simp] theorem signed_signed (n : Nat) (x : BitVec w) : signed n (signed n x) = x := by
  unfold signed
  split <;> simp

theorem value_close_signs {K : List (Frame Binary υ α)} (hK : ∀ f ∈ K, f = .pre P.neg)
    (e : Tree Binary υ α) :
    value P div ρ (close K e) = (value P div ρ e).map (signed K.length) := by
  induction K generalizing e with
  | nil => cases he : value P div ρ e <;> simp [he, signed]
  | cons f K ih =>
    obtain ⟨hf, hK'⟩ := List.forall_mem_cons.mp hK
    subst hf
    rw [close_cons, ih hK']
    cases he : value P div ρ e <;>
      simp [Frame.close, value, he, P.apply_neg, signed_succ]

/-- A sign may be taken out of a quotient whose dividend is not the least integer. -/
theorem sdivChecked_neg {x y q : BitVec w} (h : sdivChecked x y = some q)
    (hx : x ≠ BitVec.intMin w) : sdivChecked (-x) y = some (-q) := by
  unfold sdivChecked at h ⊢
  split at h
  · cases h
  · next h0 =>
    cases h
    have hmin : -x ≠ BitVec.intMin w := by
      intro h
      have := congrArg (- ·) h
      simp only [BitVec.neg_neg, BitVec.neg_intMin] at this
      exact hx this
    rw [if_neg (by rintro (h | h) <;> [exact h0 (.inl h); exact hmin h.1]), BitVec.neg_sdiv hx]

/-- Its own negative, the least integer divided by 1 is what it was. -/
theorem sdivChecked_neg_least {q : BitVec w} (h : sdivChecked (BitVec.intMin w) 1 = some q) :
    sdivChecked (-BitVec.intMin w) 1 = some (-q) := by
  have hq : q = BitVec.intMin w := by
    unfold sdivChecked at h
    split at h
    · cases h
    · cases h
      exact BitVec.sdiv_one
  rw [hq, BitVec.neg_intMin]
  rwa [hq] at h

theorem sdivChecked_signed {n : Nat} {x y q : BitVec w} (h : sdivChecked x y = some q)
    (hx : n % 2 = 1 → x ≠ BitVec.intMin w ∨ y = 1) :
    sdivChecked (signed n x) y = some (signed n q) := by
  unfold signed
  split
  · exact h
  · next hn =>
    by_cases hmin : x = BitVec.intMin w
    · have hy : y = 1 := (hx (by omega)).resolve_left (not_not.mpr hmin)
      subst hmin hy
      exact sdivChecked_neg_least h
    · exact sdivChecked_neg h hmin

section
variable (hw : 0 < w) (hdiv : ∀ {x y q}, sdivChecked x y = some q → div x y = some q)
include hw hdiv

/-- Signs taken out of a quotient. -/
theorem value_quotient {K : List (Frame Binary υ α)} (hK : ∀ f ∈ K, f = .pre P.neg)
    {x r : Tree Binary υ α} {a b q : Int} (ha : InRange w a) (hb : InRange w b)
    (hx : value P div ρ (close K x) = some (BitVec.ofInt w a))
    (hr : value P div ρ r = some (BitVec.ofInt w b)) (hq : Binary.divide.inC w a b = some q)
    (hodd : K.length % 2 = 1 → a ≠ -2 ^ (w - 1) ∨ b = 1) :
    value P div ρ (.bin .divide x r) = some (signed K.length (BitVec.ofInt w q)) := by
  rw [value_close_signs hK] at hx
  obtain ⟨y, hy, hya⟩ := Option.map_eq_some_iff.mp hx
  have hdivide : sdivChecked (BitVec.ofInt w a) (BitVec.ofInt w b) = some (BitVec.ofInt w q) := by
    obtain ⟨h0, hq⟩ := Binary.inC_divide.mp hq
    exact sdivChecked_ofInt hw ha hb h0 hq
  have hmin : K.length % 2 = 1 →
      BitVec.ofInt w a ≠ BitVec.intMin w ∨ BitVec.ofInt w b = 1 := by
    intro ho
    refine (hodd ho).imp (fun hne h => hne ?_) (fun hb => by simp [hb])
    rw [← ofInt_least hw] at h
    exact ofInt_inj hw ha (InRange.least w) h
  have hsigned := sdivChecked_signed hdivide hmin
  rw [← hya, signed_signed] at hsigned
  simp [value, hy, hr, Binary.apply, hdiv hsigned]

end

/-! ## The value of the parser's tree -/

section
variable {R : Resolution Binary υ} {t l r : Tree Binary υ α}

theorem Harmless.trailing_left {o : Binary} (h : Harmless P ρ (.bin o l r)) :
    ∀ u ∈ trailing l, u = P.neg := by
  intro u hu
  have hp := mem_pending_of_mem_trailing hu
  obtain ⟨-, -, h⟩ := h
  cases o with
  | plus | minus => exact h u hu
  | multiply => simpa using h _ hp
  | divide => simpa using h.1 _ hp

/-- The rules of a harmless expression that ends without other prefix operators. -/
theorem Harmless.mem_spine (h : Harmless P ρ t) (ht : ∀ u ∈ trailing t, u = P.neg)
    {f : Frame Binary υ α} (hf : f ∈ (t.spine R).1) : f = .pre P.neg ∨ ∃ o x, f = .bin o x := by
  induction t with
  | atom a | paren e ih => cases hf
  | pre u e ih =>
    obtain ⟨hu, he⟩ := List.forall_mem_cons.mp ht
    rcases List.mem_append.mp hf with hf | hf
    · exact ih h he hf
    · cases List.mem_singleton.mp hf
      exact .inl (by rw [hu])
  | bin o l r ihl ihr =>
    rcases List.mem_append.mp hf with hf | hf
    · exact ihr h.2.1 ht hf
    · rcases List.mem_cons.mp hf with rfl | hf
      · exact .inr ⟨o, _, rfl⟩
      · exact ihl h.1 h.trailing_left (mem_of_mem_reduceWhile hf)

/-- Before `+` and `-` the parser completes everything. -/
theorem Harmless.opens_additive (hR : Declared P.neg R) {o : Binary} (ho : levels.level o = 0)
    (h : Harmless P ρ t) (ht : ∀ u ∈ trailing t, u = P.neg) :
    t.opens R o = ([], t.regroup R) := by
  refine reduceWhile_eq_close (fun f hf => ?_) _
  rcases h.mem_spine ht hf with rfl | ⟨o', x, rfl⟩
  · simp [Resolution.yields, hR.sign, ho]
  · simp [Resolution.yields, hR.bin, ho]

section
variable (hw : 0 < w) (hdiv : ∀ {x y q}, sdivChecked x y = some q → div x y = some q)
  (hR : Declared P.neg R)
include hR

theorem open_signs (ht : t.Fits levels 1) (hp : ∀ k ∈ pending t, k = .inr P.neg) :
    ∀ f ∈ (t.opens R .multiply).1, f = .pre P.neg := by
  intro f hf
  have hrule : rule f ∈ (pending t).map some := by
    rw [← hR.opens_rules ht]
    exact List.mem_map_of_mem hf
  obtain ⟨k, hk, hf⟩ := List.mem_map.mp hrule
  rw [hp k hk] at hf
  cases f with
  | paren | bin o x => cases hf
  | pre u =>
    cases hf
    rfl

theorem opens_length (ht : t.Fits levels 1) :
    (t.opens R .multiply).1.length = (pending t).length := by
  have := congrArg List.length (hR.opens_rules ht)
  simpa using this

/-- An operand with nothing open is the parser's tree of it. -/
theorem opens_of_pending_nil (ht : t.Fits levels 1) (hp : pending t = []) :
    t.opens R .multiply = ([], t.regroup R) := by
  have h1 := (hR.opens_eq_nil_iff ht).mpr hp
  have h2 := t.close_opens R .multiply
  rw [h1, close_nil] at h2
  exact Prod.ext h1 h2

include hw hdiv

/-- A product or quotient read into the rules that its first operand left open. -/
theorem scale_bin {o : Binary} (ho : o = .multiply ∨ o = .divide) (hl : l.Fits levels 1)
    (hh : Harmless P ρ (.bin o l r)) {a b v : Int} (ha : valueC P ρ l = some a)
    (hb : valueC P ρ r = some b) (hv : o.inC w a b = some v)
    (hvl : value P div ρ (l.regroup R) = some (BitVec.ofInt w a))
    (hvr : value P div ρ (r.regroup R) = some (BitVec.ofInt w b))
    (hsl : (∀ k ∈ pending l, k = .inr P.neg ∨ k = .inl .multiply) →
      ∃ c y, value P div ρ (l.opens R .multiply).2 = some y ∧
        Scales P div ρ (l.opens R .multiply).1 c) :
    ∃ c y z, value P div ρ (l.opens R .multiply).2 = some y ∧
      Scales P div ρ (l.opens R .multiply).1 c ∧
      value P div ρ (.bin o (l.opens R .multiply).2 (r.regroup R)) = some z ∧
      c * z = BitVec.ofInt w v := by
  obtain ⟨-, -, hleft⟩ := hh
  rw [← l.close_opens R .multiply] at hvl
  rcases ho with rfl | rfl
  · obtain ⟨c, y, hy, hc⟩ := hsl hleft
    have hcy : c * y = BitVec.ofInt w a := by
      rw [hc _ _ hy] at hvl
      exact Option.some.inj hvl
    obtain ⟨-, rfl⟩ := checked_eq_some.mp hv
    refine ⟨c, y, y * BitVec.ofInt w b, hy, hc, by simp [value, hy, hvr, Binary.apply], ?_⟩
    rw [← BitVec.mul_assoc, hcy, BitVec.ofInt_mul]
  · obtain ⟨hsigns, hodd⟩ := hleft
    have hK := open_signs hR hl hsigns
    obtain ⟨c, y, hy, hc⟩ := hsl fun k hk => .inl (hsigns k hk)
    have hodd' : (l.opens R .multiply).1.length % 2 = 1 → a ≠ -2 ^ (w - 1) ∨ b = 1 := by
      rw [opens_length hR hl]
      intro ho
      refine (hodd ho).imp (fun hne h => hne (h ▸ ha)) fun hone => ?_
      exact Option.some.inj (hb.symm.trans hone)
    have hz := value_quotient hw hdiv hK (inRange_of_valueC ha) (inRange_of_valueC hb) hvl hvr hv
      hodd'
    refine ⟨c, y, _, hy, hc, hz, ?_⟩
    have hclose : value P div ρ (close _ _) = _ :=
      value_close_signs hK (.bin .divide (l.opens R .multiply).2 (r.regroup R))
    rw [hc _ _ hz, hz] at hclose
    simpa using hclose

/-- The parser's tree has the C value, and where only signs and products are open before
`*` or `/` they scale the operand. -/
theorem Harmless.value_and_scale (ht : t.Fits levels 0) (hh : Harmless P ρ t) {v : Int}
    (hv : valueC P ρ t = some v) :
    value P div ρ (t.regroup R) = some (BitVec.ofInt w v) ∧
    (t.Fits levels 1 → (∀ k ∈ pending t, k = .inr P.neg ∨ k = .inl .multiply) →
      ∃ c y, value P div ρ (t.opens R .multiply).2 = some y ∧
        Scales P div ρ (t.opens R .multiply).1 c) := by
  induction t generalizing v with
  | atom a =>
    cases hv
    exact ⟨by simp [Tree.regroup, Tree.spine, value], fun _ _ => ⟨1, ρ a, rfl, .nil⟩⟩
  | paren e ih =>
    obtain ⟨he, -⟩ := ih ht hh hv
    exact ⟨he, fun _ _ => ⟨1, _, he, .nil⟩⟩
  | pre u e ih =>
    obtain ⟨a, ha, hu⟩ := valueC_pre hv
    have he1 : e.Fits levels 1 := Tree.Fits.mono ht (by decide)
    obtain ⟨he, hscale⟩ := ih (he1.mono (by decide)) hh ha
    constructor
    · rw [Tree.regroup_pre]
      simp [value, he, P.apply_ofInt (inRange_of_valueC ha) hu]
    · intro _ hp
      obtain ⟨hpe, hpu⟩ := List.forall_mem_append.mp hp
      have hu : u = P.neg := by simpa using hpu
      obtain ⟨c, y, hy, hc⟩ := hscale he1 hpe
      rw [hR.opens_pre, hu]
      exact ⟨-1 * c, y, hy, hc.append .sign⟩
  | bin o l r ihl ihr =>
    obtain ⟨a, b, ha, hb, ho⟩ := valueC_bin hv
    obtain ⟨-, hl, hr⟩ := ht
    have htrail := hh.trailing_left
    obtain ⟨hhl, hhr, hleft⟩ := hh
    obtain ⟨hvl, hsl⟩ := ihl (hl.mono (Nat.zero_le _)) hhl ha
    obtain ⟨hvr, hsr⟩ := ihr (hr.mono (Nat.zero_le _)) hhr hb
    rw [Tree.regroup_bin]
    rcases level_eq_zero_or_one o with ho0 | ho1
    · rw [hhl.opens_additive hR ho0 htrail]
      have happly := Binary.apply_ofInt hw hdiv (inRange_of_valueC ha) (inRange_of_valueC hb) ho
      refine ⟨by simp [value, hvl, hvr, happly], fun h1 => ?_⟩
      have := h1.1
      omega
    · have hmul := Declared.multiply_or_divide (Nat.le_of_eq ho1.symm)
      have hl1 : l.Fits levels 1 := hl.mono (Nat.le_of_eq ho1.symm)
      have hr1 : r.Fits levels 1 := hr.mono (by omega)
      obtain ⟨c, y, z, hy, hc, hz, hcz⟩ := scale_bin hw hdiv hR hmul hl1 ⟨hhl, hhr, hleft⟩ ha hb ho
        hvl hvr (hsl hl1)
      rw [hR.opens_eq_multiply hmul]
      refine ⟨by rw [hc _ _ hz, hcz], fun _ hp => ?_⟩
      rw [hR.opens_bin hmul]
      by_cases hpr : pending r = []
      · rw [opens_of_pending_nil hR hr1 hpr, if_pos rfl]
        exact ⟨c, z, hz, hc⟩
      · rw [if_neg ((hR.opens_eq_nil_iff hr1).not.mpr hpr)]
        simp only [pending, if_neg hpr, List.append_assoc, List.forall_mem_append,
          List.forall_mem_singleton] at hp
        obtain ⟨hpr', hpo, -⟩ := hp
        have hom : o = .multiply := by simpa using hpo
        obtain ⟨cr, yr, hyr, hcr⟩ := hsr hr1 hpr'
        have hall := (hcr.append (Scales.factor hy)).append hc
        rw [List.append_assoc] at hall
        rw [hom]
        exact ⟨_, yr, hyr, hall⟩

end

/-- Every text of the grammar is read by the parser and has one meaning in C; where the
regrouping does no harm the parser's value is the C value. -/
theorem parse_value_of_harmless {σ : Type} {S : Spelling σ Binary υ} (hw : 0 < w)
    (hdiv : ∀ {x y q}, sdivChecked x y = some q → div x y = some q) (hR : Declared P.neg R)
    {ts : List (Token σ α)} (hd : Derives S ts) :
    ∃ p c, parse S R ts = some p ∧ Reads S levels ts c ∧
      (∀ c', Reads S levels ts c' → c' = c) ∧
      ∀ ρ v, Harmless P ρ c → valueC P ρ c = some v →
        value P div ρ p = some (BitVec.ofInt w v) := by
  obtain ⟨c, hc⟩ := hd.reads levels
  refine ⟨c.regroup R, c, hc.parse_eq hR.respects, hc, fun _ h => h.unique hc, ?_⟩
  intro ρ v hh hv
  exact (Harmless.value_and_scale hw hdiv hR hc.1 hh hv).1

end

end

end CourseCompilers.Expressions
