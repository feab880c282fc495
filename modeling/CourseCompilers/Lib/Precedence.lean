import Mathlib.Data.List.Basic

/-! Expressions of binary and prefix operators, and the shift/reduce parser that
precedence declarations make of their ambiguous grammar. The parser keeps the rules
it has begun on a stack; with an operand complete and a binary operator next it
completes some of them, as the declarations say, and begins the operator's own. -/

namespace CourseCompilers.Lib.Precedence

inductive Tree (β υ α : Type) where
  | atom (a : α)
  | paren (e : Tree β υ α)
  | pre (u : υ) (e : Tree β υ α)
  | bin (o : β) (l r : Tree β υ α)
  deriving DecidableEq, Repr

inductive Token (σ α : Type) where
  | atom (a : α)
  | op (s : σ)
  | lparen
  | rparen
  deriving DecidableEq, Repr

/-- The symbols of the operators. A symbol may be that of a binary and of a prefix one. -/
structure Spelling (σ β υ : Type) where
  bin : β → σ
  pre : υ → σ
  asBin : σ → Option β
  asPre : σ → Option υ
  asBin_eq_some : ∀ {s o}, asBin s = some o ↔ s = bin o
  asPre_eq_some : ∀ {s u}, asPre s = some u ↔ s = pre u

variable {σ β υ α : Type}

def Tree.tokens (S : Spelling σ β υ) : Tree β υ α → List (Token σ α)
  | .atom a => [.atom a]
  | .paren e => .lparen :: (e.tokens S ++ [.rparen])
  | .pre u e => .op (S.pre u) :: e.tokens S
  | .bin o l r => l.tokens S ++ .op (S.bin o) :: r.tokens S

/-- The trees are the derivations of the grammar, which is ambiguous. -/
def Derives (S : Spelling σ β υ) (ts : List (Token σ α)) : Prop :=
  ∃ t : Tree β υ α, t.tokens S = ts

/-! ## Declarations -/

inductive Assoc where
  | left
  | right
  deriving DecidableEq, Repr

/-- The `%left` and `%right` lines in their order, the first binding least. -/
abbrev Declarations (σ : Type) := List (Assoc × List σ)

/-- The line that declares a symbol: its number and its associativity. -/
def Declarations.find [DecidableEq σ] (D : Declarations σ) (s : σ) : Option (Nat × Assoc) :=
  (D.zipIdx.find? fun p => s ∈ p.1.2).map fun p => (p.2, p.1.1)

/-- Whether a complete rule, its last symbol being `rule`, is reduced before `next`.
A conflict that the declarations leave open is a shift. -/
def Declarations.reduces [DecidableEq σ] (D : Declarations σ) (rule next : σ) : Bool :=
  match D.find rule, D.find next with
  | some (m, _), some (n, assoc) => n < m || (m == n && assoc == .left)
  | _, _ => false

/-- Which rules are reduced before which binary operators. -/
structure Resolution (β υ : Type) where
  bin : β → β → Bool
  pre : υ → β → Bool

def Declarations.resolution [DecidableEq σ] (D : Declarations σ) (S : Spelling σ β υ) :
    Resolution β υ :=
  ⟨fun o next => D.reduces (S.bin o) (S.bin next), fun u next => D.reduces (S.pre u) (S.bin next)⟩

/-! ## The parser -/

/-- A rule that waits for its last operand. -/
inductive Frame (β υ α : Type) where
  | paren
  | pre (u : υ)
  | bin (o : β) (l : Tree β υ α)
  deriving DecidableEq, Repr

def Frame.close : Frame β υ α → Tree β υ α → Tree β υ α
  | .paren, e => .paren e
  | .pre u, e => .pre u e
  | .bin o l, r => .bin o l r

/-- The rule of an operator: complete with its operand. -/
def Frame.isOperator : Frame β υ α → Bool
  | .paren => false
  | _ => true

def Resolution.yields (R : Resolution β υ) (next : β) : Frame β υ α → Bool
  | .paren => false
  | .pre u => R.pre u next
  | .bin o _ => R.bin o next

/-- Reduce while the innermost rule is one of those in `p`. -/
def reduceWhile (p : Frame β υ α → Bool) :
    List (Frame β υ α) → Tree β υ α → List (Frame β υ α) × Tree β υ α
  | [], e => ([], e)
  | f :: K, e => if p f then reduceWhile p K (f.close e) else (f :: K, e)

/-- The rules begun, innermost first, and the operand read last, if it is complete. -/
structure State (β υ α : Type) where
  stack : List (Frame β υ α)
  operand : Option (Tree β υ α)
  deriving DecidableEq, Repr

def State.initial : State β υ α := ⟨[], none⟩

section
variable (S : Spelling σ β υ) (R : Resolution β υ)

/-- Read one token; none is a syntax error. -/
def step : State β υ α → Token σ α → Option (State β υ α)
  | ⟨K, none⟩, .atom a => some ⟨K, some (.atom a)⟩
  | ⟨K, none⟩, .lparen => some ⟨.paren :: K, none⟩
  | ⟨K, none⟩, .op s => (S.asPre s).map fun u => ⟨.pre u :: K, none⟩
  | ⟨K, some e⟩, .op s => (S.asBin s).map fun o =>
      let (K, e) := reduceWhile (R.yields o) K e
      ⟨.bin o e :: K, none⟩
  | ⟨K, some e⟩, .rparen =>
      match reduceWhile Frame.isOperator K e with
      | (.paren :: K, e) => some ⟨K, some (.paren e)⟩
      | _ => none
  | _, _ => none

/-- The end of the expression. -/
def finish : State β υ α → Option (Tree β υ α)
  | ⟨K, some e⟩ =>
      match reduceWhile Frame.isOperator K e with
      | ([], e) => some e
      | _ => none
  | _ => none

def run (s : State β υ α) (ts : List (Token σ α)) : Option (State β υ α) :=
  ts.foldlM (step S R) s

def parse (ts : List (Token σ α)) : Option (Tree β υ α) := (run S R .initial ts).bind finish

end

variable {S : Spelling σ β υ} {R : Resolution β υ} {p : Frame β υ α → Bool}

@[simp] theorem run_nil (s : State β υ α) : run S R s [] = some s := rfl

@[simp] theorem run_cons (s : State β υ α) (t : Token σ α) (ts : List (Token σ α)) :
    run S R s (t :: ts) = (step S R s t).bind fun s => run S R s ts := rfl

theorem run_append (s : State β υ α) (ts us : List (Token σ α)) :
    run S R s (ts ++ us) = (run S R s ts).bind fun s => run S R s us :=
  List.foldlM_append ..

@[simp] theorem step_lparen (K : List (Frame β υ α)) :
    step S R ⟨K, none⟩ .lparen = some ⟨.paren :: K, none⟩ := rfl

@[simp] theorem step_pre (K : List (Frame β υ α)) (u : υ) :
    step S R ⟨K, none⟩ (.op (S.pre u)) = some ⟨.pre u :: K, none⟩ := by
  simp [step, S.asPre_eq_some.mpr rfl]

@[simp] theorem step_bin (K : List (Frame β υ α)) (e : Tree β υ α) (o : β) :
    step S R ⟨K, some e⟩ (.op (S.bin o)) =
      some ⟨.bin o (reduceWhile (R.yields o) K e).2 :: (reduceWhile (R.yields o) K e).1, none⟩ := by
  simp [step, S.asBin_eq_some.mpr rfl]

theorem step_rparen {K K' : List (Frame β υ α)} {e : Tree β υ α}
    (h : (reduceWhile Frame.isOperator K e).1 = .paren :: K') :
    step S R ⟨K, some e⟩ .rparen =
      some ⟨K', some (.paren (reduceWhile Frame.isOperator K e).2)⟩ := by
  cases hr : reduceWhile Frame.isOperator K e
  rw [hr] at h
  subst h
  simp [step, hr]

theorem finish_eq {K : List (Frame β υ α)} {e : Tree β υ α}
    (h : (reduceWhile Frame.isOperator K e).1 = []) :
    finish ⟨K, some e⟩ = some (reduceWhile Frame.isOperator K e).2 := by
  cases hr : reduceWhile Frame.isOperator K e
  rw [hr] at h
  subst h
  simp [finish, hr]

theorem reduceWhile_of_not {f : Frame β υ α} (hf : p f = false) (K : List (Frame β υ α))
    (e : Tree β υ α) : reduceWhile p (f :: K) e = (f :: K, e) := by
  simp [reduceWhile, hf]

theorem reduceWhile_of_head {K : List (Frame β υ α)} (h : ∀ f ∈ K.head?, p f = false)
    (e : Tree β υ α) : reduceWhile p K e = (K, e) := by
  cases K with
  | nil => rfl
  | cons f K => exact reduceWhile_of_not (h f rfl) K e

/-- Whatever reducing keeps of an operand and of its stack. -/
theorem reduceWhile_induction {Q : List (Frame β υ α) → Tree β υ α → Prop}
    (hQ : ∀ f K e, p f = true → Q (f :: K) e → Q K (f.close e)) {K : List (Frame β υ α)}
    {e : Tree β υ α} (h : Q K e) : Q (reduceWhile p K e).1 (reduceWhile p K e).2 := by
  induction K generalizing e with
  | nil => exact h
  | cons f K ih =>
    unfold reduceWhile
    split
    · next hf => exact ih (hQ f K e hf h)
    · exact h

/-- Reducing stops at a rule that is not in `p`. -/
theorem reduceWhile_head {K : List (Frame β υ α)} {e : Tree β υ α} :
    ∀ f ∈ (reduceWhile p K e).1.head?, p f = false := by
  induction K generalizing e with
  | nil => simp [reduceWhile]
  | cons f K ih =>
    unfold reduceWhile
    split
    · exact ih
    · next hf => simpa using hf

/-! ## The parser keeps the tokens -/

def Frame.tokens (S : Spelling σ β υ) : Frame β υ α → List (Token σ α)
  | .paren => [.lparen]
  | .pre u => [.op (S.pre u)]
  | .bin o l => l.tokens S ++ [.op (S.bin o)]

/-- What has been read to get to a stack. -/
def stackTokens (S : Spelling σ β υ) : List (Frame β υ α) → List (Token σ α)
  | [] => []
  | f :: K => stackTokens S K ++ f.tokens S

def State.tokens (S : Spelling σ β υ) (s : State β υ α) : List (Token σ α) :=
  stackTokens S s.stack ++ (s.operand.map (Tree.tokens S)).getD []

theorem Frame.tokens_close {f : Frame β υ α} (hf : f.isOperator = true) (e : Tree β υ α) :
    (f.close e).tokens S = f.tokens S ++ e.tokens S := by
  cases f with
  | paren => cases hf
  | pre u => rfl
  | bin o l => simp [Frame.close, Frame.tokens, Tree.tokens]

theorem Resolution.isOperator_of_yields {f : Frame β υ α} {o : β} (h : R.yields o f = true) :
    f.isOperator = true := by
  cases f with
  | paren => cases h
  | pre u | bin o l => rfl

theorem reduceWhile_tokens (hp : ∀ f, p f = true → f.isOperator = true) (K : List (Frame β υ α))
    (e : Tree β υ α) :
    stackTokens S (reduceWhile p K e).1 ++ (reduceWhile p K e).2.tokens S =
      stackTokens S K ++ e.tokens S := by
  refine reduceWhile_induction
    (Q := fun K' e' => stackTokens S K' ++ e'.tokens S = stackTokens S K ++ e.tokens S) ?_ rfl
  intro f K' e' hf h
  rw [Frame.tokens_close (hp f hf), ← h]
  simp [stackTokens]

theorem step_tokens {s s' : State β υ α} {t : Token σ α} (h : step S R s t = some s') :
    s'.tokens S = s.tokens S ++ [t] := by
  unfold step at h
  split at h
  · cases h
    simp [State.tokens, Tree.tokens]
  · cases h
    simp [State.tokens, stackTokens, Frame.tokens]
  · next K c =>
    obtain ⟨u, hu, rfl⟩ := Option.map_eq_some_iff.mp h
    simp [State.tokens, stackTokens, Frame.tokens, S.asPre_eq_some.mp hu]
  · next K e c =>
    obtain ⟨o, ho, rfl⟩ := Option.map_eq_some_iff.mp h
    have hk := reduceWhile_tokens (S := S) (p := R.yields o)
      (fun _ => Resolution.isOperator_of_yields) K e
    simp [State.tokens, stackTokens, Frame.tokens, S.asBin_eq_some.mp ho, ← hk]
  · next K e =>
    have hk := reduceWhile_tokens (S := S) (p := Frame.isOperator) (fun _ h => h) K e
    split at h
    · next K' e' hr =>
      cases h
      rw [hr] at hk
      simp [State.tokens, stackTokens, Frame.tokens, Tree.tokens] at hk ⊢
      rw [← List.append_assoc, ← hk]
      simp
    · cases h
  · cases h

theorem run_tokens_eq {s s' : State β υ α} {ts : List (Token σ α)} (h : run S R s ts = some s') :
    s'.tokens S = s.tokens S ++ ts := by
  induction ts generalizing s with
  | nil =>
    cases h
    simp
  | cons t ts ih =>
    obtain ⟨s₁, hs, hr⟩ := Option.bind_eq_some_iff.mp h
    rw [ih hr, step_tokens hs, List.append_assoc, List.singleton_append]

theorem finish_tokens {s : State β υ α} {e : Tree β υ α} (h : finish s = some e) :
    e.tokens S = s.tokens S := by
  unfold finish at h
  split at h
  · next K x =>
    have hk := reduceWhile_tokens (S := S) (p := Frame.isOperator) (fun _ h => h) K x
    split at h
    · next e' hr =>
      cases h
      rw [hr] at hk
      simpa [State.tokens, stackTokens] using hk
    · cases h
  · cases h

/-- The tree that the parser builds derives the text it was built from. -/
theorem parse_tokens {ts : List (Token σ α)} {e : Tree β υ α} (h : parse S R ts = some e) :
    e.tokens S = ts := by
  obtain ⟨s, hs, hf⟩ := Option.bind_eq_some_iff.mp h
  rw [finish_tokens hf, run_tokens_eq hs]
  rfl

/-! ## The parser accepts every derivable text -/

/-- The innermost open parenthesis and what is below it. -/
def base (K : List (Frame β υ α)) : List (Frame β υ α) := K.dropWhile Frame.isOperator

theorem base_cons {f : Frame β υ α} (hf : f.isOperator = true) (K : List (Frame β υ α)) :
    base (f :: K) = base K := by simp [base, hf]

theorem base_reduceWhile (hp : ∀ f, p f = true → f.isOperator = true) (K : List (Frame β υ α))
    (e : Tree β υ α) : base (reduceWhile p K e).1 = base K := by
  refine reduceWhile_induction (Q := fun K' _ => base K' = base K) ?_ rfl
  intro f K' e' hf h
  rw [← h, base_cons (hp f hf)]

theorem reduceWhile_isOperator (K : List (Frame β υ α)) (e : Tree β υ α) :
    (reduceWhile Frame.isOperator K e).1 = base K := by
  induction K generalizing e with
  | nil => rfl
  | cons f K ih =>
    unfold reduceWhile
    split
    · next hf => rw [ih, base_cons hf]
    · next hf => simp [base, hf]

/-- An expression is read as one operand; outside its own parentheses at most operator
rules are completed. -/
theorem Tree.accepted (t : Tree β υ α) (K : List (Frame β υ α)) :
    ∃ K' e, run S R ⟨K, none⟩ (t.tokens S) = some ⟨K', some e⟩ ∧ base K' = base K := by
  induction t generalizing K with
  | atom a => exact ⟨K, .atom a, rfl, rfl⟩
  | paren t ih =>
    obtain ⟨K', e, hr, hb⟩ := ih (.paren :: K)
    rw [show base (.paren :: K) = .paren :: K from rfl, ← reduceWhile_isOperator K' e] at hb
    exact ⟨K, .paren (reduceWhile Frame.isOperator K' e).2,
      by simp [Tree.tokens, run_append, hr, step_rparen hb], rfl⟩
  | pre u t ih =>
    obtain ⟨K', e, hr, hb⟩ := ih (.pre u :: K)
    exact ⟨K', e, by simp [Tree.tokens, hr], hb⟩
  | bin o l r ihl ihr =>
    obtain ⟨Kl, x, hl, hbl⟩ := ihl K
    obtain ⟨Kr, y, hr, hbr⟩ :=
      ihr (.bin o (reduceWhile (R.yields o) Kl x).2 :: (reduceWhile (R.yields o) Kl x).1)
    refine ⟨Kr, y, by simp [Tree.tokens, run_append, hl, hr], ?_⟩
    rw [hbr, base_cons rfl, base_reduceWhile (fun _ => Resolution.isOperator_of_yields), hbl]

theorem Derives.parses {ts : List (Token σ α)} (h : Derives S ts) (R : Resolution β υ) :
    ∃ e, parse S R ts = some e := by
  obtain ⟨t, rfl⟩ := h
  obtain ⟨K, e, hr, hb⟩ := t.accepted (S := S) (R := R) []
  rw [show base ([] : List (Frame β υ α)) = [] from rfl, ← reduceWhile_isOperator K e] at hb
  exact ⟨_, by rw [parse, State.initial, hr, Option.bind_some, finish_eq hb]⟩

/-! ## Stratified trees -/

/-- How tightly binary operators bind; prefix operators bind tighter than all of them. -/
structure Levels (β : Type) where
  level : β → Nat
  top : Nat
  level_lt_top : ∀ o, level o < top

/-- The tree is one of the unambiguous grammar with a nonterminal for each level, all
binary operators left associative. -/
def Tree.Fits (L : Levels β) : Tree β υ α → Nat → Prop
  | .atom _, _ => True
  | .paren e, _ => e.Fits L 0
  | .pre _ e, _ => e.Fits L L.top
  | .bin o l r, n => n ≤ L.level o ∧ l.Fits L (L.level o) ∧ r.Fits L (L.level o + 1)

instance Tree.decFits (L : Levels β) : (t : Tree β υ α) → (n : Nat) → Decidable (t.Fits L n)
  | .atom _, _ => inferInstanceAs (Decidable True)
  | .paren e, _ => decFits L e 0
  | .pre _ e, _ => decFits L e L.top
  | .bin o l r, n =>
      have := decFits L l (L.level o)
      have := decFits L r (L.level o + 1)
      inferInstanceAs (Decidable (n ≤ L.level o ∧ l.Fits L (L.level o) ∧ r.Fits L (L.level o + 1)))

/-- `t` is what `ts` means when operators bind as `L` says. -/
def Reads (S : Spelling σ β υ) (L : Levels β) (ts : List (Token σ α)) (t : Tree β υ α) : Prop :=
  t.Fits L 0 ∧ t.tokens S = ts

/-- The declarations that bind as `L` says. -/
def Levels.resolution (L : Levels β) : Resolution β υ :=
  ⟨fun o next => L.level next ≤ L.level o, fun _ _ => true⟩

/-- The declarations do not reduce before an operator that binds tighter. -/
def Resolution.Respects (R : Resolution β υ) (L : Levels β) : Prop :=
  ∀ o next, L.level o < L.level next → R.bin o next = false

theorem Levels.resolution_respects (L : Levels β) :
    (L.resolution : Resolution β υ).Respects L := by
  intro o next h
  simp [Levels.resolution]
  omega

variable {L : Levels β}

theorem Tree.Fits.mono {t : Tree β υ α} {n m : Nat} (h : t.Fits L n) (hm : m ≤ n) :
    t.Fits L m := by
  cases t with
  | atom a => trivial
  | paren e | pre u e => exact h
  | bin o l r => exact ⟨Nat.le_trans hm h.1, h.2⟩

/-! ## How the parser groups a stratified text -/

/-- Complete the rules of a stack with an operand. -/
def close (K : List (Frame β υ α)) (e : Tree β υ α) : Tree β υ α :=
  K.foldl (fun e f => f.close e) e

@[simp] theorem close_nil (e : Tree β υ α) : close [] e = e := rfl

@[simp] theorem close_cons (f : Frame β υ α) (K : List (Frame β υ α)) (e : Tree β υ α) :
    close (f :: K) e = close K (f.close e) := rfl

theorem close_append (K K' : List (Frame β υ α)) (e : Tree β υ α) :
    close (K ++ K') e = close K' (close K e) := List.foldl_append ..

/-- The rules begun and the operand when the last token of a tree has been read. -/
def Tree.spine (R : Resolution β υ) : Tree β υ α → List (Frame β υ α) × Tree β υ α
  | .atom a => ([], .atom a)
  | .paren e => ([], .paren (close (e.spine R).1 (e.spine R).2))
  | .pre u e => ((e.spine R).1 ++ [.pre u], (e.spine R).2)
  | .bin o l r =>
      let left := reduceWhile (R.yields o) (l.spine R).1 (l.spine R).2
      ((r.spine R).1 ++ .bin o left.2 :: left.1, (r.spine R).2)

/-- The tree the parser builds from the tokens of a stratified tree. -/
def Tree.regroup (R : Resolution β υ) (t : Tree β υ α) : Tree β υ α :=
  close (t.spine R).1 (t.spine R).2

/-- The rules left open, and the operand, when `next` comes after a tree. -/
def Tree.opens (R : Resolution β υ) (next : β) (t : Tree β υ α) :
    List (Frame β υ α) × Tree β υ α :=
  reduceWhile (R.yields next) (t.spine R).1 (t.spine R).2

theorem Tree.spine_bin (R : Resolution β υ) (o : β) (l r : Tree β υ α) :
    (Tree.bin o l r).spine R =
      ((r.spine R).1 ++ .bin o (l.opens R o).2 :: (l.opens R o).1, (r.spine R).2) := rfl

theorem close_reduceWhile (K : List (Frame β υ α)) (e : Tree β υ α) :
    close (reduceWhile p K e).1 (reduceWhile p K e).2 = close K e :=
  reduceWhile_induction (Q := fun K' e' => close K' e' = close K e) (fun _ _ _ _ h => h) rfl

theorem Tree.close_opens (R : Resolution β υ) (next : β) (t : Tree β υ α) :
    close (t.opens R next).1 (t.opens R next).2 = t.regroup R := close_reduceWhile ..

theorem Tree.regroup_bin (R : Resolution β υ) (o : β) (l r : Tree β υ α) :
    (Tree.bin o l r).regroup R =
      close (l.opens R o).1 (.bin o (l.opens R o).2 (r.regroup R)) := by
  simp [regroup, spine_bin, close_append, Frame.close]

theorem Tree.regroup_pre (R : Resolution β υ) (u : υ) (e : Tree β υ α) :
    (Tree.pre u e).regroup R = .pre u (e.regroup R) := by
  simp [regroup, spine, close_append, Frame.close]

/-- Reducing the upper part of a stack: all of it, or it ends there. -/
theorem reduceWhile_append (K K' : List (Frame β υ α)) (e : Tree β υ α) :
    reduceWhile p (K ++ K') e =
      if (reduceWhile p K e).1 = [] then reduceWhile p K' (reduceWhile p K e).2
      else ((reduceWhile p K e).1 ++ K', (reduceWhile p K e).2) := by
  induction K generalizing e with
  | nil => simp [reduceWhile]
  | cons f K ih =>
    simp only [List.cons_append, reduceWhile]
    split
    · exact ih _
    · simp

theorem Tree.opens_pre (R : Resolution β υ) (next : β) (u : υ) (e : Tree β υ α) :
    (Tree.pre u e).opens R next =
      if (e.opens R next).1 = [] then reduceWhile (R.yields next) [.pre u] (e.opens R next).2
      else ((e.opens R next).1 ++ [.pre u], (e.opens R next).2) := reduceWhile_append ..

theorem Tree.opens_bin (R : Resolution β υ) (next o : β) (l r : Tree β υ α) :
    (Tree.bin o l r).opens R next =
      if (r.opens R next).1 = [] then
        reduceWhile (R.yields next) (.bin o (l.opens R o).2 :: (l.opens R o).1) (r.opens R next).2
      else ((r.opens R next).1 ++ .bin o (l.opens R o).2 :: (l.opens R o).1,
        (r.opens R next).2) := reduceWhile_append ..

theorem reduceWhile_of_all {K : List (Frame β υ α)} (h : ∀ f ∈ K, p f = true)
    (K' : List (Frame β υ α)) (e : Tree β υ α) :
    reduceWhile p (K ++ K') e = reduceWhile p K' (close K e) := by
  induction K generalizing e with
  | nil => rfl
  | cons f K ih =>
    obtain ⟨hf, hK⟩ := List.forall_mem_cons.mp h
    simp only [List.cons_append, reduceWhile, if_pos hf, close_cons]
    exact ih hK _

theorem reduceWhile_eq_close {K : List (Frame β υ α)} (h : ∀ f ∈ K, p f = true)
    (e : Tree β υ α) : reduceWhile p K e = ([], close K e) := by
  have := reduceWhile_of_all h [] e
  rwa [List.append_nil] at this

theorem mem_of_mem_reduceWhile {K : List (Frame β υ α)} {e : Tree β υ α} {f : Frame β υ α}
    (h : f ∈ (reduceWhile p K e).1) : f ∈ K :=
  reduceWhile_induction (Q := fun K' _ => ∀ f ∈ K', f ∈ K)
    (fun _ _ _ _ h f hf => h f (.tail _ hf)) (fun _ h => h) f h

/-- No operator of level `n` or more completes a rule of the stack. -/
def Blocks (R : Resolution β υ) (L : Levels β) (K : List (Frame β υ α)) (n : Nat) : Prop :=
  ∀ f ∈ K.head?, ∀ next, n ≤ L.level next → R.yields next f = false

theorem Blocks.reduceWhile {K : List (Frame β υ α)} {n : Nat} (h : Blocks R L K n) {next : β}
    (hn : n ≤ L.level next) (e : Tree β υ α) :
    reduceWhile (R.yields next) K e = (K, e) :=
  reduceWhile_of_head (fun f hf => h f hf next hn) e

/-- Every rule of a spine is one of an operator. -/
theorem Tree.isOperator_of_mem_spine {t : Tree β υ α} {f : Frame β υ α}
    (h : f ∈ (t.spine R).1) : f.isOperator = true := by
  induction t with
  | atom a | paren t ih => cases h
  | pre u t ih =>
    rcases List.mem_append.mp h with h | h
    · exact ih h
    · cases List.mem_singleton.mp h
      rfl
  | bin o l r ihl ihr =>
    rcases List.mem_append.mp h with h | h
    · exact ihr h
    · rcases List.mem_cons.mp h with rfl | h
      · rfl
      · exact ihl (mem_of_mem_reduceWhile h)

/-- Reading a stratified tree on a stack that it does not reach into. -/
theorem Tree.run_spine (hR : R.Respects L) {t : Tree β υ α} {n : Nat} (ht : t.Fits L n)
    {K : List (Frame β υ α)} (hK : Blocks R L K n) :
    run S R ⟨K, none⟩ (t.tokens S) = some ⟨(t.spine R).1 ++ K, some (t.spine R).2⟩ := by
  induction t generalizing n K with
  | atom a => rfl
  | paren t ih =>
    have hparen : Blocks R L (.paren :: K) 0 := by
      intro f hf next _
      cases hf
      rfl
    have hall : ∀ f ∈ (t.spine R).1, f.isOperator = true := fun f => Tree.isOperator_of_mem_spine
    have hr := reduceWhile_of_all hall (.paren :: K) (t.spine R).2
    rw [reduceWhile_of_not rfl] at hr
    simp [tokens, spine, run_append, ih ht hparen, step_rparen (congrArg Prod.fst hr), hr]
  | pre u t ih =>
    have hpre : Blocks R L (.pre u :: K) L.top := by
      intro f _ next hn
      exact absurd (L.level_lt_top next) (by omega)
    simp [tokens, spine, ih ht hpre]
  | bin o l r ihl ihr =>
    obtain ⟨hn, hl, hr⟩ := ht
    have hKo : Blocks R L K (L.level o) := fun f hf next h => hK f hf next (Nat.le_trans hn h)
    have hleft : reduceWhile (R.yields o) ((l.spine R).1 ++ K) (l.spine R).2 =
        ((l.opens R o).1 ++ K, (l.opens R o).2) := by
      rw [reduceWhile_append]
      split
      · next he =>
        rw [hKo.reduceWhile (Nat.le_refl _)]
        simp [opens, he]
      · rfl
    have hbin : Blocks R L (.bin o (l.opens R o).2 :: ((l.opens R o).1 ++ K)) (L.level o + 1) := by
      intro f hf next h
      cases hf
      exact hR o next (by omega)
    simp [tokens, spine_bin, run_append, ihl hl hKo, hleft, ihr hr hbin]

/-- What the parser builds from a stratified text. -/
theorem Reads.parse_eq (hR : R.Respects L) {ts : List (Token σ α)} {t : Tree β υ α}
    (h : Reads S L ts t) : parse S R ts = some (t.regroup R) := by
  obtain ⟨ht, rfl⟩ := h
  have hnil : Blocks R L ([] : List (Frame β υ α)) 0 := by
    intro f hf
    cases hf
  have hall : ∀ f ∈ (t.spine R).1, f.isOperator = true := fun f => Tree.isOperator_of_mem_spine
  have hf := reduceWhile_eq_close hall (t.spine R).2
  rw [parse, State.initial, t.run_spine hR ht hnil, Option.bind_some, List.append_nil,
    finish_eq (congrArg Prod.fst hf), hf]
  rfl

/-! ## Declarations that bind as the levels say -/

theorem Levels.yields_bin {o next : β} {l : Tree β υ α} :
    (L.resolution : Resolution β υ).yields next (.bin o l) = true ↔ L.level next ≤ L.level o := by
  simp [Resolution.yields, Levels.resolution]

/-- Under its own levels' declarations a stratified tree is not regrouped. -/
theorem Tree.reduceWhile_spine {t : Tree β υ α} {n : Nat} (ht : t.Fits L n)
    (hpre : ∀ u, p (.pre u) = true) (hbin : ∀ o l, n ≤ L.level o → p (.bin o l) = true)
    (K : List (Frame β υ α)) :
    reduceWhile p ((t.spine L.resolution).1 ++ K) (t.spine L.resolution).2 =
      reduceWhile p K t := by
  induction t generalizing n p K with
  | atom a => rfl
  | paren t ih =>
    have h : t.regroup L.resolution = t := by
      have := ih ht (p := fun _ => true) (fun _ => rfl) (fun _ _ _ => rfl) []
      rw [reduceWhile_of_all fun _ _ => rfl] at this
      exact congrArg Prod.snd this
    rw [regroup] at h
    simp [spine, h]
  | pre u t ih =>
    have htop : ∀ o l, L.top ≤ L.level o → p (.bin o l) = true :=
      fun o _ h => absurd (L.level_lt_top o) (by omega)
    simp only [spine, List.append_assoc]
    rw [ih ht hpre htop]
    simp [reduceWhile, hpre, Frame.close]
  | bin o l r ihl ihr =>
    obtain ⟨hn, hl, hr⟩ := ht
    have hleft : reduceWhile ((L.resolution : Resolution β υ).yields o)
        (l.spine L.resolution).1 (l.spine L.resolution).2 = ([], l) := by
      have := ihl hl (p := (L.resolution : Resolution β υ).yields o) (fun _ => rfl)
        (fun _ _ => Levels.yields_bin.mpr) []
      rwa [List.append_nil] at this
    have hge : ∀ o' l', L.level o + 1 ≤ L.level o' → p (.bin o' l') = true :=
      fun o' l' h => hbin o' l' (by omega)
    simp only [spine, hleft, List.append_assoc, List.singleton_append]
    rw [ihr hr hpre hge]
    simp [reduceWhile, hbin o l hn, Frame.close]

theorem Tree.Fits.regroup_eq {t : Tree β υ α} {n : Nat} (ht : t.Fits L n) :
    t.regroup L.resolution = t := by
  have h := Tree.reduceWhile_spine ht (p := fun _ => true) (fun _ => rfl) (fun _ _ _ => rfl) []
  rw [reduceWhile_of_all fun _ _ => rfl] at h
  exact congrArg Prod.snd h

theorem Reads.parse_resolution {ts : List (Token σ α)} {t : Tree β υ α} (h : Reads S L ts t) :
    parse S L.resolution ts = some t := by
  rw [h.parse_eq L.resolution_respects, h.1.regroup_eq]

/-- A text has one reading. -/
theorem Reads.unique {ts : List (Token σ α)} {t t' : Tree β υ α} (h : Reads S L ts t)
    (h' : Reads S L ts t') : t = t' := by
  have hp := h.parse_resolution
  rw [h'.parse_resolution] at hp
  exact (Option.some.inj hp).symm

/-- The level of the operand that a stack waits for. -/
def bound (L : Levels β) : List (Frame β υ α) → Nat
  | [] | .paren :: _ => 0
  | .pre _ :: _ => L.top
  | .bin o _ :: _ => L.level o + 1

/-- The rules of a stack may stand inside one another. -/
def Ordered (L : Levels β) : List (Frame β υ α) → Prop
  | [] => True
  | .paren :: K | .pre _ :: K => Ordered L K
  | .bin o l :: K => bound L K ≤ L.level o ∧ l.Fits L (L.level o) ∧ Ordered L K

/-- An operator of level `n` completes rules that bind at least as tightly. -/
theorem Ordered.reduceWhile {n : Nat} (hparen : p .paren = false)
    (hbin : ∀ o l, p (.bin o l) = true → n ≤ L.level o) {K : List (Frame β υ α)}
    {e : Tree β υ α} (hK : Ordered L K) (he : ∀ m, e.Fits L m) :
    Ordered L (reduceWhile p K e).1 ∧ (reduceWhile p K e).2.Fits L n := by
  have h := reduceWhile_induction (p := p) (K := K) (e := e)
    (Q := fun K e => Ordered L K ∧ e.Fits L (bound L K) ∧ e.Fits L n) ?_ ⟨hK, he _, he _⟩
  · exact ⟨h.1, h.2.2⟩
  · rintro (_ | u | ⟨o, l⟩) K e hf ⟨hK, hb, -⟩
    · rw [hparen] at hf
      cases hf
    · exact ⟨hK, hb, hb⟩
    · obtain ⟨hle, hl, hK⟩ := hK
      exact ⟨hK, ⟨hle, hl, hb⟩, hbin o l hf, hl, hb⟩

/-- Where an operator stops reducing, its own rule may stand. -/
theorem bound_reduceWhile (next : β) (K : List (Frame β υ α)) (e : Tree β υ α) :
    bound L (reduceWhile ((L.resolution : Resolution β υ).yields next) K e).1 ≤ L.level next := by
  have hhead :=
    reduceWhile_head (p := (L.resolution : Resolution β υ).yields next) (K := K) (e := e)
  cases hK : (reduceWhile ((L.resolution : Resolution β υ).yields next) K e).1 with
  | nil => exact Nat.zero_le _
  | cons f K' =>
    have hf := hhead f (by simp [hK])
    cases f with
    | paren => exact Nat.zero_le _
    | pre u => cases hf
    | bin o l =>
      have hlt : ¬ L.level next ≤ L.level o := by
        rw [← Levels.yields_bin (l := l), hf]
        decide
      simp only [bound]
      omega

/-- What holds between two tokens. -/
def State.Inv (L : Levels β) (s : State β υ α) : Prop :=
  Ordered L s.stack ∧ ∀ e ∈ s.operand, ∀ n, e.Fits L n

theorem State.Inv.step {s s' : State β υ α} {t : Token σ α} (h : s.Inv L)
    (hs : step S L.resolution s t = some s') : s'.Inv L := by
  obtain ⟨hK, he⟩ := h
  unfold Precedence.step at hs
  split at hs
  · cases hs
    refine ⟨hK, ?_⟩
    rintro _ ⟨⟩ n
    trivial
  · cases hs
    exact ⟨hK, by simp⟩
  · obtain ⟨u, -, rfl⟩ := Option.map_eq_some_iff.mp hs
    exact ⟨hK, by simp⟩
  · next K e c =>
    obtain ⟨o, -, rfl⟩ := Option.map_eq_some_iff.mp hs
    obtain ⟨hK', hfit⟩ := Ordered.reduceWhile rfl (fun _ _ => Levels.yields_bin.mp) hK (he e rfl)
    exact ⟨⟨bound_reduceWhile o K e, hfit, hK'⟩, by simp⟩
  · next K e =>
    obtain ⟨hK', hfit⟩ := Ordered.reduceWhile (p := Frame.isOperator) (n := 0) rfl
      (fun _ _ _ => Nat.zero_le _) hK (he e rfl)
    split at hs
    · next K' e' hr =>
      cases hs
      rw [hr] at hK' hfit
      refine ⟨hK', ?_⟩
      rintro _ ⟨⟩ n
      exact hfit
    · cases hs
  · cases hs

theorem State.Inv.run {s s' : State β υ α} {ts : List (Token σ α)} (h : s.Inv L)
    (hr : run S L.resolution s ts = some s') : s'.Inv L := by
  induction ts generalizing s with
  | nil =>
    cases hr
    exact h
  | cons t ts ih =>
    obtain ⟨s₁, hs, hr⟩ := Option.bind_eq_some_iff.mp hr
    exact ih (h.step hs) hr

theorem parse_resolution_fits {ts : List (Token σ α)} {e : Tree β υ α}
    (h : parse S L.resolution ts = some e) : e.Fits L 0 := by
  obtain ⟨s, hs, hf⟩ := Option.bind_eq_some_iff.mp h
  have hinv : (State.initial : State β υ α).Inv L := ⟨trivial, by simp [State.initial]⟩
  obtain ⟨hK, he⟩ := hinv.run hs
  unfold finish at hf
  split at hf
  · next K x =>
    have hfit := Ordered.reduceWhile (p := Frame.isOperator) (n := 0) rfl
      (fun _ _ _ => Nat.zero_le _) hK (he x rfl)
    split at hf
    · next e' hr =>
      cases hf
      rw [hr] at hfit
      exact hfit.2
    · cases hf
  · cases hf

/-- Declarations that bind as the levels say give a text its reading. -/
theorem parse_resolution_iff {ts : List (Token σ α)} {t : Tree β υ α} :
    parse S L.resolution ts = some t ↔ Reads S L ts t :=
  ⟨fun h => ⟨parse_resolution_fits h, parse_tokens h⟩, Reads.parse_resolution⟩

/-- Every text of the ambiguous grammar has a reading. -/
theorem Derives.reads {ts : List (Token σ α)} (h : Derives S ts) (L : Levels β) :
    ∃ t, Reads S L ts t := by
  obtain ⟨t, ht⟩ := h.parses L.resolution
  exact ⟨t, parse_resolution_iff.mp ht⟩

end CourseCompilers.Lib.Precedence
