import CourseCompilers.Lib.Precedence

/-! Actions that the shift/reduce parser runs as it completes its rules. It then keeps the
values of the operands and no trees. What it has done at any point are the actions of the
trees that it would have built, rule by rule in the order of the text. -/

namespace CourseCompilers.Lib.Precedence

variable {σ β υ α ν γ : Type}

/-- What the rules do with the values of their operands and with a global state. The rule
of an operand can fail; a parenthesis passes its value on. -/
structure Actions (β υ α ν γ : Type) where
  atom : α → γ → Option (ν × γ)
  pre : υ → ν → γ → ν × γ
  bin : β → ν → ν → γ → ν × γ

/-- A rule that waits for its last operand. -/
inductive Pending (β υ ν : Type) where
  | paren
  | pre (u : υ)
  | bin (o : β) (x : ν)

/-- The rules begun, innermost first, and the value of the operand read last, if it is
complete. -/
structure Running (β υ ν : Type) where
  stack : List (Pending β υ ν)
  operand : Option ν

def Running.initial : Running β υ ν := ⟨[], none⟩

/-- How a parser fails: it reports an error, or one of its actions goes wrong. -/
inductive Failure where
  | syntaxError
  | crash
  deriving DecidableEq, Repr

def Pending.isOperator : Pending β υ ν → Bool
  | .paren => false
  | _ => true

def Resolution.completes (R : Resolution β υ) (next : β) : Pending β υ ν → Bool
  | .paren => false
  | .pre u => R.pre u next
  | .bin o _ => R.bin o next

section
variable (A : Actions β υ α ν γ)

/-- The action of a rule whose last operand is complete. -/
def Pending.close : Pending β υ ν → ν × γ → ν × γ
  | .paren, x => x
  | .pre u, x => A.pre u x.1 x.2
  | .bin o l, x => A.bin o l x.1 x.2

/-- Complete the innermost rules that are in `p`. -/
def completeWhile (p : Pending β υ ν → Bool) :
    List (Pending β υ ν) → ν × γ → List (Pending β υ ν) × ν × γ
  | [], x => ([], x)
  | f :: K, x => if p f then completeWhile p K (f.close A x) else (f :: K, x)

section
variable (S : Spelling σ β υ) (R : Resolution β υ)

/-- Read one token. -/
def stepActing : Running β υ ν → γ → Token σ α → Except Failure (Running β υ ν × γ)
  | ⟨K, none⟩, g, .atom a =>
      match A.atom a g with
      | some (x, g) => .ok (⟨K, some x⟩, g)
      | none => .error .crash
  | ⟨K, none⟩, g, .lparen => .ok (⟨.paren :: K, none⟩, g)
  | ⟨K, none⟩, g, .op s =>
      match S.asPre s with
      | some u => .ok (⟨.pre u :: K, none⟩, g)
      | none => .error .syntaxError
  | ⟨K, some x⟩, g, .op s =>
      match S.asBin s with
      | some o =>
          let (K, x, g) := completeWhile A (R.completes o) K (x, g)
          .ok (⟨.bin o x :: K, none⟩, g)
      | none => .error .syntaxError
  | ⟨K, some x⟩, g, .rparen =>
      match completeWhile A Pending.isOperator K (x, g) with
      | (.paren :: K, x, g) => .ok (⟨K, some x⟩, g)
      | _ => .error .syntaxError
  | _, _, _ => .error .syntaxError

end

/-- The end of the expression: its value. -/
def finishActing : Running β υ ν → γ → Option (ν × γ)
  | ⟨K, some x⟩, g =>
      match completeWhile A Pending.isOperator K (x, g) with
      | ([], x) => some x
      | _ => none
  | _, _ => none

/-! ## The actions of trees -/

/-- The actions of a tree, in the order in which its rules become complete. -/
def Tree.act : Tree β υ α → γ → Option (ν × γ)
  | .atom a, g => A.atom a g
  | .paren e, g => e.act g
  | .pre u e, g => (e.act g).map fun x => A.pre u x.1 x.2
  | .bin o l r, g => (l.act g).bind fun x => (r.act x.2).map fun y => A.bin o x.1 y.1 y.2

/-- What has been done for a rule that is begun. -/
def Frame.act : Frame β υ α → γ → Option (Pending β υ ν × γ)
  | .paren, g => some (.paren, g)
  | .pre u, g => some (.pre u, g)
  | .bin o l, g => (l.act A g).map fun x => (.bin o x.1, x.2)

def actStack : List (Frame β υ α) → γ → Option (List (Pending β υ ν) × γ)
  | [], g => some ([], g)
  | f :: K, g => (actStack K g).bind fun x => (f.act A x.2).map fun y => (y.1 :: x.1, y.2)

/-- What has been done to get to a state of the parser. -/
def State.act : State β υ α → γ → Option (Running β υ ν × γ)
  | ⟨K, none⟩, g => (actStack A K g).map fun x => (⟨x.1, none⟩, x.2)
  | ⟨K, some e⟩, g => (actStack A K g).bind fun x => (e.act A x.2).map fun y =>
      (⟨x.1, some y.1⟩, y.2)

end

variable {S : Spelling σ β υ} {R : Resolution β υ} {A : Actions β υ α ν γ}
  {p : Frame β υ α → Bool} {q : Pending β υ ν → Bool}

theorem Frame.act_isOperator {f : Frame β υ α} {g g' : γ} {f' : Pending β υ ν}
    (h : f.act A g = some (f', g')) : f'.isOperator = f.isOperator := by
  cases f with
  | paren | pre u =>
    cases h
    rfl
  | bin o l =>
    obtain ⟨x, -, hx⟩ := Option.map_eq_some_iff.mp h
    cases hx
    rfl

theorem Frame.act_completes {f : Frame β υ α} {g g' : γ} {f' : Pending β υ ν}
    (h : f.act A g = some (f', g')) (o : β) : R.completes o f' = R.yields o f := by
  cases f with
  | paren | pre u =>
    cases h
    rfl
  | bin o l =>
    obtain ⟨x, -, hx⟩ := Option.map_eq_some_iff.mp h
    cases hx
    rfl

/-- The action of a rule comes last among those of its tree. -/
theorem Frame.act_close {f : Frame β υ α} {g g' : γ} {f' : Pending β υ ν}
    (h : f.act A g = some (f', g')) {e : Tree β υ α} {x : ν × γ} (he : e.act A g' = some x) :
    (f.close e).act A g = some (f'.close A x) := by
  cases f with
  | paren =>
    cases h
    exact he
  | pre u =>
    cases h
    simp [Frame.close, Tree.act, he, Pending.close]
  | bin o l =>
    obtain ⟨y, hy, hx⟩ := Option.map_eq_some_iff.mp h
    cases hx
    simp [Frame.close, Tree.act, hy, he, Pending.close]

/-- Completing rules keeps what has been done. -/
theorem act_reduceWhile (hpq : ∀ f f' g g', f.act A g = some (f', g') → q f' = p f)
    {K : List (Frame β υ α)} {K' : List (Pending β υ ν)} {e : Tree β υ α} {g g' : γ} {x : ν × γ}
    (hK : actStack A K g = some (K', g')) (he : e.act A g' = some x) :
    ∃ g₁, actStack A (reduceWhile p K e).1 g = some ((completeWhile A q K' x).1, g₁) ∧
      (reduceWhile p K e).2.act A g₁ = some (completeWhile A q K' x).2 := by
  induction K generalizing K' e g' x with
  | nil =>
    cases hK
    exact ⟨g, rfl, he⟩
  | cons f K ih =>
    obtain ⟨⟨L, g₀⟩, hL, hx⟩ := Option.bind_eq_some_iff.mp hK
    obtain ⟨⟨f', g₁⟩, hf, hx⟩ := Option.map_eq_some_iff.mp hx
    cases hx
    rw [reduceWhile, completeWhile, hpq f f' g₀ g₁ hf]
    split
    · exact ih hL (f.act_close hf he)
    · exact ⟨g₁, hK, he⟩

/-- The outcome of actions that follow others. -/
def outcome {τ : Type} : Option τ → Except Failure τ
  | some x => .ok x
  | none => .error .crash

/-- A step of the acting parser does what the step of the parser adds to the trees. -/
theorem step_acts {s : State β υ α} {r : Running β υ ν} {g g' : γ}
    (h : s.act A g = some (r, g')) (t : Token σ α) :
    stepActing A S R r g' t =
      match step S R s t with
      | none => .error .syntaxError
      | some s' => outcome (s'.act A g) := by
  obtain ⟨K, operand⟩ := s
  cases operand with
  | none =>
    obtain ⟨⟨K', g₁⟩, hK, hx⟩ := Option.map_eq_some_iff.mp h
    cases hx
    cases t with
    | atom a =>
      simp only [stepActing, step, State.act, hK, Option.bind_some, Tree.act]
      cases A.atom a g₁ <;> rfl
    | op c =>
      rw [stepActing, step]
      cases S.asPre c with
      | none => rfl
      | some u => simp [State.act, actStack, hK, Frame.act, outcome]
    | lparen => simp [stepActing, step, State.act, actStack, hK, Frame.act, outcome]
    | rparen => rfl
  | some e =>
    obtain ⟨⟨K', g₁⟩, hK, hx⟩ := Option.bind_eq_some_iff.mp h
    obtain ⟨x, he, hx⟩ := Option.map_eq_some_iff.mp hx
    cases hx
    cases t with
    | atom a => rfl
    | lparen => rfl
    | op c =>
      rw [stepActing, step]
      cases S.asBin c with
      | none => rfl
      | some o =>
        obtain ⟨g₂, hstack, htop⟩ := act_reduceWhile (q := R.completes o) (p := R.yields o)
          (fun f f' g g' hf => f.act_completes hf o) hK he
        simp [State.act, actStack, hstack, Frame.act, htop, outcome]
    | rparen =>
      obtain ⟨g₂, hstack, htop⟩ := act_reduceWhile (q := Pending.isOperator)
        (p := Frame.isOperator) (fun f f' g g' hf => f.act_isOperator hf) hK he
      rw [stepActing, step]
      cases hr : reduceWhile Frame.isOperator K e with
      | mk L e' =>
        cases hc : completeWhile A Pending.isOperator K' x with
        | mk L' x' =>
          rw [hr, hc] at hstack
          rw [hr, hc] at htop
          cases L with
          | nil =>
            cases hstack
            rfl
          | cons f L =>
            obtain ⟨⟨M, g₃⟩, hM, hx⟩ := Option.bind_eq_some_iff.mp hstack
            obtain ⟨⟨f', g₄⟩, hf, hx⟩ := Option.map_eq_some_iff.mp hx
            cases hx
            cases f with
            | paren =>
              cases hf
              simp [State.act, hM, Tree.act, htop, outcome]
            | pre u =>
              cases hf
              rfl
            | bin o l =>
              obtain ⟨y, -, hy⟩ := Option.map_eq_some_iff.mp hf
              cases hy
              rfl

/-- Only the rule of an operand fails. -/
theorem stepActing_ne_crash {r : Running β υ ν} {g : γ} {t : Token σ α}
    (ht : ∀ a, t = .atom a → (A.atom a g).isSome) :
    stepActing A S R r g t ≠ .error .crash := by
  unfold stepActing
  split
  · next K a =>
    obtain ⟨x, hx⟩ := Option.isSome_iff_exists.mp (ht a rfl)
    simp [hx]
  · simp
  · split <;> simp
  · split <;> simp
  · split <;> simp
  · simp

/-- At the end of an expression its value is that of the tree. -/
theorem finish_acts {s : State β υ α} {r : Running β υ ν} {g g' : γ}
    (h : s.act A g = some (r, g')) :
    finishActing A r g' = (finish s).bind fun e => e.act A g := by
  obtain ⟨K, operand⟩ := s
  cases operand with
  | none =>
    obtain ⟨x, -, hx⟩ := Option.map_eq_some_iff.mp h
    cases hx
    rfl
  | some e =>
    obtain ⟨⟨K', g₁⟩, hK, hx⟩ := Option.bind_eq_some_iff.mp h
    obtain ⟨x, he, hx⟩ := Option.map_eq_some_iff.mp hx
    cases hx
    obtain ⟨g₂, hstack, htop⟩ := act_reduceWhile (q := Pending.isOperator)
      (p := Frame.isOperator) (fun f f' g g' hf => f.act_isOperator hf) hK he
    rw [finishActing, finish]
    cases hr : reduceWhile Frame.isOperator K e with
    | mk L e' =>
      cases hc : completeWhile A Pending.isOperator K' x with
      | mk L' x' =>
        rw [hr, hc] at hstack
        rw [hr, hc] at htop
        cases L with
        | nil =>
          cases hstack
          exact htop.symm
        | cons f L =>
          obtain ⟨y, -, hx⟩ := Option.bind_eq_some_iff.mp hstack
          obtain ⟨z, -, hx⟩ := Option.map_eq_some_iff.mp hx
          cases hx
          rfl

theorem isSome_act_finish {s : State β υ α} {e : Tree β υ α} (he : finish s = some e) {g : γ}
    (h : (s.act A g).isSome) : (e.act A g).isSome := by
  obtain ⟨⟨r, g'⟩, hr⟩ := Option.isSome_iff_exists.mp h
  obtain ⟨K, operand⟩ := s
  cases operand with
  | none => cases he
  | some x =>
    obtain ⟨⟨K', g₁⟩, hK, hx⟩ := Option.bind_eq_some_iff.mp hr
    obtain ⟨y, hy, -⟩ := Option.map_eq_some_iff.mp hx
    obtain ⟨g₂, hstack, htop⟩ := act_reduceWhile (q := Pending.isOperator)
      (p := Frame.isOperator) (fun f f' g g' hf => f.act_isOperator hf) hK hy
    rw [finish] at he
    cases hred : reduceWhile Frame.isOperator K x with
    | mk L e' =>
      rw [hred] at he
      rw [hred] at hstack
      rw [hred] at htop
      cases L with
      | cons f L => cases he
      | nil =>
        cases he
        obtain rfl : g = g₂ := congrArg Prod.snd (Option.some.inj hstack)
        exact Option.isSome_iff_exists.mpr ⟨_, htop⟩

/-- A parenthesis that closes one of the expression does not end it. -/
theorem finish_eq_none_of_rparen {s s' : State β υ α} (h : step S R s .rparen = some s') :
    finish s = none := by
  obtain ⟨K, operand⟩ := s
  cases operand with
  | none => cases h
  | some e =>
    rw [step] at h
    rw [finish]
    split at h
    · next hr => rw [hr]
    · cases h

/-! ## Actions that have failed -/

theorem isSome_actStack_cons (f : Frame β υ α) (K : List (Frame β υ α)) (g : γ) :
    (actStack A (f :: K) g).isSome = ((actStack A K g).bind fun x => f.act A x.2).isSome := by
  rw [actStack]
  cases actStack A K g <;> simp

theorem isSome_act_none (K : List (Frame β υ α)) (g : γ) :
    (State.act A ⟨K, none⟩ g).isSome = (actStack A K g).isSome := by
  rw [State.act, Option.isSome_map]

theorem isSome_act_some (K : List (Frame β υ α)) (e : Tree β υ α) (g : γ) :
    (State.act A ⟨K, some e⟩ g).isSome = ((actStack A K g).bind fun x => e.act A x.2).isSome := by
  rw [State.act]
  cases actStack A K g <;> simp

/-- A rule that is complete has been begun, and its operand read. -/
theorem isSome_act_of_close {K : List (Frame β υ α)} {f : Frame β υ α} {e : Tree β υ α} {g : γ}
    (h : (State.act A ⟨K, some (f.close e)⟩ g).isSome) :
    (State.act A ⟨f :: K, some e⟩ g).isSome := by
  rw [isSome_act_some] at h ⊢
  obtain ⟨y, hy⟩ := Option.isSome_iff_exists.mp h
  obtain ⟨⟨L, g₁⟩, hL, hclose⟩ := Option.bind_eq_some_iff.mp hy
  rw [actStack, hL]
  cases f with
  | paren => exact Option.isSome_iff_exists.mpr ⟨y, hclose⟩
  | pre u =>
    obtain ⟨x, hx, -⟩ := Option.map_eq_some_iff.mp hclose
    simp [Frame.act, hx]
  | bin o l =>
    obtain ⟨x, hx, hclose⟩ := Option.bind_eq_some_iff.mp hclose
    obtain ⟨z, hz, -⟩ := Option.map_eq_some_iff.mp hclose
    simp [Frame.act, hx, hz]

theorem isSome_act_of_reduceWhile {K : List (Frame β υ α)} {e : Tree β υ α} {g : γ}
    (h : (State.act A ⟨(reduceWhile p K e).1, some (reduceWhile p K e).2⟩ g).isSome) :
    (State.act A ⟨K, some e⟩ g).isSome := by
  induction K generalizing e with
  | nil => exact h
  | cons f K ih =>
    rw [reduceWhile] at h
    split at h
    · exact isSome_act_of_close (ih h)
    · exact h

theorem isSome_act_of_finish {s : State β υ α} {e : Tree β υ α} (h : finish s = some e) {g : γ}
    (he : (e.act A g).isSome) : (s.act A g).isSome := by
  obtain ⟨K, operand⟩ := s
  cases operand with
  | none => cases h
  | some x =>
    apply isSome_act_of_reduceWhile (p := Frame.isOperator)
    rw [finish] at h
    cases hr : reduceWhile Frame.isOperator K x with
    | mk L e' =>
      rw [hr] at h
      cases L with
      | cons f L => cases h
      | nil =>
        cases h
        rw [isSome_act_some]
        exact he

theorem isSome_act_of_step {s s' : State β υ α} {t : Token σ α} (h : step S R s t = some s')
    {g : γ} (hs : (s'.act A g).isSome) : (s.act A g).isSome := by
  unfold step at h
  split at h
  · next K a =>
    cases h
    rw [isSome_act_some] at hs
    rw [isSome_act_none]
    exact Option.isSome_of_isSome_bind hs
  · next K =>
    cases h
    rw [isSome_act_none, isSome_actStack_cons] at hs
    rw [isSome_act_none]
    exact Option.isSome_of_isSome_bind hs
  · next K c =>
    obtain ⟨u, -, rfl⟩ := Option.map_eq_some_iff.mp h
    rw [isSome_act_none, isSome_actStack_cons] at hs
    rw [isSome_act_none]
    exact Option.isSome_of_isSome_bind hs
  · next K e c =>
    obtain ⟨o, -, rfl⟩ := Option.map_eq_some_iff.mp h
    apply isSome_act_of_reduceWhile (p := R.yields o)
    rw [isSome_act_none, isSome_actStack_cons] at hs
    rw [isSome_act_some]
    obtain ⟨y, hy⟩ := Option.isSome_iff_exists.mp hs
    obtain ⟨x, hx, hy⟩ := Option.bind_eq_some_iff.mp hy
    obtain ⟨z, hz, -⟩ := Option.map_eq_some_iff.mp hy
    simp [hx, hz]
  · next K e =>
    split at h
    · next K' e' hr =>
      cases h
      apply isSome_act_of_reduceWhile (p := Frame.isOperator)
      rw [hr]
      exact isSome_act_of_close (f := .paren) hs
    · cases h
  · cases h

theorem isSome_act_of_run {s s' : State β υ α} {ts : List (Token σ α)}
    (h : run S R s ts = some s') {g : γ} (hs : (s'.act A g).isSome) : (s.act A g).isSome := by
  induction ts generalizing s with
  | nil =>
    cases h
    exact hs
  | cons t ts ih =>
    obtain ⟨s₁, hstep, hrun⟩ := Option.bind_eq_some_iff.mp h
    exact isSome_act_of_step hstep (ih hrun)

/-! ## Texts that can be completed -/

/-- The parentheses that are open. -/
def depth : List (Frame β υ α) → Nat
  | [] => 0
  | .paren :: K => depth K + 1
  | _ :: K => depth K

/-- A rule that is complete with its operand is completed before any closing parenthesis. -/
theorem run_rparens_operator {f : Frame β υ α} (hf : f.isOperator = true)
    (K : List (Frame β υ α)) (e : Tree β υ α) (n : Nat) :
    (run S R ⟨f :: K, some e⟩ (List.replicate n .rparen)).bind finish =
      (run S R ⟨K, some (f.close e)⟩ (List.replicate n .rparen)).bind finish := by
  have hreduce : reduceWhile Frame.isOperator (f :: K) e =
      reduceWhile Frame.isOperator K (f.close e) := by rw [reduceWhile, if_pos hf]
  cases n with
  | zero => simp only [List.replicate_zero, run_nil, Option.bind_some, finish, hreduce]
  | succ n => simp only [List.replicate_succ, run_cons, step, hreduce]

/-- Reading as many closing parentheses as are open completes an expression. -/
theorem exists_finish_rparens (K : List (Frame β υ α)) (e : Tree β υ α) :
    ∃ e', (run S R ⟨K, some e⟩ (List.replicate (depth K) .rparen)).bind finish = some e' := by
  induction K generalizing e with
  | nil => exact ⟨e, rfl⟩
  | cons f K ih =>
    cases f with
    | paren =>
      obtain ⟨e', he'⟩ := ih (.paren e)
      exact ⟨e', he'⟩
    | pre u =>
      rw [run_rparens_operator rfl]
      exact ih (.pre u e)
    | bin o l =>
      rw [run_rparens_operator rfl]
      exact ih (.bin o l e)

/-- The rest of an expression, with `a` for an operand that is missing. -/
def State.rest (a : α) : State β υ α → List (Token σ α)
  | ⟨K, none⟩ => .atom a :: List.replicate (depth K) .rparen
  | ⟨K, some _⟩ => List.replicate (depth K) .rparen

theorem exists_finish_rest (a : α) (s : State β υ α) :
    ∃ e, (run S R s (s.rest a)).bind finish = some e := by
  obtain ⟨K, operand⟩ := s
  cases operand with
  | none => exact exists_finish_rparens K (.atom a)
  | some e => exact exists_finish_rparens K e

end CourseCompilers.Lib.Precedence
