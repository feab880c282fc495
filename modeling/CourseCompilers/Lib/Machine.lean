import Mathlib.Data.Nat.Notation

/-! Deterministic machines with a step count. A machine is a function from a
state to its successor, to a final answer, or to being stuck; the run rules
below are what a compiler proof uses to splice straight-line pieces together
and to cut a finished run at a point it must have passed. -/

namespace CourseCompilers.Lib

/-- What one step of a machine does. -/
inductive Outcome (σ α : Type*) where
  | next (s : σ)
  | halt (a : α)
  | stuck
  deriving DecidableEq, Repr

variable {σ α : Type*}

/-- `Reaches step s n t`: exactly `n` steps lead from `s` to `t`. -/
inductive Reaches (step : σ → Outcome σ α) : σ → Nat → σ → Prop
  | refl (s : σ) : Reaches step s 0 s
  | next {s t u : σ} {n : Nat} :
      step s = .next t → Reaches step t n u → Reaches step s (n + 1) u

/-- `Halts step s n a`: after `n` steps from `s` the machine halts with `a`. -/
def Halts (step : σ → Outcome σ α) (s : σ) (n : Nat) (a : α) : Prop :=
  ∃ t, Reaches step s n t ∧ step t = .halt a

/-- The machine started in `s` terminates with answer `a`. -/
def Returns (step : σ → Outcome σ α) (s : σ) (a : α) : Prop :=
  ∃ n, Halts step s n a

/-- An executable run with a bound on the number of steps. -/
def runFor (step : σ → Outcome σ α) : Nat → σ → Option α
  | 0, _ => none
  | n + 1, s =>
      match step s with
      | .next t => runFor step n t
      | .halt a => some a
      | .stuck => none

variable {step : σ → Outcome σ α}

theorem Reaches.one {s t : σ} (h : step s = .next t) : Reaches step s 1 t :=
  Reaches.next h (Reaches.refl t)

theorem Reaches.trans {s t u : σ} {n m : Nat}
    (h : Reaches step s n t) (hu : Reaches step t m u) : Reaches step s (n + m) u := by
  induction h with
  | refl => simpa using hu
  | next hs _ ih => simpa [Nat.add_right_comm] using Reaches.next hs (ih hu)

theorem Reaches.snoc {s t u : σ} {n : Nat}
    (h : Reaches step s n t) (hs : step t = .next u) : Reaches step s (n + 1) u :=
  h.trans (Reaches.one hs)

/-- A run that has reached `t` halts as `t` does. -/
theorem Halts.of_reaches {s t : σ} {n m : Nat} {a : α}
    (h : Reaches step s n t) (ha : Halts step t m a) : Halts step s (n + m) a := by
  obtain ⟨u, hu, hh⟩ := ha
  exact ⟨u, h.trans hu, hh⟩

theorem Returns.of_reaches {s t : σ} {n : Nat} {a : α}
    (h : Reaches step s n t) (ha : Returns step t a) : Returns step s a := by
  obtain ⟨m, hm⟩ := ha
  exact ⟨n + m, Halts.of_reaches h hm⟩

theorem Halts.now {s : σ} {a : α} (h : step s = .halt a) : Halts step s 0 a :=
  ⟨s, Reaches.refl s, h⟩

/-- A halting run passes through every state its start reaches: the machine is
deterministic, so nothing but the number of steps left can differ. -/
theorem Halts.after {s t : σ} {n m : Nat} {a : α}
    (h : Halts step s m a) (hr : Reaches step s n t) :
    n ≤ m ∧ Halts step t (m - n) a := by
  induction hr generalizing m with
  | refl => exact ⟨Nat.zero_le m, by simpa using h⟩
  | next hs _ ih =>
    obtain ⟨u, hu, hh⟩ := h
    cases hu with
    | refl => rw [hs] at hh; cases hh
    | next hs' hu' =>
      rw [hs] at hs'
      cases hs'
      obtain ⟨hle, hrest⟩ := ih ⟨u, hu', hh⟩
      exact ⟨by omega, by simpa using hrest⟩

theorem Halts.unique {s : σ} {n m : Nat} {a b : α}
    (h : Halts step s n a) (h' : Halts step s m b) : n = m ∧ a = b := by
  obtain ⟨t, ht, ha⟩ := h
  obtain ⟨hle, u, hu, hb⟩ := h'.after ht
  generalize hk : m - n = k at hu
  cases hu with
  | refl =>
    rw [ha] at hb
    cases hb
    exact ⟨by omega, rfl⟩
  | next hs _ => rw [ha] at hs; cases hs

theorem Returns.unique {s : σ} {a b : α}
    (h : Returns step s a) (h' : Returns step s b) : a = b := by
  obtain ⟨n, hn⟩ := h
  obtain ⟨m, hm⟩ := h'
  exact (hn.unique hm).2

/-- A stuck state never gives an answer, however the run came to it. -/
theorem Reaches.not_returns {s t : σ} {n : Nat} {a : α}
    (h : Reaches step s n t) (hs : step t = .stuck) : ¬ Returns step s a := by
  rintro ⟨m, hm⟩
  obtain ⟨_, u, hu, hh⟩ := hm.after h
  generalize m - n = k at hu
  cases hu with
  | refl => rw [hs] at hh; cases hh
  | next hs' _ => rw [hs] at hs'; cases hs'

/-- The bounded run finds the answer of every run that halts within its bound. -/
theorem runFor_eq_some_iff {n : Nat} {s : σ} {a : α} :
    runFor step n s = some a ↔ ∃ m < n, Halts step s m a := by
  induction n generalizing s with
  | zero => simp [runFor]
  | succ n ih =>
    constructor
    · intro h
      cases hs : step s with
      | next t =>
        simp only [runFor, hs] at h
        obtain ⟨m, hm, hh⟩ := ih.mp h
        exact ⟨1 + m, by omega, Halts.of_reaches (Reaches.one hs) hh⟩
      | halt b =>
        simp only [runFor, hs, Option.some.injEq] at h
        exact ⟨0, by omega, h ▸ Halts.now hs⟩
      | stuck => simp [runFor, hs] at h
    · rintro ⟨m, hm, t, ht, hh⟩
      cases ht with
      | refl => simp [runFor, hh]
      | next hs ht' =>
        simp only [runFor, hs]
        exact ih.mpr ⟨_, by omega, t, ht', hh⟩

theorem Returns.of_runFor {n : Nat} {s : σ} {a : α} (h : runFor step n s = some a) :
    Returns step s a := by
  obtain ⟨m, _, hm⟩ := runFor_eq_some_iff.mp h
  exact ⟨m, hm⟩

end CourseCompilers.Lib
