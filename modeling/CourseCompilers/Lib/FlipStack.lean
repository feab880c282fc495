import Mathlib.Algebra.Ring.Parity
import Mathlib.Data.List.Basic

/-! A stack that is reversed as a whole now and then. Which element is on top is
decided by the parity of the reversals since each push: the latest push that an
even number of reversals follow, or the very first one if no push qualifies. -/

namespace CourseCompilers.Lib

inductive Move (α : Type*) where
  | push (a : α)
  | flip
  deriving DecidableEq, Repr

variable {α β : Type*}

def Move.apply : Move α → List α → List α
  | .push a, l => a :: l
  | .flip, l => l.reverse

/-- The stack after a history of moves, the latest move first. -/
def stack : List (Move α) → List α
  | [] => []
  | m :: ms => m.apply (stack ms)

/-- `survivor odd ms`: the latest push that, `odd` counted in, an even number of
reversals follow; the first push if there is none. -/
def survivor : Bool → List (Move α) → Option α
  | _, [] => none
  | odd, .flip :: ms => survivor (!odd) ms
  | false, .push a :: _ => some a
  | true, .push a :: ms => (survivor true ms).or (some a)

/-- The latest push. -/
def latest : List (Move α) → Option α
  | [] => none
  | .flip :: ms => latest ms
  | .push a :: _ => some a

/-- The number of reversals since the latest push is even. -/
def EvenFlips : Bool → List (Move α) → Prop
  | _, [] => True
  | odd, .flip :: ms => EvenFlips (!odd) ms
  | odd, .push _ :: _ => odd = false

theorem survivor_eq_ends (ms : List (Move α)) :
    survivor false ms = (stack ms).head? ∧ survivor true ms = (stack ms).getLast? := by
  induction ms with
  | nil => exact ⟨rfl, rfl⟩
  | cons m ms ih =>
    obtain ⟨hhead, hlast⟩ := ih
    cases m with
    | flip => simp [survivor, stack, Move.apply, hhead, hlast]
    | push a =>
      refine ⟨rfl, ?_⟩
      rw [survivor, hlast]
      cases hs : stack ms <;> simp [stack, Move.apply, hs, List.getLast?_cons]

/-- The top of the stack is the survivor of its history. -/
theorem head?_stack (ms : List (Move α)) : (stack ms).head? = survivor false ms :=
  (survivor_eq_ends ms).1.symm

theorem survivor_eq_none_iff (odd : Bool) (ms : List (Move α)) :
    survivor odd ms = none ↔ latest ms = none := by
  induction ms generalizing odd with
  | nil => simp [survivor, latest]
  | cons m ms ih =>
    cases m with
    | flip => exact ih _
    | push a => cases odd <;> simp [survivor, latest]

/-- With an even number of reversals since the latest push, that push survives. -/
theorem survivor_eq_latest {odd : Bool} {ms : List (Move α)} (h : EvenFlips odd ms) :
    survivor odd ms = latest ms := by
  induction ms generalizing odd with
  | nil => rfl
  | cons m ms ih =>
    cases m with
    | flip => exact ih h
    | push a => cases h; rfl

/-- The elements pushed, the latest first. -/
def pushes (ms : List (Move α)) : List α :=
  ms.filterMap fun
    | .push a => some a
    | .flip => none

def flips (ms : List (Move α)) : Nat :=
  ms.countP fun
    | .push _ => false
    | .flip => true

theorem EvenFlips.of_flips_eq_zero {ms : List (Move α)} (h : flips ms = 0) :
    EvenFlips false ms := by
  cases ms with
  | nil => trivial
  | cons m ms =>
    cases m with
    | push a => rfl
    | flip => simp [flips] at h

/-- `a` is on top: it was pushed, every later push is followed by an odd number of
reversals, and `a` itself by an even number or it was the first. -/
def OnTop (odd : Nat) (a : α) (ms : List (Move α)) : Prop :=
  ∃ later earlier, ms = later ++ .push a :: earlier ∧
    (∀ p b q, later = p ++ .push b :: q → Odd (flips p + odd)) ∧
    (Even (flips later + odd) ∨ pushes earlier = [])

theorem latest_eq_none_iff (ms : List (Move α)) : latest ms = none ↔ pushes ms = [] := by
  induction ms with
  | nil => simp [latest, pushes]
  | cons m ms ih => cases m <;> simp_all [latest, pushes]

theorem onTop_flip (odd : Nat) (a : α) (ms : List (Move α)) :
    OnTop odd a (.flip :: ms) ↔ OnTop (odd + 1) a ms := by
  have hflips : ∀ p : List (Move α), flips (.flip :: p) + odd = flips p + (odd + 1) := by
    intro p
    simp only [flips, List.countP_cons, ↓reduceIte]
    omega
  constructor
  · rintro ⟨_ | ⟨m, later⟩, earlier, hms, hlater, ha⟩
    · simp at hms
    · obtain ⟨rfl, rfl⟩ := List.cons_eq_cons.mp hms
      refine ⟨later, earlier, rfl, fun p b q hp => ?_, by rwa [hflips] at ha⟩
      rw [← hflips]
      exact hlater (.flip :: p) b q (by rw [hp, List.cons_append])
  · rintro ⟨later, earlier, rfl, hlater, ha⟩
    refine ⟨.flip :: later, earlier, rfl, ?_, by rwa [hflips]⟩
    rintro (_ | ⟨m, p⟩) b q hp
    · simp at hp
    · obtain ⟨rfl, htail⟩ := List.cons_eq_cons.mp hp
      rw [hflips]
      exact hlater p b q htail

theorem onTop_push (odd : Nat) (a b : α) (ms : List (Move α)) :
    OnTop odd a (.push b :: ms) ↔
      if Even odd then b = a else OnTop odd a ms ∨ pushes ms = [] ∧ b = a := by
  have hflips : ∀ p : List (Move α), flips (.push b :: p) = flips p := fun p => by simp [flips]
  have hnil : flips ([] : List (Move α)) + odd = odd := by simp [flips]
  split
  · rename_i heven
    constructor
    · rintro ⟨_ | ⟨m, later⟩, earlier, hms, hlater, _⟩
      · exact Move.push.inj (List.cons_eq_cons.mp hms).1
      · obtain ⟨rfl, _⟩ := List.cons_eq_cons.mp hms
        have hodd := hlater [] b later rfl
        rw [hnil] at hodd
        exact absurd heven (Nat.not_even_iff_odd.mpr hodd)
    · rintro rfl
      exact ⟨[], ms, rfl, fun p c q hp => by simp at hp, .inl (hnil.symm ▸ heven)⟩
  · rename_i hodd
    constructor
    · rintro ⟨_ | ⟨m, later⟩, earlier, hms, hlater, ha⟩
      · obtain ⟨hb, rfl⟩ := List.cons_eq_cons.mp hms
        rcases ha with ha | ha
        · exact absurd (hnil ▸ ha) hodd
        · exact .inr ⟨ha, Move.push.inj hb⟩
      · obtain ⟨rfl, rfl⟩ := List.cons_eq_cons.mp hms
        refine .inl ⟨later, earlier, rfl, fun p c q hp => ?_, hflips later ▸ ha⟩
        exact hflips p ▸ hlater (.push b :: p) c q (by rw [hp, List.cons_append])
    · rintro (⟨later, earlier, rfl, hlater, ha⟩ | ⟨hms, rfl⟩)
      · refine ⟨.push b :: later, earlier, rfl, ?_, by rwa [hflips]⟩
        rintro (_ | ⟨m, p⟩) c q hp
        · exact hnil.symm ▸ Nat.not_even_iff_odd.mp hodd
        · obtain ⟨rfl, htail⟩ := List.cons_eq_cons.mp hp
          rw [hflips]
          exact hlater p c q htail
      · exact ⟨[], ms, rfl, fun p c q hp => by simp at hp, .inr hms⟩

theorem survivor_eq_some_iff (odd : Nat) (a : α) (ms : List (Move α)) :
    survivor (!decide (Even odd)) ms = some a ↔ OnTop odd a ms := by
  induction ms generalizing odd with
  | nil =>
    simp only [survivor, OnTop]
    constructor
    · intro h
      cases h
    · rintro ⟨later, earlier, h, _⟩
      simp at h
  | cons m ms ih =>
    cases m with
    | flip =>
      rw [onTop_flip, ← ih (odd + 1), survivor]
      simp [Nat.even_add_one, -Nat.not_even_iff_odd]
    | push b =>
      rw [onTop_push]
      by_cases heven : Even odd
      · simp [heven, survivor]
      · have ih := ih odd
        simp only [heven, decide_false, Bool.not_false] at ih ⊢
        rw [if_neg not_false, survivor, ← ih]
        cases hs : survivor true ms with
        | none =>
          rw [survivor_eq_none_iff, latest_eq_none_iff] at hs
          simp [hs]
        | some c =>
          have hne : pushes ms ≠ [] := by
            rw [Ne, ← latest_eq_none_iff, ← survivor_eq_none_iff true, hs]
            simp
          simp [hne]

end CourseCompilers.Lib
