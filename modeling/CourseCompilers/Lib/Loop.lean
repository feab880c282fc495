import Mathlib.Tactic.TypeStar

/-! Loops as relations between states. A test may fail to give an answer, and a
body may relate a state to none, so both trapping and divergence are the absence
of a final state. -/

namespace CourseCompilers.Lib

variable {σ : Type*}

/-- `Loop test body s t`: testing and running the body in turns leads from `s` to
the state `t` in which the test first fails. -/
inductive Loop (test : σ → Option Bool) (body : σ → σ → Prop) : σ → σ → Prop
  | done {s : σ} : test s = some false → Loop test body s s
  | next {s t u : σ} : test s = some true → body s t → Loop test body t u → Loop test body s u

/-- `Once test body s t`: a conditional, the body run at most once. -/
inductive Once (test : σ → Option Bool) (body : σ → σ → Prop) : σ → σ → Prop
  | skip {s : σ} : test s = some false → Once test body s s
  | run {s t : σ} : test s = some true → body s t → Once test body s t

variable {test : σ → Option Bool} {body : σ → σ → Prop}

theorem Loop.unique (hbody : ∀ s t u, body s t → body s u → t = u) {s t u : σ}
    (h : Loop test body s t) (h' : Loop test body s u) : t = u := by
  induction h with
  | done ht =>
    cases h' with
    | done => rfl
    | next ht' => rw [ht] at ht'; cases ht'
  | next ht hb _ ih =>
    cases h' with
    | done ht' => rw [ht] at ht'; cases ht'
    | next _ hb' hl' =>
      cases hbody _ _ _ hb hb'
      exact ih hl'

theorem Once.unique (hbody : ∀ s t u, body s t → body s u → t = u) {s t u : σ}
    (h : Once test body s t) (h' : Once test body s u) : t = u := by
  cases h with
  | skip ht =>
    cases h' with
    | skip => rfl
    | run ht' => rw [ht] at ht'; cases ht'
  | run ht hb =>
    cases h' with
    | skip ht' => rw [ht] at ht'; cases ht'
    | run _ hb' => exact hbody _ _ _ hb hb'

/-! ## Tests and bodies that give more answers -/

variable {test' : σ → Option Bool} {body' : σ → σ → Prop}

theorem Loop.mono (htest : ∀ s b, test s = some b → test' s = some b)
    (hbody : ∀ s t, body s t → body' s t) {s t : σ} (h : Loop test body s t) :
    Loop test' body' s t := by
  induction h with
  | done ht => exact .done (htest _ _ ht)
  | next ht hb _ ih => exact .next (htest _ _ ht) (hbody _ _ hb) ih

theorem Once.mono (htest : ∀ s b, test s = some b → test' s = some b)
    (hbody : ∀ s t, body s t → body' s t) {s t : σ} (h : Once test body s t) :
    Once test' body' s t := by
  cases h with
  | skip ht => exact .skip (htest _ _ ht)
  | run ht hb => exact .run (htest _ _ ht) (hbody _ _ hb)

end CourseCompilers.Lib
