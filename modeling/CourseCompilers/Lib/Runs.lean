import Mathlib.Data.Prod.Lex
import Mathlib.Order.WellFounded

/-! Total correctness of a loop that may choose: every run is finite, and every
state in which no further step is possible is as wanted. -/

namespace CourseCompilers.Lib

variable {σ : Type*}

/-- All runs from a state are finite and end in states with property `q`. -/
inductive Ends (step : σ → σ → Prop) (q : σ → Prop) : σ → Prop
  | intro {s : σ} : (∀ t, step s t → Ends step q t) → ((∀ t, ¬ step s t) → q s) → Ends step q s

variable {step : σ → σ → Prop} {q : σ → Prop}

/-- An invariant that steps keep and a measure that they decrease. -/
theorem Ends.of_invariant {α : Type*} [LT α] [WellFoundedLT α] (inv : σ → Prop) (measure : σ → α)
    (hstep : ∀ s t, inv s → step s t → inv t ∧ measure t < measure s)
    (hdone : ∀ s, inv s → (∀ t, ¬ step s t) → q s) {s : σ} (hs : inv s) : Ends step q s := by
  induction s using (InvImage.wf measure wellFounded_lt).induction with
  | _ s ih =>
    refine .intro (fun t ht => ?_) (hdone s hs)
    obtain ⟨hinv, hlt⟩ := hstep s t hs ht
    exact ih t hlt hinv

theorem Ends.mono {q' : σ → Prop} (h : ∀ s, q s → q' s) {s : σ} (hs : Ends step q s) :
    Ends step q' s := by
  induction hs with
  | intro _ hq ih => exact .intro ih fun hno => h _ (hq hno)

/-- If all runs are finite, there is a run to the end. -/
theorem Ends.exists_end {s : σ} (hs : Ends step q s) : ∃ t, q t := by
  induction hs with
  | @intro s _ hq ih =>
    by_cases h : ∃ t, step s t
    · obtain ⟨t, ht⟩ := h
      exact ih t ht
    · exact ⟨s, hq (not_exists.mp h)⟩

end CourseCompilers.Lib
