import CourseCompilers.Lib.Machine

/-! A machine simulated by one that skips some of its steps. Only finitely many
steps in a row may be skipped, which a size that they decrease makes sure of, so
neither machine can run on while the other stands still. -/

namespace CourseCompilers.Lib

variable {S S' α : Type*}

/-- No run from `s` gets stuck. -/
def Safe (step : S → Outcome S α) (s : S) : Prop :=
  ∀ n t, Reaches step s n t → step t ≠ .stuck

/-- Each step from `s` is skipped or made from `s'` too, and answers agree. -/
def Matches (step : S → Outcome S α) (step' : S' → Outcome S' α) (R : S → S' → Prop)
    (size : S → Nat) (s : S) (s' : S') : Prop :=
  match step s with
  | .next t => (R t s' ∧ size t < size s) ∨ ∃ t', step' s' = .next t' ∧ R t t'
  | .halt a => step' s' = .halt a
  | .stuck => True

/-- `R` is a simulation that skips. -/
def Skips (step : S → Outcome S α) (step' : S' → Outcome S' α) (R : S → S' → Prop)
    (size : S → Nat) : Prop :=
  ∀ s s', R s s' → Matches step step' R size s s'

variable {step : S → Outcome S α} {step' : S' → Outcome S' α} {R : S → S' → Prop} {size : S → Nat}

theorem Matches.intro {s : S} {s' : S'}
    (hnext : ∀ t, step s = .next t →
      (R t s' ∧ size t < size s) ∨ ∃ t', step' s' = .next t' ∧ R t t')
    (hhalt : ∀ a, step s = .halt a → step' s' = .halt a) : Matches step step' R size s s' := by
  unfold Matches
  cases hs : step s with
  | next t => exact hnext t hs
  | halt a => exact hhalt a hs
  | stuck => trivial

theorem Safe.next {s t : S} (h : Safe step s) (ht : step s = .next t) : Safe step t :=
  fun _ _ hr => h _ _ (.next ht hr)

theorem Safe.reaches {s t : S} {n : Nat} (h : Safe step s) (ht : Reaches step s n t) :
    Safe step t := fun _ _ hr => h _ _ (ht.trans hr)

/-- What the first machine reaches, the second reaches. -/
theorem Skips.forward (hsim : Skips step step' R size) {s t : S} {s' : S'} {n : Nat} (h : R s s')
    (ht : Reaches step s n t) : ∃ m t', Reaches step' s' m t' ∧ R t t' := by
  induction ht generalizing s' with
  | refl => exact ⟨0, s', .refl s', h⟩
  | next hs _ ih =>
    have hm := hsim _ _ h
    simp only [Matches, hs] at hm
    rcases hm with ⟨hR, _⟩ | ⟨t', ht', hR⟩
    · exact ih hR
    · obtain ⟨m, u', hu', hRu⟩ := ih hR
      exact ⟨m + 1, u', .next ht' hu', hRu⟩

/-- From a safe state the first machine comes to make the second one's next move. -/
theorem Skips.catchUp (hsim : Skips step step' R size) {s : S} {s' : S'} (h : R s s')
    (hsafe : Safe step s) :
    ∃ n t, Reaches step s n t ∧ R t s' ∧
      ((∃ a, step t = .halt a ∧ step' s' = .halt a) ∨
        ∃ u u', step t = .next u ∧ step' s' = .next u' ∧ R u u') := by
  generalize hk : size s = k
  induction k using Nat.strongRecOn generalizing s with
  | _ k ih =>
    have hm := hsim s s' h
    have hns := hsafe 0 s (.refl s)
    cases hs : step s with
    | next t =>
      simp only [Matches, hs] at hm
      rcases hm with ⟨hR, hlt⟩ | ⟨t', ht', hR⟩
      · obtain ⟨n, u, hu, hRu, hmove⟩ := ih (size t) (hk ▸ hlt) hR (hsafe.next hs) rfl
        exact ⟨n + 1, u, .next hs hu, hRu, hmove⟩
      · exact ⟨0, s, .refl s, h, .inr ⟨t, t', hs, ht', hR⟩⟩
    | halt a =>
      simp only [Matches, hs] at hm
      exact ⟨0, s, .refl s, h, .inl ⟨a, hs, hm⟩⟩
    | stuck => exact absurd hs hns

/-- From a safe state, what the second machine reaches, the first reaches. -/
theorem Skips.backward (hsim : Skips step step' R size) {s : S} {s' t' : S'} {m : Nat} (h : R s s')
    (hsafe : Safe step s) (ht : Reaches step' s' m t') : ∃ n t, Reaches step s n t ∧ R t t' := by
  induction ht generalizing s with
  | refl => exact ⟨0, s, .refl s, h⟩
  | next hs' _ ih =>
    obtain ⟨n, t, ht, _, hmove⟩ := hsim.catchUp h hsafe
    rcases hmove with ⟨a, _, hh⟩ | ⟨u, u', hu, hu', hR⟩
    · rw [hs'] at hh
      cases hh
    · rw [hs'] at hu'
      cases hu'
      have hreach := ht.snoc hu
      obtain ⟨k, v, hv, hRv⟩ := ih hR (hsafe.reaches hreach)
      exact ⟨_, v, hreach.trans hv, hRv⟩

theorem Skips.safe (hsim : Skips step step' R size) {s : S} {s' : S'} (h : R s s')
    (hsafe : Safe step s) : Safe step' s' := by
  intro m t' ht' hstuck
  obtain ⟨n, t, ht, hR⟩ := hsim.backward h hsafe ht'
  obtain ⟨_, _, _, _, hmove⟩ := hsim.catchUp hR (hsafe.reaches ht)
  rcases hmove with ⟨a, _, hh⟩ | ⟨_, u', _, hu', _⟩
  · rw [hstuck] at hh
    cases hh
  · rw [hstuck] at hu'
    cases hu'

/-- From a safe state both machines give the same answers. -/
theorem Skips.returns_iff (hsim : Skips step step' R size) {s : S} {s' : S'} (h : R s s')
    (hsafe : Safe step s) (a : α) : Returns step s a ↔ Returns step' s' a := by
  constructor
  · rintro ⟨n, t, ht, hh⟩
    obtain ⟨m, t', ht', hR⟩ := hsim.forward h ht
    have hm := hsim t t' hR
    simp only [Matches, hh] at hm
    exact ⟨m, t', ht', hm⟩
  · rintro ⟨m, t', ht', hh⟩
    obtain ⟨n, t, ht, hR⟩ := hsim.backward h hsafe ht'
    obtain ⟨k, u, hu, _, hmove⟩ := hsim.catchUp hR (hsafe.reaches ht)
    rcases hmove with ⟨b, hb, hb'⟩ | ⟨_, u', _, hu', _⟩
    · rw [hh] at hb'
      cases hb'
      exact ⟨n + k, u, ht.trans hu, hb⟩
    · rw [hh] at hu'
      cases hu'

/-- From a safe state both machines make the same observations. -/
theorem Skips.reaches_iff {τ : Type*} (hsim : Skips step step' R size) (obs : S → τ)
    (obs' : S' → τ) (hobs : ∀ s s', R s s' → obs s = obs' s') {s : S} {s' : S'} (h : R s s')
    (hsafe : Safe step s) (o : τ) :
    (∃ n t, Reaches step s n t ∧ obs t = o) ↔ ∃ n t', Reaches step' s' n t' ∧ obs' t' = o := by
  constructor
  · rintro ⟨n, t, ht, rfl⟩
    obtain ⟨m, t', ht', hR⟩ := hsim.forward h ht
    exact ⟨m, t', ht', (hobs t t' hR).symm⟩
  · rintro ⟨m, t', ht', rfl⟩
    obtain ⟨n, t, ht, hR⟩ := hsim.backward h hsafe ht'
    exact ⟨n, t, ht, hobs t t' hR⟩

end CourseCompilers.Lib
