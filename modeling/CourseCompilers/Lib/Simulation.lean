import CourseCompilers.Lib.Loop
import CourseCompilers.Lib.Machine

/-! Code that realizes a relation. An entry and an exit condition tie the states
of a machine to abstract states; between them the code must reach an exit state
for every related pair, and may halt only from entry states that are related to
something. The second half is what makes divergence and traps agree; it is promised
under an assumption `U`, so that code which is right in one direction only has rules too. -/

namespace CourseCompilers.Lib

variable {σ S α : Type*}

/-- The machine started in `s` gets stuck. -/
def GetsStuck (step : S → Outcome S α) (s : S) : Prop :=
  ∃ n t, Reaches step s n t ∧ step t = .stuck

/-- Runs from `s` come to a state with property `q`. -/
def Comes (step : S → Outcome S α) (s : S) (q : S → Prop) : Prop :=
  ∃ n t, Reaches step s n t ∧ q t

variable {step : S → Outcome S α}

theorem GetsStuck.not_halts {s : S} (h : GetsStuck step s) (n : Nat) (a : α) :
    ¬ Halts step s n a := by
  obtain ⟨m, t, ht, hs⟩ := h
  exact fun hh => ht.not_returns hs ⟨n, hh⟩

theorem GetsStuck.of_reaches {s t : S} {n : Nat} (h : Reaches step s n t)
    (ht : GetsStuck step t) : GetsStuck step s := by
  obtain ⟨m, u, hu, hs⟩ := ht
  exact ⟨n + m, u, h.trans hu, hs⟩

theorem Comes.here {s : S} {q : S → Prop} (h : q s) : Comes step s q := ⟨0, s, .refl s, h⟩

theorem Comes.of_reaches {s t : S} {n : Nat} {q : S → Prop} (h : Reaches step s n t)
    (ht : Comes step t q) : Comes step s q := by
  obtain ⟨m, u, hu, hq⟩ := ht
  exact ⟨n + m, u, h.trans hu, hq⟩

/-- Code between `I` and `J` that realizes the relation `r`. -/
structure Realizes (U : Prop) (step : S → Outcome S α) (I : σ → S → Prop) (r : σ → σ → Prop)
    (J : σ → S → Prop) : Prop where
  forward : ∀ {x s y}, I x s → r x y → Comes step s (J y)
  backward : U → ∀ {x s n a}, I x s → Halts step s n a → ∃ y, r x y

/-- Code that decides a test: it goes to `T` or to `E`, in at least one step, or
gets stuck where the test has no answer. -/
def Decides (U : Prop) (step : S → Outcome S α) (I : σ → S → Prop) (test : σ → Option Bool)
    (T E : σ → S → Prop) : Prop :=
  ∀ x s, I x s →
    match test x with
    | some true => ∃ n t, Reaches step s (n + 1) t ∧ T x t
    | some false => ∃ n t, Reaches step s (n + 1) t ∧ E x t
    | none => U → GetsStuck step s

variable {U : Prop} {I J K T E : σ → S → Prop} {r r' : σ → σ → Prop} {test : σ → Option Bool}

theorem Decides.weaken {E' : σ → S → Prop} (h : Decides U step I test T E)
    (hE : ∀ x s, E x s → E' x s) : Decides U step I test T E' := by
  intro x s hi
  have hdec := h x s hi
  match hx : test x with
  | none => simpa only [hx] using hdec
  | some true => simpa only [hx] using hdec
  | some false =>
    simp only [hx] at hdec ⊢
    obtain ⟨n, t, ht, he⟩ := hdec
    exact ⟨n, t, ht, hE _ _ he⟩

/-- Entering through a few more steps. -/
theorem Realizes.enter {I' : σ → S → Prop} (h : Realizes U step I r J)
    (hI : ∀ x s, I' x s → Comes step s (I x)) : Realizes U step I' r J where
  forward hi hr := by
    obtain ⟨n, t, ht, hit⟩ := hI _ _ hi
    exact .of_reaches ht (h.forward hit hr)
  backward hU _ _ _ _ hi hh := by
    obtain ⟨n, t, ht, hit⟩ := hI _ _ hi
    exact h.backward hU hit (hh.after ht).2

/-- Leaving through a few more steps. -/
theorem Realizes.leave {J' : σ → S → Prop} (h : Realizes U step I r J)
    (hJ : ∀ x s, J x s → Comes step s (J' x)) : Realizes U step I r J' where
  forward hi hr := by
    obtain ⟨n, t, ht, hj⟩ := h.forward hi hr
    exact .of_reaches ht (hJ _ _ hj)
  backward := h.backward

theorem Realizes.skip : Realizes U step I (fun x y => y = x) I where
  forward := by
    rintro x s _ hi rfl
    exact .here hi
  backward := fun _ {x _ _ _} _ _ => ⟨x, rfl⟩

theorem Realizes.seq (h : Realizes U step I r J) (h' : Realizes U step J r' K) :
    Realizes U step I (fun x z => ∃ y, r x y ∧ r' y z) K where
  forward := by
    rintro x s z hi ⟨y, hxy, hyz⟩
    obtain ⟨n, t, ht, hj⟩ := h.forward hi hxy
    exact .of_reaches ht (h'.forward hj hyz)
  backward := by
    intro hU x s n a hi hh
    obtain ⟨y, hxy⟩ := h.backward hU hi hh
    obtain ⟨m, t, ht, hj⟩ := h.forward hi hxy
    obtain ⟨z, hyz⟩ := h'.backward hU hj (hh.after ht).2
    exact ⟨z, y, hxy, hyz⟩

/-- A conditional: both ways out of the test lead to the same exit. -/
theorem Realizes.once (ht : Decides U step I test T E) (hb : Realizes U step T r E) :
    Realizes U step I (Once test r) E where
  forward := by
    intro x s y hi hxy
    have hdec := ht x s hi
    cases hxy with
    | skip hx =>
      simp only [hx] at hdec
      obtain ⟨n, t, hreach, he⟩ := hdec
      exact ⟨n + 1, t, hreach, he⟩
    | run hx hr =>
      simp only [hx] at hdec
      obtain ⟨n, t, hreach, hT⟩ := hdec
      exact .of_reaches hreach (hb.forward hT hr)
  backward := by
    intro hU x s n a hi hh
    have hdec := ht x s hi
    match hx : test x with
    | none =>
      simp only [hx] at hdec
      exact absurd hh ((hdec hU).not_halts n a)
    | some false => exact ⟨x, .skip hx⟩
    | some true =>
      simp only [hx] at hdec
      obtain ⟨m, t, hreach, hT⟩ := hdec
      obtain ⟨y, hy⟩ := hb.backward hU hT (hh.after hreach).2
      exact ⟨y, .run hx hy⟩

/-- A loop: the body leads back to where the test is made. The backward half is
by induction on the steps left, which every test makes fewer. -/
theorem Realizes.loop (ht : Decides U step I test T E) (hb : Realizes U step T r I) :
    Realizes U step I (Loop test r) E where
  forward := by
    intro x s y hi hxy
    induction hxy generalizing s with
    | done hx =>
      have hdec := ht _ s hi
      simp only [hx] at hdec
      obtain ⟨n, t, hreach, he⟩ := hdec
      exact ⟨n + 1, t, hreach, he⟩
    | next hx hr _ ih =>
      have hdec := ht _ s hi
      simp only [hx] at hdec
      obtain ⟨n, t, hreach, hT⟩ := hdec
      obtain ⟨m, u, hu, hiu⟩ := hb.forward hT hr
      exact .of_reaches hreach (.of_reaches hu (ih hiu))
  backward := by
    intro hU x s n a hi hh
    induction n using Nat.strongRecOn generalizing x s with
    | _ n ih =>
      have hdec := ht x s hi
      match hx : test x with
      | none =>
        simp only [hx] at hdec
        exact absurd hh ((hdec hU).not_halts n a)
      | some false => exact ⟨x, .done hx⟩
      | some true =>
        simp only [hx] at hdec
        obtain ⟨m, t, hreach, hT⟩ := hdec
        obtain ⟨hm, hrest⟩ := hh.after hreach
        obtain ⟨y, hy⟩ := hb.backward hU hT hrest
        obtain ⟨k, u, hu, hiu⟩ := hb.forward hT hy
        obtain ⟨hk, hlast⟩ := hrest.after hu
        obtain ⟨z, hz⟩ := ih _ (by omega) hiu hlast
        exact ⟨z, .next hx hy hz⟩

/-- The machine started in `s` ends with the answer `r`, or gets stuck for lack of one. -/
def Finishes (U : Prop) (step : S → Outcome S α) (s : S) : Option α → Prop
  | some a => Returns step s a
  | none => U → GetsStuck step s

section
variable (h : Realizes U step I r J) (result : σ → Option α)
  (hJ : ∀ x s, J x s → Finishes U step s (result x)) {x : σ} {s : S} (hi : I x s)
include h hJ hi

/-- Code that realizes `r` and then finishes with a function of the state. -/
theorem Realizes.returns {y : σ} {a : α} (hy : r x y) (ha : result y = some a) :
    Returns step s a := by
  obtain ⟨m, t, ht, hj⟩ := h.forward hi hy
  have hres := hJ y t hj
  rw [ha] at hres
  exact .of_reaches ht hres

theorem Realizes.of_returns (hU : U) {a : α} (hret : Returns step s a) :
    ∃ y, r x y ∧ result y = some a := by
  obtain ⟨n, hn⟩ := hret
  obtain ⟨y, hy⟩ := h.backward hU hi hn
  obtain ⟨m, t, ht, hj⟩ := h.forward hi hy
  have hres := hJ y t hj
  obtain ⟨_, hrest⟩ := hn.after ht
  cases hb : result y with
  | none =>
    rw [hb] at hres
    exact absurd hrest ((hres hU).not_halts _ a)
  | some b =>
    rw [hb] at hres
    exact ⟨y, hy, hb.trans (congrArg some (hres.unique ⟨_, hrest⟩))⟩

end

end CourseCompilers.Lib
