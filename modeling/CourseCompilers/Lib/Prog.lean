import Mathlib.Data.List.Basic

/-! Programs that make observable events and may crash. What a run is seen to do
is followed against a list of expected observations: a run that crashes has made
an initial part of them. -/

namespace CourseCompilers.Lib

/-- A program; a run from a state makes events and, unless it crashes, has a result
and a last state. -/
structure Prog (σ ε α : Type) where
  run : σ → List ε × Option (α × σ)

namespace Prog
variable {σ ε ο α β : Type}

instance : Monad (Prog σ ε) where
  pure a := ⟨fun s => ([], some (a, s))⟩
  bind m f := ⟨fun s =>
    let r := m.run s
    (r.1 ++ r.2.elim [] fun p => ((f p.1).run p.2).1, r.2.bind fun p => ((f p.1).run p.2).2)⟩

theorem eq_of_run {m m' : Prog σ ε α} (h : ∀ s, m.run s = m'.run s) : m = m' := by
  cases m
  cases m'
  exact congrArg Prog.mk (funext h)

theorem return_bind (a : α) (f : α → Prog σ ε β) : pure a >>= f = f a := by
  refine eq_of_run fun s => ?_
  simp [bind, pure]

theorem bind_return (m : Prog σ ε Unit) : (m >>= fun _ => pure ()) = m := by
  refine eq_of_run fun s => ?_
  rcases hm : m.run s with ⟨es, _ | ⟨_, t⟩⟩
  · simp [bind, hm]
  · simp [bind, pure, hm]

theorem bind_bind {γ : Type} (m : Prog σ ε α) (f : α → Prog σ ε β) (g : β → Prog σ ε γ) :
    m >>= f >>= g = m >>= fun a => f a >>= g := by
  refine eq_of_run fun s => ?_
  rcases hm : m.run s with ⟨es, _ | ⟨a, t⟩⟩
  · simp [bind, hm]
  · rcases hf : (f a).run t with ⟨es', _ | ⟨b, u⟩⟩
    · simp [bind, hm, hf]
    · simp [bind, hm, hf]

/-- The program without its result. -/
def void (m : Prog σ ε α) : Prog σ ε Unit := m >>= fun _ => pure ()

theorem void_pure (a : α) : (pure a : Prog σ ε α).void = pure () := return_bind _ _

theorem void_bind (m : Prog σ ε α) (f : α → Prog σ ε β) :
    (m >>= f).void = m >>= fun a => (f a).void := bind_bind _ _ _

theorem bind_void (m : Prog σ ε α) (f : Unit → Prog σ ε β) :
    m.void >>= f = m >>= fun _ => f () := by
  rw [void, bind_bind]
  simp only [return_bind]

def crash : Prog σ ε α := ⟨fun _ => ([], none)⟩

def observe (e : ε) : Prog σ ε Unit := ⟨fun s => ([e], some ((), s))⟩

def read : Prog σ ε σ := ⟨fun s => ([], some (s, s))⟩

/-- Change the state; `none` is a crash. -/
def change (f : σ → Option σ) : Prog σ ε Unit := ⟨fun s => ([], (f s).map fun t => ((), t))⟩

variable {s : σ} {Q : α → σ → Prop} {R : β → σ → Prop}

theorem run_bind_of_crash {m : Prog σ ε α} {f : α → Prog σ ε β} {es : List ε}
    (h : m.run s = (es, none)) : (m >>= f).run s = (es, none) := by
  simp [bind, h]

theorem run_bind_of_result {m : Prog σ ε α} {f : α → Prog σ ε β} {es : List ε} {a : α} {t : σ}
    (h : m.run s = (es, some (a, t))) :
    (m >>= f).run s = (es ++ ((f a).run t).1, ((f a).run t).2) := by
  simp [bind, h]

theorem run_result_events (m : Prog σ ε α) (g : α → β) (s : σ) :
    ((m >>= fun a => pure (g a)).run s).1 = (m.run s).1 := by
  rcases hm : m.run s with ⟨es, _ | ⟨a, t⟩⟩
  · simp [bind, hm]
  · simp [bind, pure, hm]

/-- A run that does not crash ends as `Q` says. -/
def Leaves (m : Prog σ ε α) (s : σ) (Q : α → σ → Prop) : Prop :=
  ∀ es a t, m.run s = (es, some (a, t)) → Q a t

theorem Leaves.pure {a : α} (h : Q a s) : (Pure.pure a : Prog σ ε α).Leaves s Q := by
  rintro _ _ _ ⟨⟩
  exact h

theorem Leaves.bind {m : Prog σ ε α} {f : α → Prog σ ε β} (h : m.Leaves s Q)
    (hf : ∀ a t, Q a t → (f a).Leaves t R) : (m >>= f).Leaves s R := by
  intro es b u hrun
  rcases hm : m.run s with ⟨es', _ | ⟨a, t⟩⟩
  · rw [run_bind_of_crash hm] at hrun
    cases hrun
  · rw [run_bind_of_result hm] at hrun
    apply hf a t (h es' a t hm) ((f a).run t).1 b u
    rw [Prod.ext_iff] at hrun ⊢
    exact ⟨rfl, hrun.2⟩

theorem Leaves.crash : (crash : Prog σ ε α).Leaves s Q := by
  rintro _ _ _ ⟨⟩

theorem Leaves.observe {e : ε} {Q : Unit → σ → Prop} (h : Q () s) :
    (Prog.observe e : Prog σ ε Unit).Leaves s Q := by
  rintro _ _ _ ⟨⟩
  exact h

theorem Leaves.read {Q : σ → σ → Prop} (h : Q s s) : (Prog.read : Prog σ ε σ).Leaves s Q := by
  rintro _ _ _ ⟨⟩
  exact h

theorem Leaves.change {f : σ → Option σ} {Q : Unit → σ → Prop} (h : ∀ t, f s = some t → Q () t) :
    (change f : Prog σ ε Unit).Leaves s Q := by
  intro es a t hrun
  simp only [Prog.change, Prod.mk.injEq, Option.map_eq_some_iff] at hrun
  obtain ⟨_, u, hu, -, rfl⟩ := hrun
  exact h _ hu

theorem Leaves.read_bind {f : σ → Prog σ ε β} (h : (f s).Leaves s R) :
    (Prog.read >>= f).Leaves s R := by
  refine (Leaves.read (Q := fun a t => a = s ∧ t = s) ⟨rfl, rfl⟩).bind ?_
  rintro _ _ ⟨rfl, rfl⟩
  exact h

theorem Leaves.mono {m : Prog σ ε α} {Q' : α → σ → Prop} (h : m.Leaves s Q)
    (hQ : ∀ a t, Q a t → Q' a t) : m.Leaves s Q' := fun es a t hrun => hQ a t (h es a t hrun)

/-- What is seen of a list of events. Events that stand `Apart` do not change what is
seen of the events before them. -/
structure View (ε ο : Type) where
  see : List ε → List ο
  Apart : List ε → Prop
  see_nil : see [] = []
  apart_nil : Apart []
  see_append : ∀ es es', Apart es' → see (es ++ es') = see es ++ see es'
  apart_append : ∀ es es', Apart es → Apart es' → Apart (es ++ es')

/-- What is seen of the events is an initial part of `os`; a run that does not crash
makes all of them and ends as `Q` says. -/
structure Follows (V : View ε ο) (m : Prog σ ε α) (s : σ) (os : List ο) (Q : α → σ → Prop) :
    Prop where
  apart : V.Apart (m.run s).1
  seen : V.see (m.run s).1 <+: os
  all : (m.run s).2.isSome → V.see (m.run s).1 = os
  leaves : m.Leaves s Q

variable {V : View ε ο} {os os' : List ο}

theorem Follows.pure {a : α} (h : Q a s) : Follows V (pure a) s [] Q where
  apart := V.apart_nil
  seen := by simp [Pure.pure, V.see_nil]
  all _ := V.see_nil
  leaves := .pure h

theorem Follows.crash : Follows V (crash : Prog σ ε α) s os Q where
  apart := V.apart_nil
  seen := by simp [Prog.crash, V.see_nil]
  all := by simp [Prog.crash]
  leaves := .crash

theorem Follows.read {Q : σ → σ → Prop} (h : Q s s) : Follows V read s [] Q where
  apart := V.apart_nil
  seen := by simp [Prog.read, V.see_nil]
  all _ := V.see_nil
  leaves := .read h

theorem Follows.observe {Q : Unit → σ → Prop} {e : ε} (he : V.Apart [e]) (h : Q () s) :
    Follows V (observe e) s (V.see [e]) Q where
  apart := he
  seen := List.prefix_rfl
  all _ := rfl
  leaves := .observe h

theorem Follows.change {Q : Unit → σ → Prop} {f : σ → Option σ} (h : ∀ t, f s = some t → Q () t) :
    Follows V (change f) s [] Q where
  apart := V.apart_nil
  seen := by simp [Prog.change, V.see_nil]
  all _ := V.see_nil
  leaves := .change h

theorem Follows.mono {m : Prog σ ε α} {Q' : α → σ → Prop} (h : m.Follows V s os Q)
    (hQ : ∀ a t, Q a t → Q' a t) : m.Follows V s os Q' :=
  ⟨h.apart, h.seen, h.all, h.leaves.mono hQ⟩

theorem Follows.bind {m : Prog σ ε α} {f : α → Prog σ ε β} (h : m.Follows V s os Q)
    (hf : ∀ a t, Q a t → (f a).Follows V t os' R) : (m >>= f).Follows V s (os ++ os') R := by
  have hleaves := h.leaves.bind fun a t ht => (hf a t ht).leaves
  rcases hm : m.run s with ⟨es, _ | ⟨a, t⟩⟩
  · have hrun := run_bind_of_crash (f := f) hm
    refine ⟨?_, ?_, by simp [hrun], hleaves⟩
    · simpa [hrun, hm] using h.apart
    · simpa [hrun, hm] using h.seen.trans (List.prefix_append os os')
  · have hrun := run_bind_of_result (f := f) hm
    have hrest := hf a t (h.leaves es a t hm)
    have hapart : V.Apart es := by simpa [hm] using h.apart
    have hes : V.see es = os := by simpa [hm] using h.all
    have hsee : V.see (es ++ ((f a).run t).1) = os ++ V.see ((f a).run t).1 := by
      rw [V.see_append _ _ hrest.apart, hes]
    refine ⟨?_, ?_, ?_, hleaves⟩
    · rw [hrun]
      exact V.apart_append _ _ hapart hrest.apart
    · rw [hrun, hsee]
      exact (List.prefix_append_right_inj os).mpr hrest.seen
    · rw [hrun, hsee]
      exact fun hend => by rw [hrest.all hend]

/-- A first part of which nothing is seen. -/
theorem Follows.silent {m : Prog σ ε α} {f : α → Prog σ ε β} (h : m.Follows V s [] Q)
    (hf : ∀ a t, Q a t → (f a).Follows V t os R) : (m >>= f).Follows V s os R :=
  h.bind hf

/-- A last part of which nothing is seen. -/
theorem Follows.quiet {m : Prog σ ε α} {f : α → Prog σ ε β} (h : m.Follows V s os Q)
    (hf : ∀ a t, Q a t → (f a).Follows V t [] R) : (m >>= f).Follows V s os R :=
  List.append_nil os ▸ h.bind hf

theorem Follows.read_bind {f : σ → Prog σ ε β} (h : (f s).Follows V s os R) :
    (Prog.read >>= f).Follows V s os R :=
  (Follows.read (Q := fun a t => a = s ∧ t = s) ⟨rfl, rfl⟩).silent fun _ _ ⟨ha, ht⟩ => by
    rwa [ha, ht]

theorem Follows.change_bind {g : σ → Option σ} {f : Unit → Prog σ ε β}
    (h : ∀ t, g s = some t → (f ()).Follows V t os R) :
    (Prog.change g >>= f).Follows V s os R :=
  (Follows.change (Q := fun _ t => g s = some t) fun _ ht => ht).silent fun _ => h

theorem Follows.observe_bind {e : ε} {f : Unit → Prog σ ε β} (he : V.Apart [e])
    (h : (f ()).Follows V s os R) : (Prog.observe e >>= f).Follows V s (V.see [e] ++ os) R :=
  (Follows.observe (Q := fun _ t => t = s) he rfl).bind fun _ _ ht => ht ▸ h

/-- All events are good exactly when `C` holds; the run does not crash exactly when
`E` holds, and then it ends as `Q` says. -/
structure Settles (good : ε → Prop) (m : Prog σ ε α) (s : σ) (C E : Prop) (Q : α → σ → Prop) :
    Prop where
  events : (∀ e ∈ (m.run s).1, good e) ↔ C
  ends : (m.run s).2.isSome ↔ E
  leaves : m.Leaves s Q

variable {good : ε → Prop} {C C' E E' : Prop}

theorem Settles.events_bind {m : Prog σ ε α} {f : α → Prog σ ε β} (h : m.Settles good s C E Q)
    (hf : ∀ a t, Q a t → ((∀ e ∈ ((f a).run t).1, good e) ↔ C')) :
    (∀ e ∈ ((m >>= f).run s).1, good e) ↔ C ∧ (E → C') := by
  rw [← h.events, ← h.ends]
  rcases hm : m.run s with ⟨es, _ | ⟨a, t⟩⟩
  · simp [run_bind_of_crash hm]
  · simp [run_bind_of_result hm, or_imp, forall_and, hf a t (h.leaves es a t hm)]

theorem Settles.bind {m : Prog σ ε α} {f : α → Prog σ ε β} (h : m.Settles good s C E Q)
    (hf : ∀ a t, Q a t → (f a).Settles good t C' E' R) :
    (m >>= f).Settles good s (C ∧ (E → C')) (E ∧ E') R where
  events := h.events_bind fun a t ht => (hf a t ht).events
  ends := by
    rw [← h.ends]
    rcases hm : m.run s with ⟨es, _ | ⟨a, t⟩⟩
    · simp [run_bind_of_crash hm]
    · simpa [run_bind_of_result hm] using (hf a t (h.leaves es a t hm)).ends
  leaves := h.leaves.bind fun a t ht => (hf a t ht).leaves

theorem Settles.iff {m : Prog σ ε α} (h : m.Settles good s C E Q) (hC : C ↔ C') (hE : E ↔ E') :
    m.Settles good s C' E' Q := ⟨h.events.trans hC, h.ends.trans hE, h.leaves⟩

theorem Settles.leaving {m : Prog σ ε α} {Q' P : α → σ → Prop} (h : m.Settles good s C E Q)
    (h' : m.Leaves s Q') (hQ : ∀ a t, Q a t → Q' a t → P a t) : m.Settles good s C E P :=
  ⟨h.events, h.ends, fun es a t hrun => hQ a t (h.leaves es a t hrun) (h' es a t hrun)⟩

theorem Settles.mono {m : Prog σ ε α} {Q' : α → σ → Prop} (h : m.Settles good s C E Q)
    (hQ : ∀ a t, Q a t → Q' a t) : m.Settles good s C E Q' :=
  h.leaving h.leaves fun a t _ => hQ a t

theorem Settles.ends_only {m : Prog σ ε α} (h : m.Settles good s C E Q) :
    m.Settles (fun _ => True) s True E Q := ⟨by simp, h.ends, h.leaves⟩

theorem Settles.pure {a : α} (h : Q a s) : (Pure.pure a : Prog σ ε α).Settles good s True True Q :=
  ⟨by simp [Pure.pure], by simp [Pure.pure], Leaves.pure h⟩

theorem Settles.read {Q : σ → σ → Prop} (h : Q s s) :
    (Prog.read : Prog σ ε σ).Settles good s True True Q :=
  ⟨by simp [Prog.read], by simp [Prog.read], Leaves.read h⟩

theorem Settles.observe {Q : Unit → σ → Prop} {e : ε} (h : Q () s) :
    (Prog.observe e : Prog σ ε Unit).Settles good s (good e) True Q :=
  ⟨by simp [Prog.observe], by simp [Prog.observe], Leaves.observe h⟩

theorem Settles.change {Q : Unit → σ → Prop} {f : σ → Option σ}
    (h : ∀ t, f s = some t → Q () t) :
    (Prog.change f : Prog σ ε Unit).Settles good s True (f s).isSome Q :=
  ⟨by simp [Prog.change], by simp [Prog.change], Leaves.change h⟩

theorem Settles.crash : (Prog.crash : Prog σ ε α).Settles good s True False Q :=
  ⟨by simp [Prog.crash], by simp [Prog.crash], Leaves.crash⟩

theorem Settles.read_bind {f : σ → Prog σ ε β} (h : (f s).Settles good s C E R) :
    (Prog.read >>= f).Settles good s C E R := by
  have hread : (Prog.read >>= f).Settles good s (True ∧ (True → C)) (True ∧ E) R := by
    refine Settles.bind (Q := fun a t => a = s ∧ t = s) (Settles.read ⟨rfl, rfl⟩) ?_
    rintro _ _ ⟨rfl, rfl⟩
    exact h
  exact hread.iff (by simp) (by simp)

theorem Settles.observe_bind {e : ε} {f : Unit → Prog σ ε β} (h : (f ()).Settles good s C E R) :
    (Prog.observe e >>= f).Settles good s (good e ∧ C) E R := by
  have hobserve : (Prog.observe e >>= f).Settles good s (good e ∧ (True → C)) (True ∧ E) R :=
    Settles.bind (Q := fun _ t => t = s) (Settles.observe rfl) fun _ _ ht => ht ▸ h
  exact hobserve.iff (by simp) (by simp)

theorem Settles.change_bind {g : σ → Option σ} {t : σ} {f : Unit → Prog σ ε β} (ht : g s = some t)
    (h : (f ()).Settles good t C E R) : (Prog.change g >>= f).Settles good s C E R := by
  have hchange : (Prog.change g >>= f).Settles good s (True ∧ ((g s).isSome → C))
      ((g s).isSome ∧ E) R := by
    refine Settles.bind (Q := fun _ u => g s = some u) (Settles.change fun _ hu => hu)
      fun _ u hu => ?_
    rwa [← Option.some.inj (ht.symm.trans hu)]
  exact hchange.iff (by simp [ht]) (by simp [ht])

/-- A result computed from the last one. -/
theorem Settles.result {m : Prog σ ε α} {g : α → β} (h : m.Settles good s C E Q)
    (hR : ∀ a t, Q a t → R (g a) t) :
    (m >>= fun a => Pure.pure (g a)).Settles good s C E R := by
  have hpure : (m >>= fun a => Pure.pure (g a)).Settles good s (C ∧ (E → True)) (E ∧ True) R :=
    h.bind fun a t ht => Settles.pure (hR a t ht)
  exact hpure.iff (by simp) (by simp)

/-- If `C` holds, all events are good and the run ends as `Q` says; else one is not good. -/
abbrev Meets (good : ε → Prop) (m : Prog σ ε α) (s : σ) (C : Prop) (Q : α → σ → Prop) : Prop :=
  m.Settles good s C C Q

theorem Meets.bind {m : Prog σ ε α} {f : α → Prog σ ε β} (h : m.Meets good s C Q)
    (hf : ∀ a t, Q a t → (f a).Meets good t C' R) : (m >>= f).Meets good s (C ∧ C') R :=
  (Settles.bind h hf).iff ⟨fun ⟨h, h'⟩ => ⟨h, h' h⟩, fun ⟨h, h'⟩ => ⟨h, fun _ => h'⟩⟩ Iff.rfl

/-- A first part that makes good events only. -/
theorem Meets.after {m : Prog σ ε α} {f : α → Prog σ ε β} (h : m.Meets good s True Q)
    (hf : ∀ a t, Q a t → (f a).Settles good t C E R) : (m >>= f).Settles good s C E R :=
  (Settles.bind h hf).iff (by simp) (by simp)

/-- A last part that makes good events only. -/
theorem Meets.before {m : Prog σ ε α} {f : α → Prog σ ε β} (h : m.Meets good s C Q)
    (hf : ∀ a t, Q a t → (f a).Meets good t True R) : (m >>= f).Meets good s C R :=
  (Meets.bind h hf).iff (by simp) (by simp)

/-- A run that does not crash leaves this part of the state as it was. -/
def Keeps (part : σ → ο) (m : Prog σ ε α) : Prop := ∀ s, m.Leaves s fun _ t => part t = part s

variable {part : σ → ο}

theorem Keeps.pure (a : α) : (Pure.pure a : Prog σ ε α).Keeps part := fun _ => Leaves.pure rfl

theorem Keeps.bind {m : Prog σ ε α} {f : α → Prog σ ε β} (h : m.Keeps part)
    (hf : ∀ a, (f a).Keeps part) : (m >>= f).Keeps part := fun s =>
  (h s).bind fun a t ht es b u hu => (hf a t es b u hu).trans ht

theorem Keeps.read : (Prog.read : Prog σ ε σ).Keeps part := fun _ => Leaves.read rfl

theorem Keeps.observe (e : ε) : (Prog.observe e : Prog σ ε Unit).Keeps part := fun _ =>
  Leaves.observe rfl

theorem Keeps.crash : (Prog.crash : Prog σ ε α).Keeps part := fun _ => Leaves.crash

theorem Keeps.change {f : σ → Option σ} (h : ∀ s t, f s = some t → part t = part s) :
    (Prog.change f : Prog σ ε Unit).Keeps part := fun s => Leaves.change fun t ht => h s t ht

/-! ## Events under other names -/

def relabel {ε' : Type} (f : ε → ε') (m : Prog σ ε α) : Prog σ ε' α :=
  ⟨fun s => ((m.run s).1.map f, (m.run s).2)⟩

theorem relabel_bind {ε' : Type} (f : ε → ε') (m : Prog σ ε α) (g : α → Prog σ ε β) :
    (m >>= g).relabel f = m.relabel f >>= fun a => (g a).relabel f := by
  refine eq_of_run fun s => ?_
  rcases hm : m.run s with ⟨es, _ | ⟨a, t⟩⟩
  · simp [relabel, bind, hm]
  · simp [relabel, bind, hm]

/-- Only some of the events, under other names. -/
def seen {ε' : Type} (f : ε → Option ε') (m : Prog σ ε α) : Prog σ ε' α :=
  ⟨fun s => ((m.run s).1.filterMap f, (m.run s).2)⟩

theorem seen_bind {ε' : Type} (f : ε → Option ε') (m : Prog σ ε α) (g : α → Prog σ ε β) :
    (m >>= g).seen f = m.seen f >>= fun a => (g a).seen f := by
  refine eq_of_run fun s => ?_
  rcases hm : m.run s with ⟨es, _ | ⟨a, t⟩⟩
  · simp [seen, bind, hm]
  · simp [seen, bind, hm]

theorem bind_congr {m : Prog σ ε α} {f g : α → Prog σ ε β} {R : α → Prop}
    (hm : ∀ s, m.Leaves s fun a _ => R a) (hfg : ∀ a, R a → f a = g a) : m >>= f = m >>= g := by
  refine eq_of_run fun s => ?_
  rcases hrun : m.run s with ⟨es, _ | ⟨a, t⟩⟩
  · rw [run_bind_of_crash hrun, run_bind_of_crash hrun]
  · rw [run_bind_of_result hrun, run_bind_of_result hrun, hfg a (hm s es a t hrun)]

end Prog

end CourseCompilers.Lib
