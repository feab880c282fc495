import Mathlib.Data.List.Basic

/-! Unambiguous phrases. A kind of phrase says which values are read from which tokens;
where it is known what may follow a phrase, at most one can be read from the front of a
text. Rules that are left recursive are read as chains. -/

namespace CourseCompilers.Lib

variable {α τ : Type}

/-- In front of what may follow, no other phrase is read than this one. -/
def Only (D : α → List τ → Prop) (follow : List τ → Prop) (a : α) (ts : List τ) : Prop :=
  ∀ a' ts' r r', D a' ts' → ts ++ r = ts' ++ r' → follow r → follow r' → a = a' ∧ ts = ts'

section
variable {D D' : α → List τ → Prop} {follow follow' : List τ → Prop} {a a' : α}
  {ts ts' r r' : List τ}

theorem Only.eq (h : Only D follow a ts) (h' : D a' ts') (heq : ts ++ r = ts' ++ r')
    (hr : follow r) (hr' : follow r') : a = a' ∧ ts = ts' ∧ r = r' := by
  obtain ⟨ha, rfl⟩ := h a' ts' r r' h' heq hr hr'
  exact ⟨ha, rfl, List.append_cancel_left heq⟩

theorem Only.mono (h : Only D follow a ts) (hD : ∀ a ts, D' a ts → D a ts)
    (hfollow : ∀ r, follow' r → follow r) : Only D' follow' a ts :=
  fun a' ts' r r' h' heq hr hr' =>
    h a' ts' r r' (hD a' ts' h') heq (hfollow r hr) (hfollow r' hr')

end

/-- One step after the other, each read from its own tokens. -/
inductive Chain (S : α → α → List τ → Prop) : α → α → List τ → Prop
  | nil (a : α) : Chain S a a []
  | cons {a b c : α} {ts us : List τ} : S a b ts → Chain S b c us → Chain S a c (ts ++ us)

variable {S : α → α → List τ → Prop} {inner outer : List τ → Prop} {a b c : α}
  {ts us r : List τ}

theorem Chain.single (h : S a b ts) : Chain S a b ts := by
  have hchain := Chain.cons h (.nil b)
  rwa [List.append_nil] at hchain

theorem Chain.append (h : Chain S a b ts) (h' : Chain S b c us) : Chain S a c (ts ++ us) := by
  induction h with
  | nil a => exact h'
  | cons hs _ ih =>
    rw [List.append_assoc]
    exact .cons hs (ih h')

theorem Chain.mono {S' : α → α → List τ → Prop} (hS : ∀ a b ts, S a b ts → S' a b ts)
    (h : Chain S a b ts) : Chain S' a b ts := by
  induction h with
  | nil a => exact .nil a
  | cons hs _ ih => exact .cons (hS _ _ _ hs) ih

/-- After a step there may be what follows the chain, or another step; what follows the
chain does not look like a step. -/
structure Separates (S : α → α → List τ → Prop) (inner outer : List τ → Prop) : Prop where
  step : ∀ a b ts r, S a b ts → inner (ts ++ r)
  last : ∀ r, outer r → inner r
  stop : ∀ a b ts r, S a b ts → ¬ outer (ts ++ r)

theorem Separates.follow (h : Separates S inner outer) (hc : Chain S a b ts) (hr : outer r) :
    inner (ts ++ r) := by
  cases hc with
  | nil => exact h.last r hr
  | cons hs _ =>
    rw [List.append_assoc]
    exact h.step _ _ _ _ hs

/-- If each step can be read in one way only, so can the chain. -/
theorem Chain.only (h : Separates S inner outer)
    (hc : Chain (fun a b ts => S a b ts ∧ Only (S a) inner b ts) a b ts) :
    Only (Chain S a) outer b ts := by
  induction hc with
  | nil a =>
    intro b' ts' r r' hc' heq hr hr'
    cases hc' with
    | nil => exact ⟨rfl, rfl⟩
    | cons hs _ =>
      rw [List.nil_append, List.append_assoc] at heq
      exact absurd (heq ▸ hr) (h.stop _ _ _ _ hs)
  | cons hs hc ih =>
    intro c' ts' r r' hc' heq hr hr'
    have hrest := hc.mono fun _ _ _ hs => hs.1
    cases hc' with
    | nil =>
      rw [List.nil_append, List.append_assoc] at heq
      exact absurd (heq ▸ hr') (h.stop _ _ _ _ hs.1)
    | cons hs' hc' =>
      rw [List.append_assoc, List.append_assoc] at heq
      obtain ⟨rfl, rfl, hend⟩ := hs.2.eq hs' heq (h.follow hrest hr) (h.follow hc' hr')
      obtain ⟨hc, rfl⟩ := ih _ _ _ _ hc' hend hr hr'
      exact ⟨hc, rfl⟩

/-- A first phrase and a chain of steps. -/
def Begun (D : α → List τ → Prop) (S : α → α → List τ → Prop) (b : α) (ts : List τ) : Prop :=
  ∃ a us ws, D a us ∧ Chain S a b ws ∧ ts = us ++ ws

theorem Only.begun {D : α → List τ → Prop} (h : Separates S inner outer)
    (ha : Only D inner a ts)
    (hc : Chain (fun a b ts => S a b ts ∧ Only (S a) inner b ts) a b us) :
    Only (Begun D S) outer b (ts ++ us) := by
  rintro b' _ r r' ⟨a', ts', us', ha', hc', rfl⟩ heq hr hr'
  have hrest := hc.mono fun _ _ _ hs => hs.1
  rw [List.append_assoc, List.append_assoc] at heq
  obtain ⟨rfl, rfl, hend⟩ := ha.eq ha' heq (h.follow hrest hr) (h.follow hc' hr')
  obtain ⟨hb, rfl⟩ := Chain.only h hc _ _ _ _ hc' hend hr hr'
  exact ⟨hb, rfl⟩

end CourseCompilers.Lib
