import Mathlib.Data.List.Nodup

/-! Going through a list with nothing but the last element as a position: the next
element is the one after its first occurrence. That is a position as long as no
element repeats; a repeated element leads back to where it was met first. -/

namespace CourseCompilers.Lib

variable {α : Type*}

/-- What repeated calls give, each one given the result of the one before. -/
def calls (first : Option α) (next : α → Option α) : Nat → Option α
  | 0 => first
  | n + 1 => (calls first next n).bind next

/-- The calls come to an end and have given every element of `l` by then. -/
def Complete (first : Option α) (next : α → Option α) (l : List α) : Prop :=
  ∃ n, calls first next n = none ∧ ∀ x ∈ l, ∃ k < n, calls first next k = some x

theorem calls_eq_self {x : α} {next : α → Option α} (h : next x = some x) (n : Nat) :
    calls (some x) next n = some x := by
  induction n with
  | zero => rfl
  | succ n ih => rw [calls, ih, Option.bind_some, h]

variable [DecidableEq α]

/-- The element after the first `x`; the flag tells that `x` has just been passed. -/
def nextAfter (x : α) : Bool → List α → Option α
  | _, [] => none
  | true, y :: _ => some y
  | false, y :: l => nextAfter x (y = x) l

/-- The calls that go through a list. -/
def cursor (l : List α) : Nat → Option α := calls l.head? fun x => nextAfter x false l

theorem nextAfter_true (x : α) (l : List α) : nextAfter x true l = l.head? := by
  cases l <;> rfl

theorem nextAfter_append {x : α} {l : List α} (hx : x ∉ l) (r : List α) :
    nextAfter x false (l ++ x :: r) = r.head? := by
  induction l with
  | nil =>
    rw [List.nil_append, nextAfter, decide_eq_true rfl]
    exact nextAfter_true x r
  | cons y l ih =>
    rw [List.mem_cons, not_or] at hx
    rw [List.cons_append, nextAfter, decide_eq_false (Ne.symm hx.1)]
    exact ih hx.2

/-- Without repetitions the calls give the elements in turn. -/
theorem cursor_eq_getElem? {l : List α} (h : l.Nodup) (n : Nat) : cursor l n = l[n]? := by
  induction n with
  | zero => exact List.head?_eq_getElem?
  | succ n ih =>
    rw [cursor, calls, ← cursor, ih]
    by_cases hn : n < l.length
    · have hsplit : l = l.take n ++ l[n] :: l.drop (n + 1) := by simp
      have hx : l[n] ∉ l.take n := by
        rw [hsplit] at h
        exact fun hmem => (List.nodup_append.mp h).2.2 _ hmem _ List.mem_cons_self rfl
      have hnext := nextAfter_append hx (l.drop (n + 1))
      rw [← hsplit, List.head?_drop] at hnext
      rw [List.getElem?_eq_getElem hn, Option.bind_some, hnext]
    · rw [List.getElem?_eq_none (by omega), List.getElem?_eq_none (by omega), Option.bind_none]

theorem exists_repeat {l : List α} (h : ¬ l.Nodup) : ∃ p x r, l = p ++ x :: r ∧ x ∈ p := by
  induction l with
  | nil => exact absurd List.nodup_nil h
  | cons a l ih =>
    by_cases ha : a ∈ l
    · obtain ⟨p, r, rfl⟩ := List.append_of_mem ha
      exact ⟨a :: p, a, r, rfl, List.mem_cons_self⟩
    · obtain ⟨p, x, r, rfl, hx⟩ := ih fun hl => h (List.nodup_cons.mpr ⟨ha, hl⟩)
      exact ⟨a :: p, x, r, rfl, List.mem_cons_of_mem a hx⟩

/-- The calls never leave a prefix that the element after it repeats. -/
theorem cursor_mem_prefix {p r : List α} {x : α} (hx : x ∈ p) (n : Nat) :
    ∃ y ∈ p, cursor (p ++ x :: r) n = some y := by
  induction n with
  | zero =>
    cases p with
    | nil => cases hx
    | cons y p => exact ⟨y, List.mem_cons_self, rfl⟩
  | succ n ih =>
    obtain ⟨y, hy, hn⟩ := ih
    obtain ⟨as, bs, rfl, hyas⟩ := List.eq_append_cons_of_mem hy
    have hnext := nextAfter_append hyas (bs ++ x :: r)
    rw [cursor, calls, ← cursor, hn, Option.bind_some, List.append_assoc, List.cons_append, hnext]
    cases bs with
    | nil => exact ⟨x, hx, rfl⟩
    | cons b bs => exact ⟨b, by simp, rfl⟩

/-- Going through a list is complete exactly if no element repeats. -/
theorem cursor_complete_iff (l : List α) :
    Complete l.head? (fun x => nextAfter x false l) l ↔ l.Nodup := by
  constructor
  · rintro ⟨n, hn, _⟩
    by_contra h
    obtain ⟨p, x, r, rfl, hx⟩ := exists_repeat h
    obtain ⟨y, _, hy⟩ := cursor_mem_prefix (r := r) hx n
    rw [cursor, hn] at hy
    cases hy
  · intro h
    have hcalls := cursor_eq_getElem? h
    refine ⟨l.length, (hcalls _).trans (List.getElem?_eq_none (Nat.le_refl _)), ?_⟩
    intro x hx
    obtain ⟨k, hk, rfl⟩ := List.mem_iff_getElem.mp hx
    exact ⟨k, hk, (hcalls k).trans (List.getElem?_eq_getElem hk)⟩

end CourseCompilers.Lib
