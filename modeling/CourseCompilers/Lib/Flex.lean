import Mathlib.Data.List.Basic

/-! Scanner rules as `flex` reads them: of all patterns that match a prefix of the
input the one with the longest match wins, and of several the first. -/

namespace CourseCompilers.Lib

/-- Patterns over an alphabet; `cls p` is a character class. -/
inductive Pattern (α : Type) where
  | none
  | empty
  | cls (p : α → Bool)
  | seq (a b : Pattern α)
  | alt (a b : Pattern α)
  | star (a : Pattern α)

namespace Pattern
variable {α β : Type}

/-- A fixed word. -/
def word [DecidableEq α] (w : List α) : Pattern α :=
  w.foldr (fun c p => .seq (.cls (· = c)) p) .empty

def plus (a : Pattern α) : Pattern α := .seq a (.star a)

/-- The pattern matches the empty word. -/
def nullable : Pattern α → Bool
  | .none | .cls _ => false
  | .empty | .star _ => true
  | .seq a b => a.nullable && b.nullable
  | .alt a b => a.nullable || b.nullable

/-- What is left to match after `c`. -/
def deriv (c : α) : Pattern α → Pattern α
  | .none | .empty => .none
  | .cls p => if p c then .empty else .none
  | .seq a b => if a.nullable then .alt (.seq (a.deriv c) b) (b.deriv c) else .seq (a.deriv c) b
  | .alt a b => .alt (a.deriv c) (b.deriv c)
  | .star a => .seq (a.deriv c) (.star a)

/-- The length of the longest prefix of the input that the pattern matches. -/
def longest (p : Pattern α) : List α → Option Nat
  | [] => if p.nullable then some 0 else Option.none
  | c :: cs =>
      match (p.deriv c).longest cs with
      | some n => some (n + 1)
      | Option.none => if p.nullable then some 0 else Option.none

/-- The length of the longest match of all rules, and what the first rule with a
match of that length carries. -/
def firstLongest (cs : List α) : List (Pattern α × β) → Option (Nat × β)
  | [] => Option.none
  | (p, b) :: rules =>
      match p.longest cs, firstLongest cs rules with
      | some n, some (m, b') => if n < m then some (m, b') else some (n, b)
      | some n, Option.none => some (n, b)
      | Option.none, r => r

theorem longest_of_deriv_nullable {p : Pattern α} {c : α} (h : (p.deriv c).nullable = true)
    (cs : List α) : ∃ n, p.longest (c :: cs) = some (n + 1) := by
  have hlong : ∃ n, (p.deriv c).longest cs = some n := by
    cases cs with
    | nil => exact ⟨0, by simp [longest, h]⟩
    | cons d cs =>
      unfold longest
      split
      · exact ⟨_, rfl⟩
      · exact ⟨0, by simp [h]⟩
  obtain ⟨n, hn⟩ := hlong
  exact ⟨n, by rw [longest, hn]⟩

/-- No rule matches more than the rule that wins. -/
theorem le_firstLongest {cs : List α} {rules : List (Pattern α × β)} {p : Pattern α} {b : β}
    {n : Nat} (hmem : (p, b) ∈ rules) (hn : p.longest cs = some n) :
    ∃ m b', firstLongest cs rules = some (m, b') ∧ n ≤ m := by
  induction rules with
  | nil => cases hmem
  | cons r rules ih =>
    obtain ⟨q, d⟩ := r
    unfold firstLongest
    rcases List.mem_cons.mp hmem with heq | hmem
    · cases heq
      rw [hn]
      cases firstLongest cs rules with
      | none => exact ⟨n, b, rfl, Nat.le_refl n⟩
      | some r =>
        obtain ⟨m, b'⟩ := r
        by_cases hlt : n < m
        · exact ⟨m, b', by simp [hlt], by omega⟩
        · exact ⟨n, b, by simp [hlt], Nat.le_refl n⟩
    · obtain ⟨m, b', hm, hle⟩ := ih hmem
      rw [hm]
      cases q.longest cs with
      | none => exact ⟨m, b', rfl, hle⟩
      | some k =>
        by_cases hlt : k < m
        · exact ⟨m, b', by simp [hlt], hle⟩
        · exact ⟨k, d, by simp [hlt], by omega⟩

end Pattern

end CourseCompilers.Lib
