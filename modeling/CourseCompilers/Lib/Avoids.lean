import CourseCompilers.Lib.Matching

/-! Facts about all words of a pattern that are read off the pattern, so that they can
be decided for the rules of a scanner. -/

namespace CourseCompilers.Lib.Pattern
open scoped Computability

variable {α : Type}

/-- The pattern matches nothing. -/
def isVoid : Pattern α → Bool
  | .none => true
  | .empty | .cls _ | .star _ => false
  | .seq a b => a.isVoid || b.isVoid
  | .alt a b => a.isVoid && b.isVoid

/-- The pattern matches at most the empty word. -/
def onlyNil : Pattern α → Bool
  | .none | .empty => true
  | .cls _ => false
  | .seq a b => a.isVoid || b.isVoid || a.onlyNil && b.onlyNil
  | .alt a b => a.onlyNil && b.onlyNil
  | .star a => a.onlyNil

/-- No word has `d` in it. -/
def avoids (d : α) : Pattern α → Bool
  | .none | .empty => true
  | .cls p => !p d
  | .seq a b | .alt a b => a.avoids d && b.avoids d
  | .star a => a.avoids d

/-- No word has `d` behind its first element. -/
def tailAvoids (d : α) : Pattern α → Bool
  | .none | .empty | .cls _ => true
  | .seq a b => a.tailAvoids d && b.avoids d
  | .alt a b => a.tailAvoids d && b.tailAvoids d
  | .star a => a.avoids d

theorem notMem_of_isVoid {p : Pattern α} (h : p.isVoid = true) (w : List α) :
    w ∉ p.language := by
  induction p generalizing w with
  | none => exact Language.notMem_zero w
  | empty | cls p | star a _ => cases h
  | seq a b iha ihb =>
    rw [mem_language_seq]
    rintro ⟨u, hu, v, hv, _⟩
    rw [isVoid, Bool.or_eq_true] at h
    rcases h with h | h
    · exact iha h u hu
    · exact ihb h v hv
  | alt a b iha ihb =>
    rw [isVoid, Bool.and_eq_true] at h
    rw [mem_language_alt]
    rintro (hw | hw)
    · exact iha h.1 w hw
    · exact ihb h.2 w hw

theorem eq_nil_of_onlyNil {p : Pattern α} (h : p.onlyNil = true) {w : List α}
    (hw : w ∈ p.language) : w = [] := by
  induction p generalizing w with
  | none => exact absurd hw (Language.notMem_zero w)
  | empty => exact hw
  | cls p => cases h
  | seq a b iha ihb =>
    rw [onlyNil, Bool.or_eq_true, Bool.or_eq_true, Bool.and_eq_true] at h
    obtain ⟨u, hu, v, hv, rfl⟩ := mem_language_seq.mp hw
    rcases h with (h | h) | h
    · exact absurd hu (notMem_of_isVoid h u)
    · exact absurd hv (notMem_of_isVoid h v)
    · rw [iha h.1 hu, ihb h.2 hv, List.append_nil]
  | alt a b iha ihb =>
    rw [onlyNil, Bool.and_eq_true] at h
    rcases mem_language_alt.mp hw with hw | hw
    · exact iha h.1 hw
    · exact ihb h.2 hw
  | star a ih =>
    obtain ⟨L, rfl, hL⟩ := Language.mem_kstar.mp hw
    exact List.flatten_eq_nil_iff.mpr fun v hv => ih h (hL v hv)

theorem notMem_of_avoids {d : α} {p : Pattern α} (h : p.avoids d = true) {w : List α}
    (hw : w ∈ p.language) : d ∉ w := by
  induction p generalizing w with
  | none => exact absurd hw (Language.notMem_zero w)
  | empty =>
    obtain rfl : w = [] := hw
    exact List.not_mem_nil
  | cls p =>
    obtain ⟨c, hc, rfl⟩ := hw
    intro hd
    obtain rfl := List.mem_singleton.mp hd
    simp [avoids, hc] at h
  | seq a b iha ihb =>
    rw [avoids, Bool.and_eq_true] at h
    obtain ⟨u, hu, v, hv, rfl⟩ := mem_language_seq.mp hw
    rw [List.mem_append, not_or]
    exact ⟨iha h.1 hu, ihb h.2 hv⟩
  | alt a b iha ihb =>
    rw [avoids, Bool.and_eq_true] at h
    rcases mem_language_alt.mp hw with hw | hw
    · exact iha h.1 hw
    · exact ihb h.2 hw
  | star a ih =>
    obtain ⟨L, rfl, hL⟩ := Language.mem_kstar.mp hw
    rw [List.mem_flatten]
    rintro ⟨v, hv, hd⟩
    exact ih h (hL v hv) hd

theorem notMem_of_tailAvoids {d : α} {p : Pattern α} (h : p.tailAvoids d = true) {c : α}
    {w : List α} (hw : c :: w ∈ p.language) : d ∉ w := by
  induction p generalizing c w with
  | none => exact absurd hw (Language.notMem_zero _)
  | empty => cases hw
  | cls p =>
    obtain ⟨_, _, heq⟩ := hw
    cases heq
    exact List.not_mem_nil
  | seq a b iha ihb =>
    rw [tailAvoids, Bool.and_eq_true] at h
    rcases cons_mem_seq.mp hw with ⟨u, v, rfl, hu, hv⟩ | ⟨_, hv⟩
    · rw [List.mem_append, not_or]
      exact ⟨iha h.1 hu, notMem_of_avoids h.2 hv⟩
    · exact fun hd => notMem_of_avoids h.2 hv (List.mem_cons_of_mem c hd)
  | alt a b iha ihb =>
    rw [tailAvoids, Bool.and_eq_true] at h
    rcases mem_language_alt.mp hw with hw | hw
    · exact iha h.1 hw
    · exact ihb h.2 hw
  | star a _ =>
    have havoids : (star a).avoids d = true := h
    exact fun hd => notMem_of_avoids havoids hw (List.mem_cons_of_mem c hd)

/-! ## The start of the input -/

/-- What is left to match after `u`. -/
def derivs (u : List α) (p : Pattern α) : Pattern α := u.foldl (fun p c => p.deriv c) p

theorem add_mem_matchLengths {p : Pattern α} {u cs : List α} {n : Nat} :
    u.length + n ∈ p.matchLengths (u ++ cs) ↔ n ∈ (p.derivs u).matchLengths cs := by
  induction u generalizing p with
  | nil => rw [List.length_nil, Nat.zero_add]; rfl
  | cons c u ih =>
    rw [List.length_cons, Nat.add_right_comm, List.cons_append, succ_mem_matchLengths, ih]
    rfl

theorem le_of_onlyNil {p : Pattern α} {u cs : List α} {n : Nat}
    (h : (p.derivs u).onlyNil = true) (hn : n ∈ p.matchLengths (u ++ cs)) : n ≤ u.length := by
  by_contra hlt
  obtain ⟨k, rfl⟩ := Nat.exists_eq_add_of_lt (Nat.not_le.mp hlt)
  rw [Nat.add_assoc, add_mem_matchLengths] at hn
  have hlen := congrArg List.length (eq_nil_of_onlyNil h hn.2)
  rw [List.length_take, Nat.min_eq_left hn.1] at hlen
  cases hlen

/-- If no rule matches more than `u` in front of the input, a rule that matches all of
`u` wins. -/
theorem firstLongest_start {β : Type} {u cs : List α} {rules : List (Pattern α × β)}
    {good : β → Bool} (h : rules.all (fun r => (r.1.derivs u).onlyNil &&
      (!(r.1.derivs u).nullable || good r.2)) = true) {n : Nat} {b : β}
    (hwin : firstLongest (u ++ cs) rules = some (n, b)) (hle : u.length ≤ n) :
    n = u.length ∧ good b = true := by
  obtain ⟨r, hr, hlong, rfl⟩ := exists_longest_of_firstLongest hwin
  have hmem := matchLengths_of_longest hlong
  have hcheck := List.all_eq_true.mp h r hr
  rw [Bool.and_eq_true, Bool.or_eq_true, Bool.not_eq_true'] at hcheck
  obtain rfl := Nat.le_antisymm (le_of_onlyNil hcheck.1 hmem) hle
  refine ⟨rfl, hcheck.2.resolve_left fun hnot => ?_⟩
  have hzero : 0 ∈ (r.1.derivs u).matchLengths cs := add_mem_matchLengths.mp hmem
  rw [zero_mem_matchLengths, hnot] at hzero
  cases hzero

end CourseCompilers.Lib.Pattern
