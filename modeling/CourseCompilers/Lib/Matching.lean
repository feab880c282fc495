import CourseCompilers.Lib.Flex
import Mathlib.Computability.Language
import Mathlib.Data.List.TakeWhile
import Mathlib.Order.Bounds.Basic

/-! What the patterns of a scanner match, as languages. The longest match of a pattern
and the rule that wins depend on these languages alone. -/

namespace CourseCompilers.Lib.Pattern
open scoped Computability

variable {α β : Type}

def language : Pattern α → Language α
  | .none => 0
  | .empty => 1
  | .cls p => {w | ∃ c, p c = true ∧ w = [c]}
  | .seq a b => a.language * b.language
  | .alt a b => a.language + b.language
  | .star a => a.language∗

theorem mem_language_cls {p : α → Bool} {w : List α} :
    w ∈ (cls p).language ↔ ∃ c, p c = true ∧ w = [c] := Iff.rfl

theorem mem_language_seq {a b : Pattern α} {w : List α} :
    w ∈ (seq a b).language ↔ ∃ u ∈ a.language, ∃ v ∈ b.language, u ++ v = w := Language.mem_mul

theorem mem_language_alt {a b : Pattern α} {w : List α} :
    w ∈ (alt a b).language ↔ w ∈ a.language ∨ w ∈ b.language := Language.mem_add _ _ _

theorem nullable_iff (p : Pattern α) : p.nullable = true ↔ [] ∈ p.language := by
  induction p with
  | none => simp [nullable, language]
  | empty => simp [nullable, language]
  | cls p => simp [nullable, mem_language_cls]
  | seq a b iha ihb => simp [nullable, mem_language_seq, iha, ihb]
  | alt a b iha ihb => simp [nullable, mem_language_alt, iha, ihb]
  | star a _ => simp [nullable, language, Language.nil_mem_kstar]

theorem cons_mem_seq {a b : Pattern α} {c : α} {w : List α} :
    c :: w ∈ (seq a b).language ↔
      (∃ u v, w = u ++ v ∧ c :: u ∈ a.language ∧ v ∈ b.language) ∨
        [] ∈ a.language ∧ c :: w ∈ b.language := by
  rw [mem_language_seq]
  constructor
  · rintro ⟨u, hu, v, hv, heq⟩
    cases u with
    | nil => exact .inr ⟨hu, heq ▸ hv⟩
    | cons d u =>
      obtain ⟨rfl, rfl⟩ := List.cons.inj heq
      exact .inl ⟨u, v, rfl, hu, hv⟩
  · rintro (⟨u, v, rfl, hu, hv⟩ | ⟨hnil, hw⟩)
    · exact ⟨c :: u, hu, v, hv, rfl⟩
    · exact ⟨[], hnil, c :: w, hw, rfl⟩

theorem cons_mem_star {a : Pattern α} {c : α} {w : List α} :
    c :: w ∈ (star a).language ↔
      ∃ u v, w = u ++ v ∧ c :: u ∈ a.language ∧ v ∈ (star a).language := by
  constructor
  · intro h
    obtain ⟨L, heq, hL⟩ := Language.mem_kstar_iff_exists_nonempty.mp h
    cases L with
    | nil => cases heq
    | cons u L =>
      obtain ⟨hu, hne⟩ := hL u List.mem_cons_self
      cases u with
      | nil => exact absurd rfl hne
      | cons d u =>
        rw [List.flatten_cons, List.cons_append, List.cons.injEq] at heq
        obtain ⟨rfl, rfl⟩ := heq
        exact ⟨u, L.flatten, rfl, hu,
          Language.join_mem_kstar fun v hv => (hL v (List.mem_cons_of_mem _ hv)).1⟩
  · rintro ⟨u, v, rfl, hu, hv⟩
    obtain ⟨L, rfl, hL⟩ := Language.mem_kstar.mp hv
    exact Language.join_mem_kstar (L := (c :: u) :: L) (List.forall_mem_cons.mpr ⟨hu, hL⟩)

/-- The derivative matches what is left after `c`. -/
theorem mem_language_deriv (p : Pattern α) (c : α) (w : List α) :
    w ∈ (p.deriv c).language ↔ c :: w ∈ p.language := by
  induction p generalizing w with
  | none => simp [deriv, language]
  | empty => simp [deriv, language]
  | cls p =>
    rw [deriv, mem_language_cls]
    by_cases hp : p c = true
    · simp [hp, language]
    · simp [hp, language]
  | seq a b iha ihb =>
    have hseq : w ∈ (seq (a.deriv c) b).language ↔
        ∃ u v, w = u ++ v ∧ c :: u ∈ a.language ∧ v ∈ b.language := by
      simp only [mem_language_seq, iha]
      constructor
      · rintro ⟨u, hu, v, hv, rfl⟩
        exact ⟨u, v, rfl, hu, hv⟩
      · rintro ⟨u, v, rfl, hu, hv⟩
        exact ⟨u, hu, v, hv, rfl⟩
    rw [deriv, cons_mem_seq, ← nullable_iff]
    by_cases hnull : a.nullable = true
    · rw [if_pos hnull, mem_language_alt, hseq, ihb]
      simp [hnull]
    · rw [if_neg hnull, hseq]
      simp [hnull]
  | alt a b iha ihb => rw [deriv, mem_language_alt, mem_language_alt, iha, ihb]
  | star a ih =>
    rw [deriv, mem_language_seq, cons_mem_star]
    simp only [ih]
    constructor
    · rintro ⟨u, hu, v, hv, rfl⟩
      exact ⟨u, v, rfl, hu, hv⟩
    · rintro ⟨u, v, rfl, hu, hv⟩
      exact ⟨u, hu, v, hv, rfl⟩

/-! ## The longest match -/

/-- The lengths of the prefixes of the input that the pattern matches. -/
def matchLengths (p : Pattern α) (cs : List α) : Set Nat :=
  {n | n ≤ cs.length ∧ cs.take n ∈ p.language}

theorem mem_matchLengths {p : Pattern α} {cs : List α} {n : Nat} :
    n ∈ p.matchLengths cs ↔ n ≤ cs.length ∧ cs.take n ∈ p.language := Iff.rfl

theorem zero_mem_matchLengths {p : Pattern α} {cs : List α} :
    0 ∈ p.matchLengths cs ↔ p.nullable = true := by
  simp [mem_matchLengths, nullable_iff]

theorem succ_mem_matchLengths {p : Pattern α} {c : α} {cs : List α} {n : Nat} :
    n + 1 ∈ p.matchLengths (c :: cs) ↔ n ∈ (p.deriv c).matchLengths cs := by
  simp [mem_matchLengths, mem_language_deriv]

theorem matchLengths_of_longest {p : Pattern α} {cs : List α} {n : Nat}
    (h : p.longest cs = some n) : n ∈ p.matchLengths cs := by
  induction cs generalizing p n with
  | nil =>
    rw [longest] at h
    split at h
    · cases h
      rwa [zero_mem_matchLengths]
    · cases h
  | cons c cs ih =>
    rw [longest] at h
    split at h
    · rename_i m hm
      cases h
      exact succ_mem_matchLengths.mpr (ih hm)
    · split at h
      · cases h
        rwa [zero_mem_matchLengths]
      · cases h

theorem le_longest {p : Pattern α} {cs : List α} {n : Nat} (h : n ∈ p.matchLengths cs) :
    ∃ m, p.longest cs = some m ∧ n ≤ m := by
  induction cs generalizing p n with
  | nil =>
    obtain rfl : n = 0 := Nat.le_zero.mp h.1
    rw [zero_mem_matchLengths] at h
    exact ⟨0, by simp [longest, h], Nat.le_refl 0⟩
  | cons c cs ih =>
    rw [longest]
    cases n with
    | zero =>
      rw [zero_mem_matchLengths] at h
      cases (p.deriv c).longest cs with
      | none => exact ⟨0, by simp [h], Nat.le_refl 0⟩
      | some m => exact ⟨m + 1, rfl, Nat.zero_le _⟩
    | succ n =>
      obtain ⟨m, hm, hle⟩ := ih (succ_mem_matchLengths.mp h)
      exact ⟨m + 1, by rw [hm], Nat.succ_le_succ hle⟩

/-- Some rule wins with at least the length that one of them matches. -/
theorem le_firstLongest_of_match {rules : List (Pattern α × β)} {p : Pattern α} {b : β}
    {cs : List α} {n : Nat} (hmem : (p, b) ∈ rules) (hn : n ∈ p.matchLengths cs) :
    ∃ m b', firstLongest cs rules = some (m, b') ∧ n ≤ m := by
  obtain ⟨k, hk, hnk⟩ := le_longest hn
  obtain ⟨m, b', hm, hkm⟩ := le_firstLongest hmem hk
  exact ⟨m, b', hm, hnk.trans hkm⟩

theorem longest_eq_some_iff {p : Pattern α} {cs : List α} {n : Nat} :
    p.longest cs = some n ↔ IsGreatest (p.matchLengths cs) n := by
  constructor
  · intro h
    refine ⟨matchLengths_of_longest h, fun k hk => ?_⟩
    obtain ⟨m, hm, hle⟩ := le_longest hk
    cases h.symm.trans hm
    exact hle
  · rintro ⟨hmem, hmax⟩
    obtain ⟨m, hm, hle⟩ := le_longest hmem
    rw [hm, Nat.le_antisymm (hmax (matchLengths_of_longest hm)) hle]

theorem longest_eq_none_iff {p : Pattern α} {cs : List α} :
    p.longest cs = Option.none ↔ p.matchLengths cs = ∅ := by
  rw [Set.eq_empty_iff_forall_notMem]
  constructor
  · intro h n hn
    obtain ⟨m, hm, _⟩ := le_longest hn
    cases h.symm.trans hm
  · intro h
    cases hlong : p.longest cs with
    | none => rfl
    | some n => exact absurd (matchLengths_of_longest hlong) (h n)

theorem longest_congr {p : Pattern α} {cs cs' : List α}
    (h : p.matchLengths cs = p.matchLengths cs') : p.longest cs = p.longest cs' := by
  cases hlong : p.longest cs with
  | none => rw [eq_comm, longest_eq_none_iff, ← h, ← longest_eq_none_iff, hlong]
  | some n => rw [eq_comm, longest_eq_some_iff, ← h, ← longest_eq_some_iff, hlong]

/-! ## The rule that wins -/

theorem firstLongest_congr {cs cs' : List α} {rules : List (Pattern α × β)}
    (h : ∀ r ∈ rules, r.1.longest cs = r.1.longest cs') :
    firstLongest cs rules = firstLongest cs' rules := by
  induction rules with
  | nil => rfl
  | cons r rules ih =>
    obtain ⟨p, b⟩ := r
    rw [List.forall_mem_cons] at h
    rw [firstLongest, firstLongest, h.1, ih h.2]

/-- The winning length is the length of a match. -/
theorem exists_longest_of_firstLongest {cs : List α} {rules : List (Pattern α × β)} {m : Nat}
    {b : β} (h : firstLongest cs rules = some (m, b)) :
    ∃ r ∈ rules, r.1.longest cs = some m ∧ r.2 = b := by
  induction rules with
  | nil => cases h
  | cons r rules ih =>
    obtain ⟨p, b'⟩ := r
    rw [firstLongest] at h
    split at h
    · rename_i n k d hp hrest
      split at h
      · cases h
        obtain ⟨r, hr, hlong⟩ := ih hrest
        exact ⟨r, List.mem_cons_of_mem _ hr, hlong⟩
      · cases h
        exact ⟨_, List.mem_cons_self, hp, rfl⟩
    · rename_i n hp _
      cases h
      exact ⟨_, List.mem_cons_self, hp, rfl⟩
    · obtain ⟨r, hr, hlong⟩ := ih h
      exact ⟨r, List.mem_cons_of_mem _ hr, hlong⟩

/-- If no rule matches more than `n` characters, the first that matches as many wins. -/
theorem firstLongest_eq_find {cs : List α} {rules : List (Pattern α × β)} {n : Nat}
    {r : Pattern α × β} (h : ∀ r ∈ rules, ∀ k, r.1.longest cs = some k → k ≤ n)
    (hfind : rules.find? (fun r => r.1.longest cs = some n) = some r) :
    firstLongest cs rules = some (n, r.2) := by
  induction rules with
  | nil => cases hfind
  | cons r' rules ih =>
    obtain ⟨p, b⟩ := r'
    rw [List.forall_mem_cons] at h
    by_cases hp : p.longest cs = some n
    · rw [List.find?_cons_of_pos (by simpa using hp)] at hfind
      cases hfind
      rw [firstLongest, hp]
      cases hrest : firstLongest cs rules with
      | none => rfl
      | some s =>
        obtain ⟨m, d⟩ := s
        obtain ⟨r, hr, hm, _⟩ := exists_longest_of_firstLongest hrest
        simp [Nat.not_lt.mpr (h.2 r hr m hm)]
    · rw [List.find?_cons_of_neg (by simpa using hp)] at hfind
      rw [firstLongest, ih h.2 hfind]
      cases hk : p.longest cs with
      | none => rfl
      | some k =>
        have hle := h.1 k hk
        have hne : k ≠ n := fun heq => hp (heq ▸ hk)
        simp [Nat.lt_of_le_of_ne hle hne]

/-- A word that no rule goes beyond is matched by the first rule it belongs to. -/
theorem firstLongest_of_word {w cs : List α} {before after : List (Pattern α × β)} {p : Pattern α}
    {b : β} (hp : w ∈ p.language) (hbefore : ∀ r ∈ before, w ∉ r.1.language)
    (hmore : ∀ c ∈ cs.head?, ∀ r ∈ before ++ (p, b) :: after, ∀ us,
      w ++ c :: us ∉ r.1.language) :
    firstLongest (w ++ cs) (before ++ (p, b) :: after) = some (w.length, b) := by
  have hle : ∀ r ∈ before ++ (p, b) :: after, ∀ n ∈ r.1.matchLengths (w ++ cs),
      n ≤ w.length := by
    rintro r hr n ⟨hn, hmem⟩
    by_contra hlt
    cases cs with
    | nil =>
      rw [List.append_nil] at hn
      exact hlt hn
    | cons c cs =>
      obtain ⟨k, rfl⟩ : ∃ k, n = w.length + (k + 1) := ⟨n - w.length - 1, by omega⟩
      rw [List.take_length_add_append, List.take_succ_cons] at hmem
      exact hmore c rfl r hr _ hmem
  have hlong : p.longest (w ++ cs) = some w.length := by
    refine longest_eq_some_iff.mpr ⟨⟨by simp, by rwa [List.take_left]⟩, fun n hn => ?_⟩
    exact hle (p, b) (by simp) n hn
  have hnot : ∀ r ∈ before, ¬ r.1.longest (w ++ cs) = some w.length := by
    intro r hr hr'
    have hmem := (matchLengths_of_longest hr').2
    rw [List.take_left] at hmem
    exact hbefore r hr hmem
  refine firstLongest_eq_find (r := (p, b)) (fun r hr k hk => ?_) ?_
  · exact hle r hr k (matchLengths_of_longest hk)
  · rw [List.find?_append, List.find?_eq_none.mpr (by simpa using hnot), Option.none_or,
      List.find?_cons_of_pos (by simpa using hlong)]

/-- The first rule wins if nothing is longer than its match. -/
theorem eq_of_longest_head {cs : List α} {rules : List (Pattern α × β)} {p : Pattern α} {b b' : β}
    {n : Nat} (hp : p.longest cs = some n) (h : firstLongest cs ((p, b) :: rules) = some (n, b')) :
    b' = b := by
  rw [firstLongest, hp] at h
  cases hrest : firstLongest cs rules with
  | none =>
    rw [hrest] at h
    cases h
    rfl
  | some r =>
    obtain ⟨m, d⟩ := r
    by_cases hlt : n < m
    · simp only [hrest, hlt, ↓reduceIte, Option.some.injEq, Prod.mk.injEq] at h
      omega
    · simp only [hrest, hlt, ↓reduceIte, Option.some.injEq, Prod.mk.injEq] at h
      exact h.2.symm

/-- The longer of two matches, the first of two equally long ones. -/
def longer : Option (Nat × β) → Option (Nat × β) → Option (Nat × β)
  | some (n, b), some (m, b') => if n < m then some (m, b') else some (n, b)
  | some r, Option.none => some r
  | Option.none, r => r

theorem longer_none (r : Option (Nat × β)) : longer r Option.none = r := by
  rcases r with _ | r <;> rfl

theorem longer_assoc (r s t : Option (Nat × β)) :
    longer (longer r s) t = longer r (longer s t) := by
  rcases r with _ | ⟨n, b⟩
  · rfl
  rcases s with _ | ⟨m, b'⟩
  · rfl
  rcases t with _ | ⟨k, b''⟩
  · rw [longer_none, longer_none]
  simp only [longer]
  by_cases hnm : n < m <;> by_cases hmk : m < k <;> by_cases hnk : n < k <;>
    simp only [hnm, hmk, hnk, if_true, if_false] <;> omega

theorem firstLongest_cons (cs : List α) (p : Pattern α) (b : β) (rules : List (Pattern α × β)) :
    firstLongest cs ((p, b) :: rules) =
      longer ((p.longest cs).map fun n => (n, b)) (firstLongest cs rules) := by
  rw [firstLongest]
  cases p.longest cs with
  | none => rfl
  | some n =>
    rcases firstLongest cs rules with _ | r <;> rfl

theorem firstLongest_append (cs : List α) (rules rules' : List (Pattern α × β)) :
    firstLongest cs (rules ++ rules') =
      longer (firstLongest cs rules) (firstLongest cs rules') := by
  induction rules with
  | nil => rfl
  | cons r rules ih => rw [List.cons_append, firstLongest_cons, ih, firstLongest_cons, longer_assoc]

/-- A second rule for a pattern never wins. -/
theorem firstLongest_duplicate {cs : List α} {rules rules' : List (Pattern α × β)}
    {p : Pattern α} {b b' : β} (h : (p, b) ∈ rules) :
    firstLongest cs (rules ++ (p, b') :: rules') = firstLongest cs (rules ++ rules') := by
  have hkeep : longer (firstLongest cs rules) ((p.longest cs).map fun n => (n, b')) =
      firstLongest cs rules := by
    cases hlong : p.longest cs with
    | none => rw [Option.map_none, longer_none]
    | some n =>
      obtain ⟨m, d, hm, hle⟩ := le_firstLongest h hlong
      rw [hm, Option.map_some, longer, if_neg (Nat.not_lt.mpr hle)]
  rw [firstLongest_append, firstLongest_cons, ← longer_assoc, hkeep, firstLongest_append]

/-! ## Words and classes -/

theorem mem_language_word [DecidableEq α] {u w : List α} : w ∈ (word u).language ↔ w = u := by
  induction u generalizing w with
  | nil => rfl
  | cons c u ih =>
    rw [word, List.foldr_cons, ← word, mem_language_seq]
    constructor
    · rintro ⟨_, ⟨d, hd, rfl⟩, v, hv, rfl⟩
      rw [ih] at hv
      rw [decide_eq_true_eq] at hd
      rw [hd, hv, List.singleton_append]
    · rintro rfl
      exact ⟨[c], ⟨c, by simp, rfl⟩, u, ih.mpr rfl, rfl⟩

/-- If `a` matches the single elements with a property, its repetition matches the
lists of these. -/
theorem mem_language_star_single {a : Pattern α} {p : α → Prop}
    (ha : ∀ w, w ∈ a.language ↔ ∃ c, p c ∧ w = [c]) {w : List α} :
    w ∈ (star a).language ↔ ∀ c ∈ w, p c := by
  induction w with
  | nil => exact ⟨fun _ c hc => absurd hc List.not_mem_nil, fun _ => Language.nil_mem_kstar _⟩
  | cons c w ih =>
    rw [cons_mem_star, List.forall_mem_cons, ← ih]
    constructor
    · rintro ⟨u, v, rfl, hu, hv⟩
      obtain ⟨d, hd, heq⟩ := (ha _).mp hu
      cases heq
      exact ⟨hd, hv⟩
    · rintro ⟨hc, hw⟩
      exact ⟨[], w, rfl, (ha [c]).mpr ⟨c, hc, rfl⟩, hw⟩

theorem mem_language_plus_single {a : Pattern α} {p : α → Prop}
    (ha : ∀ w, w ∈ a.language ↔ ∃ c, p c ∧ w = [c]) {w : List α} :
    w ∈ (plus a).language ↔ w ≠ [] ∧ ∀ c ∈ w, p c := by
  rw [plus, mem_language_seq]
  constructor
  · rintro ⟨u, hu, v, hv, rfl⟩
    obtain ⟨c, hc, rfl⟩ := (ha u).mp hu
    rw [mem_language_star_single ha] at hv
    exact ⟨List.cons_ne_nil _ _, List.forall_mem_cons.mpr ⟨hc, hv⟩⟩
  · rintro ⟨hne, hall⟩
    cases w with
    | nil => exact absurd rfl hne
    | cons c w =>
      rw [List.forall_mem_cons] at hall
      exact ⟨[c], (ha [c]).mpr ⟨c, hall.1, rfl⟩, w, (mem_language_star_single ha).mpr hall.2, rfl⟩

theorem mem_language_star_cls {p : α → Bool} {w : List α} :
    w ∈ (star (cls p)).language ↔ ∀ c ∈ w, p c = true :=
  mem_language_star_single fun _ => mem_language_cls

theorem mem_language_plus_cls {p : α → Bool} {w : List α} :
    w ∈ (plus (cls p)).language ↔ w ≠ [] ∧ ∀ c ∈ w, p c = true :=
  mem_language_plus_single fun _ => mem_language_cls

theorem le_length_takeWhile {p : α → Bool} {cs : List α} {n : Nat} (hle : n ≤ cs.length)
    (h : ∀ c ∈ cs.take n, p c = true) : n ≤ (cs.takeWhile p).length := by
  induction cs generalizing n with
  | nil => exact hle
  | cons c cs ih =>
    cases n with
    | zero => exact Nat.zero_le _
    | succ n =>
      rw [List.take_succ_cons, List.forall_mem_cons] at h
      rw [List.takeWhile_cons_of_pos h.1]
      exact Nat.succ_le_succ (ih (Nat.le_of_succ_le_succ hle) h.2)

theorem longest_star_cls (p : α → Bool) (cs : List α) :
    (star (cls p)).longest cs = some (cs.takeWhile p).length := by
  rw [longest_eq_some_iff]
  have htake := List.prefix_iff_eq_take.mp (cs.takeWhile_prefix p)
  refine ⟨⟨(cs.takeWhile_prefix p).length_le, ?_⟩, ?_⟩
  · rw [← htake, mem_language_star_cls]
    exact fun c hc => List.mem_takeWhile_imp hc
  · rintro n ⟨hle, hmem⟩
    exact le_length_takeWhile hle (mem_language_star_cls.mp hmem)

theorem longest_plus_cls_le {p : α → Bool} {cs : List α} {n : Nat}
    (h : (plus (cls p)).longest cs = some n) : n ≤ (cs.takeWhile p).length := by
  obtain ⟨hle, hmem⟩ := matchLengths_of_longest h
  exact le_length_takeWhile hle (mem_language_plus_cls.mp hmem).2

/-- A class repeated matches all characters up to the first that is not in it. -/
theorem longest_plus_cls {p : α → Bool} {cs : List α} (hne : cs.takeWhile p ≠ []) :
    (plus (cls p)).longest cs = some (cs.takeWhile p).length := by
  rw [longest_eq_some_iff]
  have htake := List.prefix_iff_eq_take.mp (cs.takeWhile_prefix p)
  refine ⟨⟨(cs.takeWhile_prefix p).length_le, ?_⟩, ?_⟩
  · rw [← htake, mem_language_plus_cls]
    exact ⟨hne, fun c hc => List.mem_takeWhile_imp hc⟩
  · rintro n ⟨hle, hmem⟩
    exact le_length_takeWhile hle (mem_language_plus_cls.mp hmem).2

end CourseCompilers.Lib.Pattern
