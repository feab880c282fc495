import CourseCompilers.Lib.Matching

/-! Automata that carry the rules of a scanner. Each state stands for the rules as the
text read so far leaves them, so an automaton that agrees with them character by
character finds the longest match, and the first rule that has it. -/

namespace CourseCompilers.Lib

namespace Pattern
variable {α β : Type}

/-- What the pattern's rule gives where the text ends. -/
def carries (p : Pattern α) (b : β) : Option β := if p.nullable then some b else Option.none

/-- The first rule that matches the empty word. -/
def firstNullable : List (Pattern α × β) → Option β
  | [] => Option.none
  | (p, b) :: rules => (p.carries b).or (firstNullable rules)

theorem firstNullable_ne_none {rules : List (Pattern α × β)} {p : Pattern α} {b : β}
    (hmem : (p, b) ∈ rules) (hp : p.nullable = true) : firstNullable rules ≠ Option.none := by
  induction rules with
  | nil => cases hmem
  | cons r rules ih =>
    obtain ⟨q, b'⟩ := r
    rw [firstNullable, ne_eq, Option.or_eq_none_iff]
    rintro ⟨hhead, hrest⟩
    rcases List.mem_cons.mp hmem with heq | hmem
    · cases heq
      simp [carries, hp] at hhead
    · exact ih hmem hrest

def derivRules (c : α) (rules : List (Pattern α × β)) : List (Pattern α × β) :=
  rules.map fun r => (r.1.deriv c, r.2)

/-- A match of the rest counted from the character before it, or the empty match. -/
def orHere (here : Option β) : Option (Nat × β) → Option (Nat × β)
  | some (n, b) => some (n + 1, b)
  | Option.none => here.map fun b => (0, b)

theorem longer_orHere (h h' : Option β) (r r' : Option (Nat × β)) :
    longer (orHere h r) (orHere h' r') = orHere (h.or h') (longer r r') := by
  rcases r with _ | ⟨n, b⟩ <;> rcases r' with _ | ⟨m, b'⟩
  · cases h <;> cases h' <;> rfl
  · cases h <;> simp [orHere, longer]
  · cases h' <;> simp [orHere, longer]
  · by_cases hlt : n < m <;> simp [orHere, longer, hlt]

theorem longest_cons_map (p : Pattern α) (b : β) (c : α) (cs : List α) :
    ((p.longest (c :: cs)).map fun n => (n, b)) =
      orHere (p.carries b) (((p.deriv c).longest cs).map fun n => (n, b)) := by
  rw [longest, carries]
  cases (p.deriv c).longest cs with
  | some n => rfl
  | none => cases p.nullable <;> rfl

theorem firstLongest_nil_text (rules : List (Pattern α × β)) :
    firstLongest [] rules = (firstNullable rules).map fun b => (0, b) := by
  induction rules with
  | nil => rfl
  | cons r rules ih =>
    obtain ⟨p, b⟩ := r
    rw [firstLongest_cons, ih, firstNullable, longest, carries]
    cases p.nullable with
    | false => rfl
    | true => cases firstNullable rules <;> rfl

/-- The longest match begins with the first character, or it is empty. -/
theorem firstLongest_cons_text (c : α) (cs : List α) (rules : List (Pattern α × β)) :
    firstLongest (c :: cs) rules =
      orHere (firstNullable rules) (firstLongest cs (derivRules c rules)) := by
  induction rules with
  | nil => rfl
  | cons r rules ih =>
    obtain ⟨p, b⟩ := r
    rw [firstLongest_cons, ih, longest_cons_map, longer_orHere]
    exact congrArg _ (firstLongest_cons ..).symm

theorem longest_none (cs : List α) : (none : Pattern α).longest cs = Option.none := by
  induction cs with
  | nil => rfl
  | cons c cs ih => rw [longest, deriv, ih]; rfl

theorem longest_empty (cs : List α) : (empty : Pattern α).longest cs = some 0 := by
  cases cs with
  | nil => rfl
  | cons c cs => rw [longest, deriv, longest_none]; rfl

theorem longest_cls_cons (p : α → Bool) (c : α) (cs : List α) :
    (cls p).longest (c :: cs) = if p c then some 1 else Option.none := by
  rw [longest, deriv]
  cases p c with
  | false => rw [if_neg Bool.false_ne_true, longest_none]; rfl
  | true => rw [if_pos rfl, longest_empty]; rfl

theorem longest_plus_cls_cons (p : α → Bool) (c : α) (cs : List α) :
    (plus (cls p)).longest (c :: cs) =
      if p c then some ((c :: cs).takeWhile p).length else Option.none := by
  cases hc : p c with
  | true =>
    rw [if_pos rfl, longest_plus_cls (by simp [hc])]
  | false =>
    rw [if_neg Bool.false_ne_true, longest_eq_none_iff]
    refine Set.eq_empty_of_forall_notMem fun n hn => ?_
    obtain ⟨m, hm, -⟩ := le_longest hn
    obtain ⟨hle, hmem⟩ := matchLengths_of_longest hm
    obtain ⟨hne, hall⟩ := mem_language_plus_cls.mp hmem
    cases m with
    | zero => exact hne rfl
    | succ m => exact absurd (hall c (by simp)) (by simp [hc])

/-! ## Patterns that match the same words -/

/-- The patterns are alike, their classes compared on the characters of `cs`. -/
def same (cs : List α) : Pattern α → Pattern α → Bool
  | .none, .none | .empty, .empty => true
  | .cls p, .cls q => cs.all fun c => p c == q c
  | .seq a b, .seq a' b' | .alt a b, .alt a' b' => a.same cs a' && b.same cs b'
  | .star a, .star a' => a.same cs a'
  | _, _ => false

/-- The patterns match the same words of `cs`. -/
def Agrees (cs : List α) (p q : Pattern α) : Prop :=
  ∀ w : List α, (∀ c ∈ w, c ∈ cs) → (w ∈ p.language ↔ w ∈ q.language)

variable {cs : List α}

theorem Agrees.seq {p p' q q' : Pattern α} (hp : p.Agrees cs p') (hq : q.Agrees cs q') :
    (seq p q).Agrees cs (seq p' q') := by
  intro w hw
  rw [mem_language_seq, mem_language_seq]
  constructor
  · rintro ⟨u, hu, v, hv, rfl⟩
    rw [List.forall_mem_append] at hw
    exact ⟨u, (hp u hw.1).mp hu, v, (hq v hw.2).mp hv, rfl⟩
  · rintro ⟨u, hu, v, hv, rfl⟩
    rw [List.forall_mem_append] at hw
    exact ⟨u, (hp u hw.1).mpr hu, v, (hq v hw.2).mpr hv, rfl⟩

theorem Agrees.alt {p p' q q' : Pattern α} (hp : p.Agrees cs p') (hq : q.Agrees cs q') :
    (alt p q).Agrees cs (alt p' q') := by
  intro w hw
  rw [mem_language_alt, mem_language_alt, hp w hw, hq w hw]

theorem Agrees.star_imp {p q : Pattern α} (h : p.Agrees cs q) {w : List α}
    (hw : ∀ c ∈ w, c ∈ cs) (hmem : w ∈ (star p).language) : w ∈ (star q).language := by
  obtain ⟨L, rfl, hL⟩ := Language.mem_kstar.mp hmem
  refine Language.mem_kstar.mpr ⟨L, rfl, fun u hu => ?_⟩
  exact (h u fun c hc => hw c (List.mem_flatten.mpr ⟨u, hu, hc⟩)).mp (hL u hu)

theorem Agrees.symm {p q : Pattern α} (h : p.Agrees cs q) : q.Agrees cs p :=
  fun w hw => (h w hw).symm

theorem Agrees.trans {p q r : Pattern α} (h : p.Agrees cs q) (h' : q.Agrees cs r) :
    p.Agrees cs r := fun w hw => (h w hw).trans (h' w hw)

theorem Agrees.star {p q : Pattern α} (h : p.Agrees cs q) : (star p).Agrees cs (star q) :=
  fun _ hw => ⟨h.star_imp hw, h.symm.star_imp hw⟩

theorem Agrees.of_same {p q : Pattern α} (h : p.same cs q = true) : p.Agrees cs q := by
  induction p generalizing q with
  | none | empty =>
    cases q <;> first | exact fun w _ => Iff.rfl | cases h
  | cls p =>
    cases q with
    | cls q =>
      intro w hw
      rw [mem_language_cls, mem_language_cls]
      refine exists_congr fun c => and_congr_left ?_
      rintro rfl
      have hc := List.all_eq_true.mp h c (hw c (List.mem_singleton.mpr rfl))
      rw [beq_iff_eq.mp hc]
    | _ => cases h
  | seq a b iha ihb =>
    cases q with
    | seq a' b' =>
      obtain ⟨ha, hb⟩ := Bool.and_eq_true_iff.mp h
      exact (iha ha).seq (ihb hb)
    | _ => cases h
  | alt a b iha ihb =>
    cases q with
    | alt a' b' =>
      obtain ⟨ha, hb⟩ := Bool.and_eq_true_iff.mp h
      exact (iha ha).alt (ihb hb)
    | _ => cases h
  | star a ih =>
    cases q with
    | star a' => exact (ih h).star
    | _ => cases h

/-- Patterns that match the same words have the same longest match. -/
theorem Agrees.longest {p q : Pattern α} (h : p.Agrees cs q) {w : List α}
    (hw : ∀ c ∈ w, c ∈ cs) : p.longest w = q.longest w := by
  have hlen : p.matchLengths w = q.matchLengths w := by
    ext n
    rw [mem_matchLengths, mem_matchLengths, h _ fun c hc => hw c (List.mem_of_mem_take hc)]
  cases hlong : p.longest w with
  | none => rw [eq_comm, longest_eq_none_iff, ← hlen, ← longest_eq_none_iff, hlong]
  | some n => rw [eq_comm, longest_eq_some_iff, ← hlen, ← longest_eq_some_iff, hlong]

theorem Agrees.of_language {p q : Pattern α} (h : p.language = q.language) : p.Agrees cs q :=
  fun w _ => by rw [h]

theorem Agrees.nullable {p q : Pattern α} (h : p.Agrees cs q) : p.nullable = q.nullable := by
  rw [Bool.eq_iff_iff, nullable_iff, nullable_iff]
  exact h [] fun c hc => absurd hc List.not_mem_nil

theorem Agrees.deriv {p q : Pattern α} (h : p.Agrees cs q) {c : α} (hc : c ∈ cs) :
    (p.deriv c).Agrees cs (q.deriv c) := by
  intro w hw
  rw [mem_language_deriv, mem_language_deriv]
  exact h (c :: w) (List.forall_mem_cons.mpr ⟨hc, hw⟩)

/-! ## Derivatives kept small -/

/-- A sequence, where neither part is one that adds nothing. -/
def cat : Pattern α → Pattern α → Pattern α
  | .none, _ => .none
  | .empty, q => q
  | _, .none => .none
  | p, .empty => p
  | p, q => .seq p q

def either : Pattern α → Pattern α → Pattern α
  | .none, q => q
  | p, .none => p
  | p, q => .alt p q

theorem language_cat (p q : Pattern α) : (cat p q).language = p.language * q.language := by
  unfold cat
  split <;> simp [language]

theorem language_either (p q : Pattern α) : (either p q).language = p.language + q.language := by
  unfold either
  split <;> simp [language]

/-- The pattern without the parts that add nothing. -/
def trim : Pattern α → Pattern α
  | .none => .none
  | .empty => .empty
  | .cls p => .cls p
  | .seq a b => cat a.trim b.trim
  | .alt a b => either a.trim b.trim
  | .star a => .star a

theorem language_trim (p : Pattern α) : p.trim.language = p.language := by
  induction p with
  | none | empty | cls p | star a ih => rfl
  | seq a b iha ihb => rw [trim, language_cat, iha, ihb, language]
  | alt a b iha ihb => rw [trim, language_either, iha, ihb, language]

/-! ## Lists of rules -/

/-- The rules carry the same and match the same words of `cs`. -/
def RulesAgree (cs : List α) : List (Pattern α × β) → List (Pattern α × β) → Prop :=
  List.Forall₂ fun r r' => r.1.Agrees cs r'.1 ∧ r.2 = r'.2

def sameRules [DecidableEq β] (cs : List α) :
    List (Pattern α × β) → List (Pattern α × β) → Bool
  | [], [] => true
  | r :: rules, r' :: rules' =>
      r.1.same cs r'.1 && decide (r.2 = r'.2) && sameRules cs rules rules'
  | _, _ => false

def trimRules (rules : List (Pattern α × β)) : List (Pattern α × β) :=
  rules.map fun r => (r.1.trim, r.2)

/-- The rules after a word, kept small. -/
def rulesAfter (rules : List (Pattern α × β)) (w : List α) : List (Pattern α × β) :=
  w.foldl (fun rules c => trimRules (derivRules c rules)) rules

variable {rules rules' rules'' : List (Pattern α × β)}

theorem RulesAgree.of_sameRules [DecidableEq β] (h : sameRules cs rules rules' = true) :
    RulesAgree cs rules rules' := by
  induction rules generalizing rules' with
  | nil =>
    cases rules' with
    | nil => exact .nil
    | cons r' rules' => cases h
  | cons r rules ih =>
    cases rules' with
    | nil => cases h
    | cons r' rules' =>
      obtain ⟨h, hrest⟩ := Bool.and_eq_true_iff.mp h
      obtain ⟨hp, hb⟩ := Bool.and_eq_true_iff.mp h
      exact .cons ⟨.of_same hp, of_decide_eq_true hb⟩ (ih hrest)

theorem RulesAgree.trans (h : RulesAgree cs rules rules') (h' : RulesAgree cs rules' rules'') :
    RulesAgree cs rules rules'' := by
  induction h generalizing rules'' with
  | nil => exact h'
  | cons hr _ ih =>
    cases h' with
    | cons hr' h' => exact .cons ⟨hr.1.trans hr'.1, hr.2.trans hr'.2⟩ (ih h')

theorem rulesAgree_trimRules (rules : List (Pattern α × β)) :
    RulesAgree cs rules (trimRules rules) := by
  induction rules with
  | nil => exact .nil
  | cons r rules ih => exact .cons ⟨.of_language (language_trim r.1).symm, rfl⟩ ih

theorem RulesAgree.firstNullable (h : RulesAgree cs rules rules') :
    firstNullable rules = firstNullable rules' := by
  induction h with
  | nil => rfl
  | @cons r r' rules rules' hr _ ih =>
    obtain ⟨p, b⟩ := r
    obtain ⟨p', b'⟩ := r'
    obtain ⟨hp, rfl⟩ := hr
    rw [Pattern.firstNullable, Pattern.firstNullable, ih, carries, carries, hp.nullable]

theorem RulesAgree.firstLongest (h : RulesAgree cs rules rules') {w : List α}
    (hw : ∀ c ∈ w, c ∈ cs) : firstLongest w rules = firstLongest w rules' := by
  induction h with
  | nil => rfl
  | @cons r r' rules rules' hr _ ih =>
    obtain ⟨p, b⟩ := r
    obtain ⟨p', b'⟩ := r'
    obtain ⟨hp, rfl⟩ := hr
    rw [firstLongest_cons, firstLongest_cons, ih, hp.longest hw]

/-- The matches of the rules over a whole text, one after the other. -/
inductive Lexes (rules : List (Pattern α × β)) : List α → List (β × List α) → Prop
  | nil : Lexes rules [] []
  | cons {cs : List α} {n : Nat} {b : β} {rest : List (β × List α)} :
      firstLongest cs rules = some (n, b) → 0 < n → Lexes rules (cs.drop n) rest →
      Lexes rules cs ((b, cs.take n) :: rest)

theorem exists_firstLongest_cons {c : α} (h : firstNullable (derivRules c rules) ≠ Option.none)
    (cs : List α) : ∃ n b, firstLongest (c :: cs) rules = some (n + 1, b) := by
  obtain ⟨b, hb⟩ := Option.ne_none_iff_exists'.mp h
  have hrest : ∃ m b', firstLongest cs (derivRules c rules) = some (m, b') := by
    cases cs with
    | nil => exact ⟨0, b, by rw [firstLongest_nil_text, hb]; rfl⟩
    | cons d cs =>
      rw [firstLongest_cons_text, hb]
      cases firstLongest cs (derivRules d (derivRules c rules)) with
      | none => exact ⟨0, b, rfl⟩
      | some r => exact ⟨r.1 + 1, r.2, rfl⟩
  obtain ⟨m, b', hm⟩ := hrest
  exact ⟨m, b', by rw [firstLongest_cons_text, hm]; rfl⟩

/-- Where every first character begins a match, every text is scanned to its end. -/
theorem exists_lexes (h : ∀ c, firstNullable (derivRules c rules) ≠ Option.none) (cs : List α) :
    ∃ ls, Lexes rules cs ls := by
  induction hlen : cs.length using Nat.strong_induction_on generalizing cs with
  | _ len ih =>
    cases cs with
    | nil => exact ⟨[], .nil⟩
    | cons c cs =>
      obtain ⟨n, b, hn⟩ := exists_firstLongest_cons (h c) cs
      have hlt : ((c :: cs).drop (n + 1)).length < len := by
        rw [← hlen, List.length_drop, List.length_cons]
        omega
      obtain ⟨ls, hls⟩ := ih _ hlt ((c :: cs).drop (n + 1)) rfl
      exact ⟨_, .cons hn (Nat.succ_pos n) hls⟩

/-- The text is what the matches cover. -/
theorem Lexes.flatten {cs : List α} {ls : List (β × List α)} (h : Lexes rules cs ls) :
    (ls.map Prod.snd).flatten = cs := by
  induction h with
  | nil => rfl
  | @cons cs n b rest _ _ _ ih => simp [ih]

end Pattern

/-! ## Automata -/

/-- A deterministic automaton whose states carry what a match that ends there gives. -/
structure Dfa (α σ β : Type) where
  next : σ → α → σ
  accept : σ → Option β

namespace Dfa
variable {α σ β : Type} (M : Dfa α σ β)

def after (s : σ) (cs : List α) : σ := cs.foldl M.next s

/-- The longest prefix after which the automaton accepts. -/
def longest (s : σ) : List α → Option (Nat × β)
  | [] => (M.accept s).map fun b => (0, b)
  | c :: cs => Pattern.orHere (M.accept s) (longest (M.next s c) cs)

@[simp] theorem after_nil (s : σ) : M.after s [] = s := rfl

@[simp] theorem after_cons (s : σ) (c : α) (cs : List α) :
    M.after s (c :: cs) = M.after (M.next s c) cs := rfl

theorem after_append (s : σ) (cs ds : List α) :
    M.after s (cs ++ ds) = M.after (M.after s cs) ds := List.foldl_append ..

/-- The prefixes after which the automaton accepts. -/
def ends (s : σ) (cs : List α) : Set Nat :=
  {n | n ≤ cs.length ∧ (M.accept (M.after s (cs.take n))).isSome}

theorem zero_mem_ends {s : σ} {cs : List α} : 0 ∈ M.ends s cs ↔ (M.accept s).isSome := by
  simp [ends]

theorem succ_mem_ends {s : σ} {c : α} {cs : List α} {n : Nat} :
    n + 1 ∈ M.ends s (c :: cs) ↔ n ∈ M.ends (M.next s c) cs := by
  simp [ends]

theorem mem_ends_of_longest {s : σ} {cs : List α} {n : Nat} {b : β}
    (h : M.longest s cs = some (n, b)) :
    n ∈ M.ends s cs ∧ M.accept (M.after s (cs.take n)) = some b := by
  induction cs generalizing s n with
  | nil =>
    obtain ⟨b', hb, heq⟩ := Option.map_eq_some_iff.mp h
    cases heq
    exact ⟨M.zero_mem_ends.mpr (by simp [hb]), hb⟩
  | cons c cs ih =>
    rw [longest] at h
    cases hrest : M.longest (M.next s c) cs with
    | some r =>
      obtain ⟨m, b'⟩ := r
      rw [hrest] at h
      cases h
      obtain ⟨hm, hb⟩ := ih hrest
      exact ⟨M.succ_mem_ends.mpr hm, hb⟩
    | none =>
      rw [hrest] at h
      obtain ⟨b', hb, heq⟩ := Option.map_eq_some_iff.mp h
      cases heq
      exact ⟨M.zero_mem_ends.mpr (by simp [hb]), hb⟩

theorem le_longest {s : σ} {cs : List α} {k : Nat} (hk : k ∈ M.ends s cs) :
    ∃ n b, M.longest s cs = some (n, b) ∧ k ≤ n := by
  induction cs generalizing s k with
  | nil =>
    obtain rfl : k = 0 := Nat.le_zero.mp hk.1
    obtain ⟨b, hb⟩ := Option.isSome_iff_exists.mp (M.zero_mem_ends.mp hk)
    exact ⟨0, b, by simp [longest, hb], Nat.le_refl 0⟩
  | cons c cs ih =>
    rw [longest]
    cases hrest : M.longest (M.next s c) cs with
    | some r =>
      obtain ⟨m, b⟩ := r
      refine ⟨m + 1, b, rfl, ?_⟩
      cases k with
      | zero => omega
      | succ k =>
        obtain ⟨n, b', hn, hle⟩ := ih (M.succ_mem_ends.mp hk)
        cases hn.symm.trans hrest
        omega
    | none =>
      cases k with
      | zero =>
        obtain ⟨b, hb⟩ := Option.isSome_iff_exists.mp (M.zero_mem_ends.mp hk)
        exact ⟨0, b, by simp [Pattern.orHere, hb], Nat.le_refl 0⟩
      | succ k =>
        obtain ⟨n, b', hn, -⟩ := ih (M.succ_mem_ends.mp hk)
        cases hn.symm.trans hrest

/-- The longest match is the last accepting state that the automaton passes through. -/
theorem longest_eq_some_iff {s : σ} {cs : List α} {n : Nat} {b : β} :
    M.longest s cs = some (n, b) ↔
      IsGreatest (M.ends s cs) n ∧ M.accept (M.after s (cs.take n)) = some b := by
  constructor
  · intro h
    obtain ⟨hn, hb⟩ := M.mem_ends_of_longest h
    refine ⟨⟨hn, fun k hk => ?_⟩, hb⟩
    obtain ⟨m, b', hm, hle⟩ := M.le_longest hk
    cases hm.symm.trans h
    exact hle
  · rintro ⟨⟨hn, hmax⟩, hb⟩
    obtain ⟨m, b', hm, hle⟩ := M.le_longest hn
    obtain ⟨hmem, hb'⟩ := M.mem_ends_of_longest hm
    obtain rfl : m = n := Nat.le_antisymm (hmax hmem) hle
    rw [hm, Option.some.inj (hb'.symm.trans hb)]

/-- A match of what follows `w` continues the one that `w` begins. -/
theorem longest_append {s : σ} {w cs : List α} {n : Nat} {b : β}
    (h : M.longest (M.after s w) cs = some (n, b)) :
    M.longest s (w ++ cs) = some (w.length + n, b) := by
  induction w generalizing s with
  | nil => simpa using h
  | cons c w ih =>
    rw [List.cons_append, longest, ih h, List.length_cons, Nat.add_right_comm]
    rfl

/-- Nothing matches from a state that the text does not leave. -/
theorem longest_stuck {s : σ} {cs : List α} (hs : ∀ c ∈ cs, M.next s c = s)
    (hb : M.accept s = none) : M.longest s cs = none := by
  induction cs with
  | nil => simp [longest, hb]
  | cons c cs ih =>
    rw [List.forall_mem_cons] at hs
    rw [longest, hs.1, ih hs.2, hb]
    rfl

/-! ## The automaton of a list of rules -/

/-- In each state of `states` the automaton stands for the rules `residual` gives it, on
the characters of `cs`. -/
def Tracks (cs : List α) (states : List σ) (residual : σ → List (Pattern α × β)) : Prop :=
  ∀ s ∈ states, M.accept s = Pattern.firstNullable (residual s) ∧
    ∀ c ∈ cs, M.next s c ∈ states ∧
      Pattern.RulesAgree cs (Pattern.derivRules c (residual s)) (residual (M.next s c))

variable {M} {cs : List α} {states : List σ} {residual : σ → List (Pattern α × β)}

/-- The automaton finds the match of the rules. -/
theorem Tracks.longest (h : M.Tracks cs states residual) {s : σ} (hs : s ∈ states) {w : List α}
    (hw : ∀ c ∈ w, c ∈ cs) : M.longest s w = Pattern.firstLongest w (residual s) := by
  induction w generalizing s with
  | nil => rw [Dfa.longest, (h s hs).1, Pattern.firstLongest_nil_text]
  | cons c w ih =>
    obtain ⟨hc, hw⟩ := List.forall_mem_cons.mp hw
    obtain ⟨hnext, hagree⟩ := (h s hs).2 c hc
    rw [Dfa.longest, (h s hs).1, ih hnext hw, Pattern.firstLongest_cons_text,
      hagree.firstLongest hw]

/-- A check of `Tracks` where each state has a word that leads to it: it stands for the
rules after that word. -/
def tracks [DecidableEq σ] [DecidableEq β] (M : Dfa α σ β) (rules : List (Pattern α × β))
    (access : σ → List α) (cs : List α) (states : List σ) : Bool :=
  states.all fun s =>
    let residual := Pattern.rulesAfter rules (access s)
    decide (M.accept s = Pattern.firstNullable residual) &&
      cs.all fun c =>
        decide (M.next s c ∈ states) &&
          Pattern.sameRules cs (Pattern.trimRules (Pattern.derivRules c residual))
            (Pattern.rulesAfter rules (access (M.next s c)))

theorem Tracks.of_tracks [DecidableEq σ] [DecidableEq β] {rules : List (Pattern α × β)}
    {access : σ → List α} (h : M.tracks rules access cs states = true) :
    M.Tracks cs states fun s => Pattern.rulesAfter rules (access s) := by
  intro s hs
  obtain ⟨haccept, hall⟩ := Bool.and_eq_true_iff.mp (List.all_eq_true.mp h s hs)
  refine ⟨of_decide_eq_true haccept, fun c hc => ?_⟩
  obtain ⟨hmem, hsame⟩ := Bool.and_eq_true_iff.mp (List.all_eq_true.mp hall c hc)
  exact ⟨of_decide_eq_true hmem, (Pattern.rulesAgree_trimRules _).trans (.of_sameRules hsame)⟩

end Dfa

/-! ## Characters read through a classification -/

namespace Pattern
variable {α κ β : Type}

/-- The pattern over characters whose classes are `f`. -/
def comap (f : α → κ) : Pattern κ → Pattern α
  | .none => .none
  | .empty => .empty
  | .cls p => .cls fun c => p (f c)
  | .seq a b => .seq (a.comap f) (b.comap f)
  | .alt a b => .alt (a.comap f) (b.comap f)
  | .star a => .star (a.comap f)

theorem nullable_comap (f : α → κ) (p : Pattern κ) : (p.comap f).nullable = p.nullable := by
  induction p with
  | none | empty | cls p | star a ih => rfl
  | seq a b iha ihb | alt a b iha ihb => simp [comap, nullable, iha, ihb]

theorem deriv_comap (f : α → κ) (c : α) (p : Pattern κ) :
    (p.comap f).deriv c = (p.deriv (f c)).comap f := by
  induction p with
  | none | empty => rfl
  | cls p =>
    rw [comap, deriv, deriv]
    split <;> rfl
  | seq a b iha ihb =>
    rw [comap, deriv, deriv, nullable_comap, iha, ihb]
    split <;> rfl
  | alt a b iha ihb => rw [comap, deriv, deriv, iha, ihb, comap]
  | star a ih => rw [comap, deriv, deriv, ih, comap, comap]

theorem longest_comap (f : α → κ) (p : Pattern κ) (cs : List α) :
    (p.comap f).longest cs = p.longest (cs.map f) := by
  induction cs generalizing p with
  | nil => rw [longest, List.map_nil, longest, nullable_comap]
  | cons c cs ih => rw [longest, List.map_cons, longest, deriv_comap, ih, nullable_comap]

/-- A word of classes that have one character each. -/
theorem comap_word [DecidableEq α] [DecidableEq κ] {f : α → κ} {u : List α} {w : List κ}
    (h : List.Forall₂ (fun c k => ∀ d, d = c ↔ f d = k) u w) : (word w).comap f = word u := by
  induction h with
  | nil => rfl
  | @cons c k u w hc _ ih =>
    have hcls : (fun d => decide (f d = k)) = fun d => decide (d = c) :=
      funext fun d => decide_eq_decide.mpr (hc d).symm
    rw [word, List.foldr_cons, ← word, comap, comap, hcls, ih]
    rfl

def comapRules (f : α → κ) (rules : List (Pattern κ × β)) : List (Pattern α × β) :=
  rules.map fun r => (r.1.comap f, r.2)

/-- Rules that see only the classes of the characters match as they do on the classes. -/
theorem firstLongest_comap (f : α → κ) (rules : List (Pattern κ × β)) (cs : List α) :
    firstLongest cs (comapRules f rules) = firstLongest (cs.map f) rules := by
  induction rules with
  | nil => rfl
  | cons r rules ih =>
    obtain ⟨p, b⟩ := r
    rw [firstLongest_cons, ← longest_comap, ← ih]
    exact firstLongest_cons ..

end Pattern
end CourseCompilers.Lib
