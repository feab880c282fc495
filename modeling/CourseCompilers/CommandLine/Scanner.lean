import CourseCompilers.Lib.Matching
import CourseCompilers.CommandLine.Input
import Mathlib

/-! The scanner of `cmdline.lex`, which takes the command line apart. -/

namespace CourseCompilers.CommandLine
open Lib
open Lib.Pattern (plus cls word firstLongest)

inductive StartCondition where
  | initial
  | fname
  deriving DecidableEq

/-- What the rules do. -/
inductive LexAction where
  | skip
  | usage
  | verbose
  | beginFname
  | outfile
  | infile
  deriving DecidableEq

/-- What has been done, with a copy of the text where one is kept. -/
inductive Event where
  | usage
  | verbose
  | beginFname
  | outfile (name : List Char)
  | infile (name : List Char)
  deriving DecidableEq

def blank (c : Char) : Bool := c = ' ' || c = '\t'

def blanks : Pattern Char := plus (cls blank)
def nonspaces : Pattern Char := plus (cls (· ≠ ' '))

/-- The rules that match one word. -/
def wordRules : List (List Char × LexAction) :=
  [("-h".toList, .usage), ("-?".toList, .usage), ("-v".toList, .verbose),
   ("-verbose".toList, .verbose), ("-o".toList, .beginFname)]

/-- The rules of a start condition, in the order of the file; `FNAME` adds a rule to
those of the initial condition. -/
def StartCondition.rules (cond : StartCondition) : List (Pattern Char × LexAction) :=
  [(blanks, .skip)] ++ wordRules.map (fun r => (word r.1, r.2)) ++
  (match cond with
   | .initial => []
   | .fname => [(nonspaces, .outfile)]) ++
  [(nonspaces, .infile)]

/-- What the action of a rule does with the text matched. -/
def LexAction.event (text : List Char) : LexAction → Option Event
  | .skip => none
  | .usage => some .usage
  | .verbose => some .verbose
  | .beginFname => some .beginFname
  | .outfile => some (.outfile text)
  | .infile => some (.infile text)

/-- The start condition after an action. -/
def LexAction.next (cond : StartCondition) : LexAction → StartCondition
  | .beginFname => .fname
  | .outfile => .initial
  | _ => cond

/-- Scan the command line; the next `skip` characters belong to the last match. -/
def cmdlex (cond : StartCondition) : Nat → List Char → List Event
  | _, [] => []
  | skip + 1, _ :: cs => cmdlex cond skip cs
  | 0, c :: cs =>
      match firstLongest (c :: cs) cond.rules with
      | none => cmdlex cond 0 cs
      | some (n, act) =>
          (act.event ((c :: cs).take n)).toList ++ cmdlex (act.next cond) (n - 1) cs

/-- The variables the actions set; `infile_cnt` is the length of `infile`. -/
structure Vars where
  verbose : Nat
  outfile : Option (List Char)
  infile : List (List Char)
  deriving DecidableEq

def Vars.initial : Vars := ⟨0, none, []⟩

def maxIn : Nat := 1000

/-- `none`: a store outside the array `infile`. -/
def Event.perform (s : Vars) : Event → Option Vars
  | .usage => some s
  | .verbose => some { s with verbose := 1 }
  | .beginFname => some s
  | .outfile name => some { s with outfile := some name }
  | .infile name =>
      if s.infile.length < maxIn then some { s with infile := s.infile ++ [name] } else none

def performAll (s : Vars) (es : List Event) : Option Vars := es.foldlM Event.perform s

/-! ## What the arguments stand for -/

/-- The option an argument is, if any. -/
def optionOf (arg : List Char) : Option Event :=
  if arg = "-h".toList ∨ arg = "-?".toList then some .usage
  else if arg = "-v".toList ∨ arg = "-verbose".toList then some .verbose
  else if arg = "-o".toList then some .beginFname
  else none

/-- How an argument is to be treated, and whether a file name is due after it;
`pending` tells that one is due. -/
def treatOne (pending : Bool) (arg : List Char) : Event × Bool :=
  match optionOf arg with
  | some .beginFname => (.beginFname, true)
  | some e => (e, pending)
  | none => (if pending then .outfile arg else .infile arg, false)

def treat (pending : Bool) : List (List Char) → List Event
  | [] => []
  | arg :: args => (treatOne pending arg).1 :: treat (treatOne pending arg).2 args

def Event.outfileName : Event → Option (List Char)
  | .outfile name => some name
  | _ => none

def Event.infileName : Event → Option (List Char)
  | .infile name => some name
  | _ => none

/-- The variables after some events: `outfile` is the last output file, and `infile`
holds the input files in their order. -/
def Vars.after (s : Vars) (es : List Event) : Vars where
  verbose := if .verbose ∈ es then 1 else s.verbose
  outfile := (es.filterMap Event.outfileName).getLast?.or s.outfile
  infile := s.infile ++ es.filterMap Event.infileName

/-- Every argument is treated as it should, and the variables show it. -/
def Classifies (args : List Argument) : Prop :=
  cmdlex .initial 0 (stream args) = treat false (args.map Argument.chars) ∧
    performAll .initial (cmdlex .initial 0 (stream args)) =
      some (Vars.initial.after (treat false (args.map Argument.chars)))

/-! ## One match -/

section
variable {cond : StartCondition} {w rest : List Char}

/-- A prefix without a space ends before the first space. -/
theorem le_of_take_space {k : Nat} (h : ' ' ∉ (w ++ ' ' :: rest).take k) : k ≤ w.length := by
  by_contra hlt
  obtain ⟨j, hj⟩ : ∃ j, k - w.length = j + 1 := ⟨k - w.length - 1, by omega⟩
  apply h
  rw [List.take_append, hj, List.take_succ_cons]
  simp

theorem takeWhile_text (hw : ' ' ∉ w) : (w ++ ' ' :: rest).takeWhile (· ≠ ' ') = w := by
  have hall : ∀ c ∈ w, decide (c ≠ ' ') = true := fun c hc =>
    decide_eq_true fun heq => hw (heq ▸ hc)
  rw [List.takeWhile_append_of_pos hall]
  simp

theorem word_le {u : List Char} (hu : ' ' ∉ u) {k : Nat}
    (h : (word u).longest (w ++ ' ' :: rest) = some k) : k ≤ w.length := by
  have htake := Pattern.mem_language_word.mp (Pattern.matchLengths_of_longest h).2
  exact le_of_take_space (htake ▸ hu)

theorem word_longest_iff {u : List Char} (hu : ' ' ∉ u) :
    (word u).longest (w ++ ' ' :: rest) = some w.length ↔ w = u := by
  rw [Pattern.longest_eq_some_iff]
  constructor
  · rintro ⟨⟨_, hmem⟩, _⟩
    rwa [List.take_left, Pattern.mem_language_word] at hmem
  · rintro rfl
    refine ⟨⟨by simp, by rw [List.take_left, Pattern.mem_language_word]⟩, ?_⟩
    rintro k ⟨_, hk⟩
    exact le_of_take_space (Pattern.mem_language_word.mp hk ▸ hu)

/-- Blanks never match a text in which not all characters are tabs. -/
theorem blanks_lt (hw : ' ' ∉ w) (htab : ∃ c ∈ w, c ≠ '\t') {k : Nat}
    (h : blanks.longest (w ++ ' ' :: rest) = some k) : k < w.length := by
  obtain ⟨c, hc, hne⟩ := htab
  obtain ⟨_, hall⟩ := Pattern.mem_language_plus_cls.mp (Pattern.matchLengths_of_longest h).2
  by_contra hle
  have hmem : c ∈ (w ++ ' ' :: rest).take k := by
    rw [List.take_append, List.mem_append, List.take_of_length_le (Nat.not_lt.mp hle)]
    exact .inl hc
  have hblank := hall c hmem
  simp only [blank, Bool.or_eq_true, decide_eq_true_eq] at hblank
  rcases hblank with rfl | rfl
  · exact hw hc
  · exact hne rfl

/-- The action of the rule that wins for a text. -/
def winner (cond : StartCondition) (w : List Char) : LexAction :=
  match wordRules.find? (fun r => r.1 = w), cond with
  | some r, _ => r.2
  | none, .fname => .outfile
  | none, .initial => .infile

theorem space_notMem_wordRules : ∀ r ∈ wordRules, ' ' ∉ r.1 := by decide

theorem nonspaces_le (hw : ' ' ∉ w) {k : Nat}
    (h : nonspaces.longest (w ++ ' ' :: rest) = some k) : k ≤ w.length := by
  have hle := Pattern.longest_plus_cls_le h
  rwa [takeWhile_text hw] at hle

theorem rules_le (hw : ' ' ∉ w) (htab : ∃ c ∈ w, c ≠ '\t') :
    ∀ r ∈ cond.rules, ∀ k, r.1.longest (w ++ ' ' :: rest) = some k → k ≤ w.length := by
  intro r hr k hk
  simp only [StartCondition.rules, List.mem_append, List.mem_singleton, List.mem_map] at hr
  rcases hr with ((rfl | ⟨u, hu, rfl⟩) | hr) | rfl
  · exact Nat.le_of_lt (blanks_lt hw htab hk)
  · exact word_le (space_notMem_wordRules u hu) hk
  · cases cond with
    | initial => cases hr
    | fname =>
      obtain rfl := List.mem_singleton.mp hr
      exact nonspaces_le hw hk
  · exact nonspaces_le hw hk

/-- The first word rule that matches all of the text is the one for the text. -/
theorem find?_words {rules : List (List Char × LexAction)} (h : ∀ r ∈ rules, ' ' ∉ r.1) :
    (rules.map fun r => (word r.1, r.2)).find?
        (fun r => r.1.longest (w ++ ' ' :: rest) = some w.length) =
      (rules.find? fun r => r.1 = w).map fun r => (word r.1, r.2) := by
  induction rules with
  | nil => rfl
  | cons r rules ih =>
    rw [List.forall_mem_cons] at h
    have hiff : (word r.1).longest (w ++ ' ' :: rest) = some w.length ↔ w = r.1 :=
      word_longest_iff h.1
    by_cases hw : w = r.1
    · simp [hw ▸ hiff.mpr hw, hw]
    · have hr : ¬ r.1 = w := fun heq => hw heq.symm
      simpa [hiff, hw, hr] using ih h.2

/-- A text up to a space is matched as a whole: as an option if it is one. -/
theorem firstLongest_text (hw : ' ' ∉ w) (htab : ∃ c ∈ w, c ≠ '\t') :
    firstLongest (w ++ ' ' :: rest) cond.rules = some (w.length, winner cond w) := by
  have hne : w ≠ [] := by
    rintro rfl
    obtain ⟨c, hc, _⟩ := htab
    cases hc
  have hblanks : blanks.longest (w ++ ' ' :: rest) ≠ some w.length := fun h =>
    Nat.lt_irrefl _ (blanks_lt hw htab h)
  have hnon : nonspaces.longest (w ++ ' ' :: rest) = some w.length := by
    have hall : (w ++ ' ' :: rest).takeWhile (· ≠ ' ') = w := takeWhile_text hw
    rw [nonspaces, Pattern.longest_plus_cls (by rw [hall]; exact hne), hall]
  have hfind : ∃ p, cond.rules.find?
      (fun r => r.1.longest (w ++ ' ' :: rest) = some w.length) = some (p, winner cond w) := by
    unfold StartCondition.rules winner
    rw [List.find?_append, List.find?_append, List.find?_append, List.find?_singleton,
      find?_words space_notMem_wordRules]
    cases wordRules.find? (fun r => r.1 = w) with
    | some r => exact ⟨word r.1, by simp [hblanks]⟩
    | none =>
      cases cond with
      | initial => exact ⟨nonspaces, by simp [hblanks, hnon]⟩
      | fname => exact ⟨nonspaces, by simp [hblanks, hnon]⟩
  obtain ⟨p, hp⟩ := hfind
  exact Pattern.firstLongest_eq_find (rules_le hw htab) hp

/-- Tabs and a space are matched by the rule for blanks, with all blanks after them. -/
theorem firstLongest_blanks (hw : ∀ c ∈ w, c = '\t') :
    firstLongest (w ++ ' ' :: rest) cond.rules =
      some (w.length + (rest.takeWhile blank).length + 1, .skip) := by
  have hall : (w ++ ' ' :: rest).takeWhile blank = w ++ ' ' :: rest.takeWhile blank := by
    rw [List.takeWhile_append_of_pos fun c hc => by rw [hw c hc]; rfl]
    rfl
  have hblanks : blanks.longest (w ++ ' ' :: rest) =
      some (w.length + (rest.takeWhile blank).length + 1) := by
    rw [blanks, Pattern.longest_plus_cls (by simp [hall]), hall]
    simp only [List.length_append, List.length_cons, Nat.add_assoc]
  have hspace : ' ' ∉ w := fun hmem => absurd (hw ' ' hmem) (by decide)
  have hle : ∀ r ∈ cond.rules, ∀ k, r.1.longest (w ++ ' ' :: rest) = some k →
      k ≤ w.length + (rest.takeWhile blank).length + 1 := by
    intro r hr k hk
    simp only [StartCondition.rules, List.mem_append, List.mem_singleton, List.mem_map] at hr
    rcases hr with ((rfl | ⟨u, hu, rfl⟩) | hr) | rfl
    · cases hk.symm.trans hblanks
      exact Nat.le_refl _
    · have := word_le (space_notMem_wordRules u hu) hk
      omega
    · cases cond with
      | initial => cases hr
      | fname =>
        obtain rfl := List.mem_singleton.mp hr
        have := nonspaces_le hspace hk
        omega
    · have := nonspaces_le hspace hk
      omega
  refine Pattern.firstLongest_eq_find (r := (blanks, .skip)) hle ?_
  unfold StartCondition.rules
  rw [List.append_assoc, List.append_assoc, List.singleton_append]
  exact List.find?_cons_of_pos (by simpa using hblanks)

end

/-! ## Scanning -/

theorem cmdlex_drop (cond : StartCondition) (n : Nat) (cs : List Char) :
    cmdlex cond n cs = cmdlex cond 0 (cs.drop n) := by
  induction cs generalizing n with
  | nil => cases n <;> simp [cmdlex]
  | cons c cs ih =>
    cases n with
    | zero => rfl
    | succ n => rw [cmdlex, ih, List.drop_succ_cons]

theorem cmdlex_of_firstLongest {cond : StartCondition} {cs : List Char} {n : Nat}
    {act : LexAction} (h : firstLongest cs cond.rules = some (n + 1, act)) :
    cmdlex cond 0 cs =
      (act.event (cs.take (n + 1))).toList ++ cmdlex (act.next cond) 0 (cs.drop (n + 1)) := by
  cases cs with
  | nil =>
    obtain ⟨r, _, hlong, _⟩ := Pattern.exists_longest_of_firstLongest h
    exact absurd (Pattern.matchLengths_of_longest hlong).1 (Nat.not_succ_le_zero n)
  | cons c cs =>
    rw [cmdlex, h]
    exact congrArg _ (cmdlex_drop _ _ _)

theorem cmdlex_text {cond : StartCondition} {w : List Char} (hw : ' ' ∉ w)
    (htab : ∃ c ∈ w, c ≠ '\t') (rest : List Char) :
    cmdlex cond 0 (w ++ ' ' :: rest) =
      ((winner cond w).event w).toList ++ cmdlex ((winner cond w).next cond) 0 (' ' :: rest) := by
  obtain ⟨n, hn⟩ : ∃ n, w.length = n + 1 := by
    obtain ⟨c, hc, _⟩ := htab
    exact Nat.exists_eq_succ_of_ne_zero (List.length_pos_of_mem hc).ne'
  have hfirst : firstLongest (w ++ ' ' :: rest) cond.rules = some (w.length, winner cond w) :=
    firstLongest_text hw htab
  have hscan := cmdlex_of_firstLongest (hn ▸ hfirst)
  rwa [← hn, List.take_left, List.drop_left] at hscan

theorem cmdlex_blanks {cond : StartCondition} {w : List Char} (hw : ∀ c ∈ w, c = '\t')
    (rest : List Char) :
    cmdlex cond 0 (w ++ ' ' :: rest) = cmdlex cond 0 (rest.dropWhile blank) := by
  rw [cmdlex_of_firstLongest (firstLongest_blanks hw)]
  have hdrop : (w ++ ' ' :: rest).drop (w.length + (rest.takeWhile blank).length + 1) =
      rest.dropWhile blank := by
    have hrest : (rest.takeWhile blank ++ rest.dropWhile blank).drop
        (rest.takeWhile blank).length = rest.dropWhile blank := List.drop_left
    rw [List.takeWhile_append_dropWhile] at hrest
    rw [Nat.add_assoc, ← List.drop_drop, List.drop_left, List.drop_succ_cons, hrest]
  rw [hdrop]
  rfl

theorem optionOf_eq_none_iff (w : List Char) :
    optionOf w = none ↔ w ∉ wordRules.map Prod.fst := by
  unfold optionOf
  split_ifs with h1 h2 h3
  · rcases h1 with rfl | rfl <;> decide
  · rcases h2 with rfl | rfl <;> decide
  · subst h3
    decide
  · simp only [true_iff, wordRules, List.map_cons, List.map_nil, List.mem_cons,
      List.not_mem_nil, or_false]
    tauto

/-- The rule that wins for a text treats it as it should. -/
theorem winner_event (cond : StartCondition) (w : List Char) :
    (winner cond w).event w = some (treatOne (cond = .fname) w).1 ∧
      decide ((winner cond w).next cond = .fname) = (treatOne (cond = .fname) w).2 := by
  by_cases hopt : optionOf w = none
  · have hfind : wordRules.find? (fun r => r.1 = w) = none := by
      rw [List.find?_eq_none]
      intro r hr heq
      exact (optionOf_eq_none_iff w).mp hopt
        (List.mem_map.mpr ⟨r, hr, of_decide_eq_true heq⟩)
    unfold winner treatOne
    rw [hfind, hopt]
    cases cond <;> exact ⟨rfl, rfl⟩
  · rw [optionOf_eq_none_iff, not_not] at hopt
    simp only [wordRules, List.map_cons, List.map_nil, List.mem_cons, List.not_mem_nil,
      or_false] at hopt
    rcases hopt with rfl | rfl | rfl | rfl | rfl <;> cases cond <;> decide

/-- The next argument after the space that ends the last one: blanks in front of it
are lost, and with them an argument that has nothing else. -/
theorem cmdlex_rest {cond : StartCondition} {args : List (List Char)}
    (hargs : ∀ a ∈ args, ' ' ∉ a) :
    cmdlex cond 0 (' ' :: args.flatMap fun a => a ++ [' ']) =
      treat (cond = .fname) ((args.map (List.dropWhile blank)).filter (· ≠ [])) := by
  have hskip : ∀ cond rest, cmdlex cond 0 (' ' :: rest) = cmdlex cond 0 (rest.dropWhile blank) :=
    fun cond rest => cmdlex_blanks (w := []) (fun c hc => absurd hc List.not_mem_nil) rest
  induction args generalizing cond with
  | nil => rw [hskip]; rfl
  | cons a args ih =>
    rw [List.forall_mem_cons] at hargs
    have ih := fun cond => @ih cond hargs.2
    rw [hskip, List.flatMap_cons, List.append_assoc, List.singleton_append, List.dropWhile_append,
      List.map_cons]
    by_cases hnil : a.dropWhile blank = []
    · simp only [hnil, List.isEmpty_nil, if_true]
      rw [List.filter_cons_of_neg (by simp), ← ih, hskip]
      rfl
    · have htext : ' ' ∉ a.dropWhile blank := fun hmem =>
        hargs.1 ((List.dropWhile_suffix blank).subset hmem)
      have htab : ∃ c ∈ a.dropWhile blank, c ≠ '\t' := by
        refine ⟨_, List.head_mem hnil, fun heq => ?_⟩
        have hblank := List.head_dropWhile_not blank hnil
        rw [heq] at hblank
        cases hblank
      have hwin := winner_event cond (a.dropWhile blank)
      rw [if_neg (by simpa using hnil), cmdlex_text htext htab, hwin.1, ih, hwin.2,
        List.filter_cons_of_pos (by simpa using hnil)]
      rfl

/-- The arguments as the scanner sees them. -/
def seen : List (List Char) → List (List Char)
  | [] => []
  | a :: args =>
      (if ∀ c ∈ a, c = '\t' then [] else [a]) ++
        (args.map (List.dropWhile blank)).filter (· ≠ [])

theorem cmdlex_eq_treat_seen {args : List (List Char)} (hargs : ∀ a ∈ args, ' ' ∉ a) :
    cmdlex .initial 0 (args.flatMap fun a => a ++ [' ']) = treat false (seen args) := by
  cases args with
  | nil => rfl
  | cons a args =>
    rw [List.forall_mem_cons] at hargs
    have hrest := fun cond => @cmdlex_rest cond args hargs.2
    rw [List.flatMap_cons, List.append_assoc, List.singleton_append, seen]
    by_cases htabs : ∀ c ∈ a, c = '\t'
    · have hblanks := @cmdlex_blanks .initial []
        (fun c hc => absurd hc List.not_mem_nil) (args.flatMap fun a => a ++ [' '])
      rw [cmdlex_blanks htabs, if_pos htabs, List.nil_append, ← hblanks]
      exact hrest .initial
    · have hwin := winner_event .initial a
      rw [if_neg htabs]
      simp only [not_forall] at htabs
      obtain ⟨c, hc, hne⟩ := htabs
      rw [cmdlex_text hargs.1 ⟨c, hc, hne⟩, hwin.1, hrest, hwin.2]
      rfl

/-! ## Which arguments are treated as they should -/

theorem length_treat (pending : Bool) (args : List (List Char)) :
    (treat pending args).length = args.length := by
  induction args generalizing pending with
  | nil => rfl
  | cons a args ih => rw [treat, List.length_cons, List.length_cons, ih]

/-- An argument that is no option is kept as it is; nothing else is treated so. -/
theorem treatOne_name {p q : Bool} {a b : List Char} (ha : optionOf a = none)
    (h : (treatOne p b).1 = (treatOne q a).1) : b = a := by
  have hopt : ∀ e, optionOf b = some e → e = .usage ∨ e = .verbose ∨ e = .beginFname := by
    intro e he
    unfold optionOf at he
    split_ifs at he <;> simp_all
  rw [treatOne, treatOne, ha] at h
  cases hb : optionOf b with
  | none =>
    rw [hb] at h
    cases p <;> cases q <;> simp_all
  | some e =>
    rw [hb] at h
    rcases hopt e hb with rfl | rfl | rfl <;> cases q <;> simp_all

theorem optionOf_of_blank {a : List Char} {c : Char} (hc : a.head? = some c)
    (hblank : blank c = true) : optionOf a = none := by
  rw [optionOf_eq_none_iff]
  intro hmem
  have hdash : ∀ u ∈ wordRules.map Prod.fst, u.head? = some '-' := by decide
  rw [hdash a hmem] at hc
  cases hc
  cases hblank

theorem treat_rest {p : Bool} {args : List (List Char)}
    (h : treat p ((args.map (List.dropWhile blank)).filter (· ≠ [])) = treat p args) :
    ∀ a ∈ args, ∀ c, a.head? = some c → blank c = false := by
  induction args generalizing p with
  | nil => exact fun a ha => absurd ha List.not_mem_nil
  | cons a args ih =>
    rw [List.map_cons] at h
    by_cases hnil : a.dropWhile blank = []
    · -- an argument is lost
      have hlen := congrArg List.length h
      have hle := List.length_filter_le (fun b => decide (b ≠ []))
        (args.map (List.dropWhile blank))
      rw [List.filter_cons_of_neg (by simpa using hnil), length_treat, length_treat] at hlen
      rw [List.length_map] at hle
      rw [List.length_cons] at hlen
      omega
    · rw [List.filter_cons_of_pos (by simpa using hnil), treat, treat, List.cons.injEq] at h
      have hhead : ∀ c, a.head? = some c → blank c = false := by
        intro c hc
        by_contra hblank
        rw [Bool.not_eq_false] at hblank
        have heq := treatOne_name (optionOf_of_blank hc hblank) h.1
        have hfirst := List.head?_dropWhile_not blank a
        rw [heq, hc] at hfirst
        simp [hblank] at hfirst
      have hkeep : a.dropWhile blank = a := by
        cases a with
        | nil => rfl
        | cons c a => exact List.dropWhile_cons_of_neg (by simp [hhead c rfl])
      rw [hkeep] at h
      exact List.forall_mem_cons.mpr ⟨hhead, ih h.2⟩

theorem pattern_of_keep {cond : StartCondition} {r : Pattern Char × LexAction}
    (hr : r ∈ cond.rules) (hact : r.2 = .outfile ∨ r.2 = .infile) : r.1 = nonspaces := by
  have hwords : ∀ u ∈ wordRules, u.2 ≠ .outfile ∧ u.2 ≠ .infile := by decide
  simp only [StartCondition.rules, List.mem_append, List.mem_singleton, List.mem_map] at hr
  rcases hr with ((rfl | ⟨u, hu, rfl⟩) | hr) | rfl
  · simp at hact
  · simp [hwords u hu] at hact
  · cases cond with
    | initial => cases hr
    | fname =>
      obtain rfl := List.mem_singleton.mp hr
      rfl
  · rfl

/-- No text that is kept has a space. -/
theorem space_notMem_cmdlex (cond : StartCondition) (n : Nat) (cs : List Char) :
    ∀ e ∈ cmdlex cond n cs, ∀ name, e = .outfile name ∨ e = .infile name → ' ' ∉ name := by
  induction cs generalizing cond n with
  | nil =>
    intro e he
    cases n <;> cases he
  | cons c cs ih =>
    cases n with
    | succ n => exact ih cond n
    | zero =>
      rw [cmdlex]
      split
      · exact ih cond 0
      · rename_i k act hfirst
        intro e he name hname
        rw [List.mem_append] at he
        rcases he with he | he
        · obtain ⟨r, hr, hlong, rfl⟩ := Pattern.exists_longest_of_firstLongest hfirst
          have hkeep : (r.2 = .outfile ∨ r.2 = .infile) ∧ name = (c :: cs).take k := by
            cases hact : r.2 <;> rw [hact] at he <;> simp_all [LexAction.event]
          rw [pattern_of_keep hr hkeep.1] at hlong
          have hmem := (Pattern.matchLengths_of_longest hlong).2
          have hall := (Pattern.mem_language_plus_cls.mp hmem).2
          rw [hkeep.2]
          exact fun hspace => of_decide_eq_true (hall ' ' hspace) rfl
        · exact ih _ _ e he name hname

theorem mem_treat {p : Bool} {args : List (List Char)} {a : List Char} (ha : a ∈ args)
    (hopt : optionOf a = none) :
    ∃ e ∈ treat p args, e = .outfile a ∨ e = .infile a := by
  induction args generalizing p with
  | nil => cases ha
  | cons b args ih =>
    rcases List.mem_cons.mp ha with rfl | ha
    · refine ⟨_, List.mem_cons_self, ?_⟩
      rw [treatOne, hopt]
      cases p <;> simp
    · obtain ⟨e, he, hname⟩ := ih ha
      exact ⟨e, List.mem_cons_of_mem _ he, hname⟩

/-- The arguments that reach the scanner as they are: no argument has a space, none but
the first begins with a tab, and the first is not made of tabs. -/
structure Plain (args : List (List Char)) : Prop where
  space : ∀ a ∈ args, ' ' ∉ a
  tab : ∀ a ∈ args.tail, a.head? ≠ some '\t'
  first : ∀ a ∈ args.head?, ∃ c ∈ a, c ≠ '\t'

theorem seen_eq_self {args : List (List Char)} (hne : ∀ a ∈ args, a ≠ []) (h : Plain args) :
    seen args = args := by
  cases args with
  | nil => rfl
  | cons a args =>
    have hfirst : ¬ ∀ c ∈ a, c = '\t' := by
      obtain ⟨c, hc, hctab⟩ := h.first a rfl
      exact fun hall => hctab (hall c hc)
    have hdrop : ∀ b ∈ args, b.dropWhile blank = b := by
      intro b hb
      cases hcons : b with
      | nil => rfl
      | cons c b' =>
        refine List.dropWhile_cons_of_neg fun hblank => ?_
        simp only [blank, Bool.or_eq_true, decide_eq_true_eq] at hblank
        rcases hblank with rfl | rfl
        · exact h.space b (List.mem_cons_of_mem a hb) (hcons ▸ List.mem_cons_self)
        · exact h.tab b hb (by rw [hcons]; rfl)
    rw [seen, if_neg hfirst, List.map_congr_left hdrop, List.map_id', List.filter_eq_self.mpr]
    · rfl
    · exact fun b hb => decide_eq_true (hne b (List.mem_cons_of_mem a hb))

/-- Every argument is treated as it should exactly if all are plain. -/
theorem cmdlex_eq_treat_iff {args : List (List Char)} (hne : ∀ a ∈ args, a ≠ []) :
    cmdlex .initial 0 (args.flatMap fun a => a ++ [' ']) = treat false args ↔ Plain args := by
  constructor
  · intro h
    have hspace : ∀ a ∈ args, ' ' ∉ a := by
      intro a ha hmem
      have hopt : optionOf a = none := by
        rw [optionOf_eq_none_iff]
        exact fun hword => by
          obtain ⟨r, hr, rfl⟩ := List.mem_map.mp hword
          exact space_notMem_wordRules r hr hmem
      obtain ⟨e, he, hname⟩ := mem_treat (p := false) ha hopt
      rw [← h] at he
      exact space_notMem_cmdlex _ _ _ e he a hname hmem
    rw [cmdlex_eq_treat_seen hspace] at h
    cases args with
    | nil => exact ⟨hspace, fun a ha => absurd ha List.not_mem_nil, fun a ha => by cases ha⟩
    | cons a args =>
      rw [seen] at h
      by_cases htabs : ∀ c ∈ a, c = '\t'
      · -- the first argument is lost
        have hlen := congrArg List.length h
        have hle := List.length_filter_le (fun b => decide (b ≠ []))
          (args.map (List.dropWhile blank))
        rw [if_pos htabs, List.nil_append, length_treat, length_treat] at hlen
        rw [List.length_map] at hle
        rw [List.length_cons] at hlen
        omega
      · rw [if_neg htabs, List.singleton_append, treat, treat, List.cons.injEq] at h
        refine ⟨hspace, fun b hb hhead => ?_, ?_⟩
        · have hblank := treat_rest h.2 b hb '\t' hhead
          cases hblank
        · rintro b hb
          cases hb
          simpa using htabs
  · intro h
    rw [cmdlex_eq_treat_seen h.space, seen_eq_self hne h]

theorem perform_eq {s : Vars} (e : Event) (hs : s.infile.length ≤ maxIn) :
    e.perform s =
      if s.infile.length + ([e].filterMap Event.infileName).length ≤ maxIn then some (s.after [e])
      else none := by
  cases e with
  | infile name =>
    simp [Event.perform, Vars.after, Event.infileName, Event.outfileName]
  | _ => simp [Event.perform, Vars.after, List.filterMap, Event.infileName, Event.outfileName, hs]

theorem after_cons (s : Vars) (e : Event) (es : List Event) :
    s.after (e :: es) = (s.after [e]).after es := by
  have hsingle : e :: es = [e] ++ es := rfl
  unfold Vars.after
  rw [hsingle, List.filterMap_append, List.filterMap_append, List.getLast?_append, Option.or_assoc,
    List.append_assoc]
  by_cases hv : .verbose ∈ es <;> simp [hv]

theorem performAll_eq {s : Vars} (es : List Event) (hs : s.infile.length ≤ maxIn) :
    performAll s es =
      if s.infile.length + (es.filterMap Event.infileName).length ≤ maxIn then some (s.after es)
      else none := by
  induction es generalizing s with
  | nil => simp [performAll, Vars.after, hs]
  | cons e es ih =>
    have hcons : performAll s (e :: es) = (e.perform s).bind fun t => performAll t es := rfl
    have hlen : ((e :: es).filterMap Event.infileName).length =
        ([e].filterMap Event.infileName).length + (es.filterMap Event.infileName).length := by
      rw [← List.length_append, ← List.filterMap_append]
      rfl
    have hafter : (s.after [e]).infile.length =
        s.infile.length + ([e].filterMap Event.infileName).length := List.length_append
    rw [hcons, perform_eq e hs, hlen, after_cons s e es]
    by_cases hone : s.infile.length + ([e].filterMap Event.infileName).length ≤ maxIn
    · rw [if_pos hone, Option.bind_some, ih (by rwa [hafter]), hafter, Nat.add_assoc]
    · rw [if_neg hone, Option.bind_none, if_neg (by omega)]

/-- The command line is classified as it should exactly if the arguments are plain and
the input files among them fit into the array. -/
theorem classifies_iff (args : List Argument) (hne : ∀ a ∈ args, a.chars ≠ []) :
    Classifies args ↔ Plain (args.map Argument.chars) ∧
      ((treat false (args.map Argument.chars)).filterMap Event.infileName).length ≤ maxIn := by
  have hplain := @cmdlex_eq_treat_iff (args.map Argument.chars) (by simpa using hne)
  have hstream : stream args = (args.map Argument.chars).flatMap fun a => a ++ [' '] := by
    rw [List.flatMap_map, stream]
  have hperform := performAll_eq (s := Vars.initial)
    (treat false (args.map Argument.chars)) (Nat.zero_le _)
  rw [show Vars.initial.infile.length = 0 from rfl, Nat.zero_add] at hperform
  unfold Classifies
  rw [hstream, hplain]
  refine and_congr_right fun h => ?_
  rw [hplain.mpr h, hperform]
  simp

theorem classifies_iff_output :
    ∃ o x : Argument, o.chars = "-o".toList ∧ x.chars = "x".toList ∧
      (Classifies [o, x] ↔ Plain [o.chars, x.chars] ∧
        ((treat false [o.chars, x.chars]).filterMap Event.infileName).length ≤ maxIn) :=
  ⟨⟨"-o".toList, by decide⟩, ⟨"x".toList, by decide⟩, rfl, rfl,
    classifies_iff [⟨"-o".toList, by decide⟩, ⟨"x".toList, by decide⟩] (by decide)⟩

/-- A file name with a space becomes two input files. -/
theorem not_classifies_space :
    ∃ ab : Argument, ab.chars = "a b".toList ∧
      performAll .initial (cmdlex .initial 0 (stream [ab])) =
        some ⟨0, none, ["a".toList, "b".toList]⟩ ∧
      ¬ Classifies [ab] := by
  refine ⟨⟨"a b".toList, by decide⟩, rfl, by decide, ?_⟩
  rintro ⟨hevents, _⟩
  revert hevents
  decide

end CourseCompilers.CommandLine
