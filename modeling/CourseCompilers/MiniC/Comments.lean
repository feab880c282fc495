import CourseCompilers.Lib.Avoids
import CourseCompilers.MiniC.Scanner

/-! Comments do not matter to the scanner beyond the lines they take. -/

namespace CourseCompilers.MiniC
open Lib

/-- The text after the first end of a comment. -/
def commentEnd : List Char → Option (List Char)
  | [] => none
  | c :: cs => if c = '*' ∧ cs.head? = some '/' then some cs.tail else commentEnd cs

/-- A comment begins here. -/
def StartsComment (cs : List Char) : Prop := ['/', '*'] <+: cs

instance : DecidablePred StartsComment := fun _ => inferInstanceAs (Decidable (_ <+: _))

/-- The text with a space for each comment. There is none if a comment is not closed. -/
inductive Blanked : List Char → List Char → Prop
  | nil : Blanked [] []
  | char {c : Char} {cs out : List Char} : ¬ StartsComment (c :: cs) → Blanked cs out →
      Blanked (c :: cs) (c :: out)
  | comment {cs rest out : List Char} : commentEnd cs = some rest → Blanked rest out →
      Blanked ('/' :: '*' :: cs) (' ' :: out)

theorem Blanked.unique {cs out out' : List Char} (h : Blanked cs out) (h' : Blanked cs out') :
    out = out' := by
  induction h generalizing out' with
  | nil =>
    cases h'
    rfl
  | char hstart _ ih =>
    cases h' with
    | char _ hrest => rw [ih hrest]
    | comment => exact absurd (List.prefix_append ['/', '*'] _) hstart
  | comment hend _ ih =>
    cases h' with
    | char hstart => exact absurd (List.prefix_append ['/', '*'] _) hstart
    | comment hend' hrest =>
      cases hend.symm.trans hend'
      rw [ih hrest]

/-! ## Scanning with positions -/

/-- A token with the value of `line_num` and the input from the token on. -/
structure Located where
  token : Token
  line : Nat
  input : List Char

/-- The tokens returned, how the scanner stops, and the input it has not matched then. -/
structure LocatedScan where
  tokens : List Located
  ending : Ending
  input : List Char

/-- `scan`, with the positions. -/
def scanAt (cond : StartCondition) (line : Nat) : Nat → List Char → LocatedScan
  | _, [] => ⟨[], .eof cond line, []⟩
  | skip + 1, _ :: cs => scanAt cond line skip cs
  | 0, c :: cs =>
      match Pattern.firstLongest (c :: cs) cond.rules with
      | none => scanAt cond line 0 cs
      | some (n, .skip) => scanAt cond line (n - 1) cs
      | some (n, .newline) => scanAt cond (line + 1) (n - 1) cs
      | some (n, .token of) =>
          let r := scanAt cond line (n - 1) cs
          ⟨⟨of (String.ofList ((c :: cs).take n)), line, c :: cs⟩ :: r.tokens, r.ending, r.input⟩
      | some (n, .begin cond) => scanAt cond line (n - 1) cs
      | some (_, .lexicalError) => ⟨[], .lexicalError line, c :: cs⟩

/-- Without the positions it is `scan`. -/
theorem scan_eq_scanAt (cond : StartCondition) (line n : Nat) (cs : List Char) :
    scan cond line n cs =
      ⟨(scanAt cond line n cs).tokens.map fun t => (t.token, t.line),
        (scanAt cond line n cs).ending⟩ := by
  induction cs generalizing cond line n with
  | nil => cases n <;> rfl
  | cons c cs ih =>
    cases n with
    | succ n => exact ih cond line n
    | zero =>
      rcases hwin : Pattern.firstLongest (c :: cs) cond.rules with _ | ⟨n, act⟩
      · simp [scan, scanAt, hwin, ih]
      · cases act <;> simp [scan, scanAt, hwin, ih]

/-! ## What the rules match -/

/-- The rules of the C++ front end, with the second rule for `switch`. -/
def LexRule.cppInitialRules : List LexRule :=
  initialRules.take 50 ++ (.word "switch".toList, .lexicalError) :: initialRules.drop 50

/-- It never wins, so both scanners read every text alike. -/
theorem firstLongest_cppInitialRules (cs : List Char) :
    Pattern.firstLongest cs LexRule.cppInitialRules =
      Pattern.firstLongest cs LexRule.initialRules := by
  have hmem : LexRule.fixed "switch" .switchKeyword ∈ LexRule.initialRules.take 50 := by
    simp [LexRule.initialRules]
  rw [LexRule.cppInitialRules, Pattern.firstLongest_duplicate hmem, List.take_append_drop]

def LexAction.isNewline : LexAction → Bool
  | .newline => true
  | _ => false

def LexAction.beginsComment : LexAction → Bool
  | .begin .comment => true
  | _ => false

/-- The characters that separate tokens. -/
def delimiters : List Char := [' ', '\t', '\n', '/']

theorem initialRules_tail_tailAvoids :
    ∀ d ∈ delimiters, LexRule.initialRules.tail.all (fun r => r.1.tailAvoids d) = true := by
  intro d hd
  simp only [delimiters, List.mem_cons, List.not_mem_nil, or_false] at hd
  rcases hd with rfl | rfl | rfl | rfl <;> decide

theorem initialRules_tail_blank :
    ∀ d ∈ [' ', '\t'],
      LexRule.initialRules.tail.all (fun r => (r.1.derivs [d]).onlyNil) = true := by
  intro d hd
  simp only [List.mem_cons, List.not_mem_nil, or_false] at hd
  rcases hd with rfl | rfl <;> decide

theorem initialRules_comment :
    LexRule.initialRules.all (fun r => (r.1.derivs ['/', '*']).onlyNil &&
      (!(r.1.derivs ['/', '*']).nullable || r.2.beginsComment)) = true := by
  decide

theorem newline_of_mem_rules {cond : StartCondition} {p : Pattern Char}
    (h : (p, .newline) ∈ cond.rules) : p = LexRule.newline := by
  cases cond with
  | initial => simpa [StartCondition.rules, LexRule.initialRules, LexRule.fixed] using h
  | comment => simpa [StartCondition.rules, LexRule.commentRules] using h

theorem rules_avoids_newline (cond : StartCondition) :
    cond.rules.all (fun r => r.2.isNewline || r.1.avoids '\n') = true := by
  cases cond <;> decide

/-- Only the rule for the end of a line matches one. -/
theorem count_newline_of_firstLongest {cond : StartCondition} {cs : List Char} {n : Nat}
    {act : LexAction} (h : Pattern.firstLongest cs cond.rules = some (n, act)) (hcr : '\r' ∉ cs) :
    (cs.take n).count '\n' = if act.isNewline then 1 else 0 := by
  obtain ⟨r, hr, hlong, rfl⟩ := Pattern.exists_longest_of_firstLongest h
  have hmem := (Pattern.matchLengths_of_longest hlong).2
  by_cases hnew : r.2.isNewline = true
  · obtain ⟨p, act⟩ := r
    cases act <;> simp only [LexAction.isNewline, Bool.false_eq_true] at hnew
    rw [newline_of_mem_rules hr] at hmem
    obtain ⟨c, hc, heq⟩ := hmem
    simp only [Bool.or_eq_true, decide_eq_true_eq] at hc
    rcases hc with rfl | rfl
    · rw [heq]
      rfl
    · exact absurd (List.mem_of_mem_take (heq ▸ List.mem_singleton_self _)) hcr
  · have havoid := List.all_eq_true.mp (rules_avoids_newline cond) r hr
    rw [Bool.or_eq_true] at havoid
    rw [if_neg hnew]
    exact List.count_eq_zero.mpr (Pattern.notMem_of_avoids (havoid.resolve_left hnew) hmem)

/-- The line of a token is that of the place where it stands. -/
theorem line_of_mem_scanAt {cond : StartCondition} {line n : Nat} {cs : List Char}
    (hcr : '\r' ∉ cs) {t : Located} (ht : t ∈ (scanAt cond line n cs).tokens) :
    ∃ before, cs.drop n = before ++ t.input ∧ t.line = line + before.count '\n' := by
  induction cs generalizing cond line n with
  | nil => cases n <;> cases ht
  | cons c cs ih =>
    have hcs : '\r' ∉ cs := fun hmem => hcr (List.mem_cons_of_mem c hmem)
    cases n with
    | succ n => exact ih hcs ht
    | zero =>
      obtain ⟨k, act, hwin⟩ := cond.exists_match c cs
      have hcount := count_newline_of_firstLongest hwin hcr
      have hfrom : ∀ line' cond', line' = line + ((c :: cs).take (k + 1)).count '\n' →
          t ∈ (scanAt cond' line' k cs).tokens →
          ∃ before, c :: cs = before ++ t.input ∧ t.line = line + before.count '\n' := by
        rintro line' cond' rfl ht'
        obtain ⟨before, hdrop, hline⟩ := ih hcs ht'
        refine ⟨(c :: cs).take (k + 1) ++ before, ?_, ?_⟩
        · rw [List.append_assoc, ← hdrop, ← List.drop_succ_cons (a := c), List.take_append_drop]
        · rw [hline, List.count_append, Nat.add_assoc]
      cases act with
      | skip =>
        simp only [scanAt, hwin, Nat.add_sub_cancel] at ht
        exact hfrom line cond (by rw [hcount]; rfl) ht
      | newline =>
        simp only [scanAt, hwin, Nat.add_sub_cancel] at ht
        exact hfrom (line + 1) cond (by rw [hcount]; rfl) ht
      | token of =>
        simp only [scanAt, hwin, Nat.add_sub_cancel, List.mem_cons] at ht
        rcases ht with rfl | ht
        · exact ⟨[], rfl, rfl⟩
        · exact hfrom line cond (by rw [hcount]; rfl) ht
      | begin cond' =>
        simp only [scanAt, hwin, Nat.add_sub_cancel] at ht
        exact hfrom line cond' (by rw [hcount]; rfl) ht
      | lexicalError =>
        simp only [scanAt, hwin] at ht
        cases ht

theorem scanAt_drop (cond : StartCondition) (line n : Nat) (cs : List Char) :
    scanAt cond line n cs = scanAt cond line 0 (cs.drop n) := by
  induction cs generalizing n with
  | nil => cases n <;> rfl
  | cons c cs ih =>
    cases n with
    | zero => rfl
    | succ n => exact ih n

/-! ## In a comment -/

theorem commentEnd_append {w : List Char} (hw : '*' ∉ w) (cs : List Char) :
    commentEnd (w ++ cs) = commentEnd cs := by
  induction w with
  | nil => rfl
  | cons c w ih =>
    rw [List.mem_cons, not_or] at hw
    rw [List.cons_append, commentEnd, if_neg fun h => hw.1 h.1.symm, ih hw.2]

theorem commentEnd_stars {w : List Char} (hw : ∀ c ∈ w, c = '*') (hne : w ≠ []) (cs : List Char) :
    commentEnd (w ++ cs) = if cs.head? = some '/' then some cs.tail else commentEnd cs := by
  induction w with
  | nil => exact absurd rfl hne
  | cons c w ih =>
    rw [List.forall_mem_cons] at hw
    obtain ⟨rfl, hw⟩ := hw
    cases w with
    | nil => simp [commentEnd]
    | cons d w =>
      have hd : d = '*' := hw d List.mem_cons_self
      rw [List.cons_append, commentEnd, if_neg (by simp [hd]), ih hw (List.cons_ne_nil _ _)]

theorem commentEnd_suffix {cs rest : List Char} (h : commentEnd cs = some rest) :
    ∃ body, cs = body ++ rest ∧ body ≠ [] := by
  induction cs with
  | nil => cases h
  | cons c cs ih =>
    rw [commentEnd] at h
    split at h
    · rename_i hend
      cases h
      obtain ⟨_, hhead⟩ := hend
      refine ⟨[c, '/'], ?_, List.cons_ne_nil _ _⟩
      cases cs with
      | nil => cases hhead
      | cons d cs =>
        cases hhead
        rfl
    · obtain ⟨body, rfl, _⟩ := ih h
      exact ⟨c :: body, rfl, List.cons_ne_nil _ _⟩

theorem mem_stars {w : List Char} :
    w ∈ (Pattern.plus (.word ['*'])).language ↔ w ≠ [] ∧ ∀ c ∈ w, c = '*' :=
  Pattern.mem_language_plus_single fun w => by simp [Pattern.mem_language_word]

/-- Stars are not matched by themselves if a slash follows. -/
theorem stars_slash {cs stars : List Char} {n : Nat} {act : LexAction}
    (hwin : Pattern.firstLongest cs StartCondition.comment.rules = some (n, act))
    (hne : stars ≠ []) (hall : ∀ c ∈ stars, c = '*') (htake : cs.take n = stars)
    (hlt : n = stars.length) : (cs.drop n).head? ≠ some '/' := by
  intro hhead
  obtain ⟨rest, hrest⟩ : ∃ rest, cs.drop n = '/' :: rest := List.head?_eq_some_iff.mp hhead
  have hcs : cs = (stars ++ ['/']) ++ rest := by
    rw [← List.take_append_drop n cs, htake, hrest, List.append_assoc, List.singleton_append]
  have hmem : n + 1 ∈ (Pattern.seq (.plus (.word ['*'])) (.word ['/'])).matchLengths cs := by
    have hlen : (stars ++ ['/']).length = n + 1 := by rw [hlt, List.length_append]; rfl
    rw [Pattern.mem_matchLengths, hcs, ← hlen, List.take_left]
    refine ⟨by simp, Pattern.mem_language_seq.mpr
      ⟨stars, mem_stars.mpr ⟨hne, hall⟩, ['/'], ?_, rfl⟩⟩
    rw [Pattern.mem_language_word]
  have hrule : (Pattern.seq (.plus (.word ['*'])) (.word ['/']), LexAction.begin .initial) ∈
      StartCondition.comment.rules := by simp [StartCondition.rules, LexRule.commentRules]
  obtain ⟨m, act', hwin', hle⟩ := Pattern.le_firstLongest_of_match hrule hmem
  cases hwin.symm.trans hwin'
  omega

/-- In a comment the scanner gets to the first end of it. -/
theorem scanAt_comment {cs rest : List Char} (hend : commentEnd cs = some rest)
    (hcr : '\r' ∉ cs) (line : Nat) :
    ∃ line', scanAt .comment line 0 cs = scanAt .initial line' 0 rest := by
  induction hn : cs.length using Nat.strong_induction_on generalizing cs line with
  | _ n ih =>
    cases cs with
    | nil => cases hend
    | cons c cs =>
      obtain ⟨k, act, hwin⟩ := StartCondition.comment.exists_match c cs
      obtain ⟨r, hr, hlong, rfl⟩ := Pattern.exists_longest_of_firstLongest hwin
      obtain ⟨hle, hmem⟩ := Pattern.matchLengths_of_longest hlong
      have hsplit := List.take_append_drop (k + 1) (c :: cs)
      have hshort : ((c :: cs).drop (k + 1)).length < n := by
        rw [List.length_drop, ← hn]
        omega
      have hcr' : '\r' ∉ (c :: cs).drop (k + 1) := fun h => hcr (List.mem_of_mem_drop h)
      have hgo := fun hend' line => ih _ hshort hend' hcr' line rfl
      simp only [StartCondition.rules, LexRule.commentRules, List.mem_cons, List.not_mem_nil,
        or_false] at hr
      have hstep : ∀ line, scanAt .comment line k cs =
          scanAt .comment line 0 ((c :: cs).drop (k + 1)) := fun line => scanAt_drop _ _ _ _
      rcases hr with rfl | rfl | rfl | rfl
      · -- text without a star
        have hstar : '*' ∉ (c :: cs).take (k + 1) := fun h => by
          simpa using Pattern.mem_language_star_cls.mp hmem '*' h
        rw [← hsplit, commentEnd_append hstar] at hend
        simp only [scanAt, hwin, Nat.add_sub_cancel, hstep]
        exact hgo hend line
      · -- stars and text that does not end the comment
        obtain ⟨stars, hstars, text, htext, heq⟩ := Pattern.mem_language_seq.mp hmem
        obtain ⟨hne, hall⟩ := mem_stars.mp hstars
        have hplain := Pattern.mem_language_star_cls.mp htext
        rw [← hsplit, ← heq, List.append_assoc, commentEnd_stars hall hne] at hend
        have hslash : (text ++ (c :: cs).drop (k + 1)).head? ≠ some '/' := by
          cases text with
          | cons d text =>
            rintro heq
            cases heq
            simpa using hplain '/' List.mem_cons_self
          | nil =>
            rw [List.append_nil] at heq
            have hlen : k + 1 = stars.length := by
              rw [heq, List.length_take, Nat.min_eq_left hle]
            exact stars_slash hwin hne hall heq.symm hlen
        have hstar : '*' ∉ text := fun h => by simpa using hplain '*' h
        rw [if_neg hslash, commentEnd_append hstar] at hend
        simp only [scanAt, hwin, Nat.add_sub_cancel, hstep]
        exact hgo hend line
      · -- the end of a line
        obtain ⟨d, hd, heq⟩ := hmem
        have hstar : '*' ∉ (c :: cs).take (k + 1) := by
          rw [heq, List.mem_singleton]
          rintro rfl
          cases hd
        rw [← hsplit, commentEnd_append hstar] at hend
        simp only [scanAt, hwin, Nat.add_sub_cancel, hstep]
        exact hgo hend (line + 1)
      · -- the end of the comment
        obtain ⟨stars, hstars, slash, hslash, heq⟩ := Pattern.mem_language_seq.mp hmem
        obtain ⟨hne, hall⟩ := mem_stars.mp hstars
        rw [Pattern.mem_language_word.mp hslash] at heq
        rw [← hsplit, ← heq, List.append_assoc, commentEnd_stars hall hne] at hend
        cases hend
        refine ⟨line, ?_⟩
        simp only [scanAt, hwin, Nat.add_sub_cancel]
        exact scanAt_drop _ _ _ _

/-! ## Outside comments -/

/-- A comment begins with the rule for that. -/
theorem scanAt_beginComment (line : Nat) (cs : List Char) :
    scanAt .initial line 0 ('/' :: '*' :: cs) = scanAt .comment line 0 cs := by
  have hrule : (Pattern.word ['/', '*'], LexAction.begin .comment) ∈
      StartCondition.initial.rules := by simp [StartCondition.rules, LexRule.initialRules]
  have htwo : 2 ∈ (Pattern.word ['/', '*']).matchLengths ('/' :: '*' :: cs) :=
    ⟨by simp, Pattern.mem_language_word.mpr rfl⟩
  obtain ⟨n, act, hwin, hle⟩ := Pattern.le_firstLongest_of_match hrule htwo
  obtain ⟨rfl, hact⟩ := Pattern.firstLongest_start (u := ['/', '*']) initialRules_comment hwin hle
  cases act <;> simp only [LexAction.beginsComment, Bool.false_eq_true] at hact
  rename_i cond
  cases cond
  · cases hact
  · simp only [scanAt, hwin]
    exact scanAt_drop _ _ _ _

def isBlank (c : Char) : Bool := c = '\t' || c = ' '

/-- The rule for blanks wins at a blank, for all that are there. -/
theorem firstLongest_blank {c : Char} (hc : isBlank c = true) (cs : List Char) :
    Pattern.firstLongest (c :: cs) StartCondition.initial.rules =
      some ((cs.takeWhile isBlank).length + 1, .skip) := by
  have hspace : LexRule.space.longest (c :: cs) = some ((cs.takeWhile isBlank).length + 1) := by
    have hlong := Pattern.longest_star_cls isBlank (c :: cs)
    rwa [List.takeWhile_cons_of_pos hc] at hlong
  have hother : ∀ r ∈ LexRule.initialRules.tail, ∀ k ∈ r.1.matchLengths (c :: cs), k ≤ 1 := by
    intro r hr k hk
    have hmem : c ∈ [' ', '\t'] := by
      simp only [isBlank, Bool.or_eq_true, decide_eq_true_eq] at hc
      rcases hc with rfl | rfl <;> simp
    have hcheck := List.all_eq_true.mp (initialRules_tail_blank c hmem) r hr
    exact Pattern.le_of_onlyNil (u := [c]) hcheck hk
  refine Pattern.firstLongest_eq_find (r := (LexRule.space, LexAction.skip)) ?_ ?_
  · intro r hr k hk
    rcases List.mem_cons.mp hr with rfl | hr
    · exact (Option.some.inj (hk.symm.trans hspace)).le
    · exact Nat.le_trans (hother r hr k (Pattern.matchLengths_of_longest hk))
        (Nat.succ_le_succ (Nat.zero_le _))
  · exact List.find?_cons_of_pos (by simpa using hspace)

/-- All blanks are skipped at once. -/
theorem scanAt_dropWhile_blank (line : Nat) (cs : List Char) :
    scanAt .initial line 0 cs = scanAt .initial line 0 (cs.dropWhile isBlank) := by
  cases cs with
  | nil => rfl
  | cons c cs =>
    by_cases hc : isBlank c = true
    · have hdrop : (cs.takeWhile isBlank ++ cs.dropWhile isBlank).drop
          (cs.takeWhile isBlank).length = cs.dropWhile isBlank := List.drop_left
      rw [List.takeWhile_append_dropWhile] at hdrop
      simp only [scanAt, firstLongest_blank hc, Nat.add_sub_cancel]
      rw [scanAt_drop, hdrop, List.dropWhile_cons_of_pos hc]
    · rw [List.dropWhile_cons_of_neg hc]

theorem scanAt_blank {c : Char} (hc : isBlank c = true) (line : Nat) (cs : List Char) :
    scanAt .initial line 0 (c :: cs) = scanAt .initial line 0 cs := by
  rw [scanAt_dropWhile_blank, List.dropWhile_cons_of_pos hc, ← scanAt_dropWhile_blank]

/-! ## Texts that are alike up to the next delimiter -/

/-- A text that begins a token: no rule matches beyond the next delimiter. -/
theorem le_of_matchLengths {c : Char} {w rest : List Char} (hc : isBlank c = false)
    (hrest : ∀ d ∈ rest.head?, d ∈ delimiters) {r : LexRule} (hr : r ∈ LexRule.initialRules)
    {n : Nat} (hn : n ∈ r.1.matchLengths (c :: (w ++ rest))) : n ≤ w.length + 1 := by
  by_contra hlt
  obtain ⟨hle, hmem⟩ := hn
  obtain ⟨k, rfl⟩ : ∃ k, n = w.length + 1 + 1 + k := ⟨n - (w.length + 1 + 1), by omega⟩
  cases rest with
  | nil => 
    rw [List.append_nil, List.length_cons] at hle
    omega
  | cons d rest =>
    have hd : d ∈ delimiters := hrest d rfl
    have htake : (c :: (w ++ d :: rest)).take (w.length + 1 + 1 + k) =
        c :: (w ++ d :: rest.take k) := by
      rw [show w.length + 1 + 1 + k = (w.length + (k + 1)) + 1 by omega, List.take_succ_cons,
        List.take_length_add_append, List.take_succ_cons]
    rw [htake] at hmem
    rcases List.mem_cons.mp hr with rfl | hr
    · have hblank := Pattern.mem_language_star_cls.mp hmem c List.mem_cons_self
      exact absurd hblank (by simpa [isBlank] using hc)
    · have hcheck := List.all_eq_true.mp (initialRules_tail_tailAvoids d hd) r hr
      exact Pattern.notMem_of_tailAvoids hcheck hmem (by simp)

theorem mem_matchLengths_text {c : Char} {w rest : List Char} (hc : isBlank c = false)
    (hrest : ∀ d ∈ rest.head?, d ∈ delimiters) {r : LexRule} (hr : r ∈ LexRule.initialRules)
    {n : Nat} : n ∈ r.1.matchLengths (c :: (w ++ rest)) ↔ n ∈ r.1.matchLengths (c :: w) := by
  have htake : n ≤ w.length + 1 → (c :: (w ++ rest)).take n = (c :: w).take n := by
    intro hle
    rw [← List.cons_append, List.take_append_of_le_length (by simpa using hle)]
  constructor
  · intro hn
    have hle := le_of_matchLengths hc hrest hr hn
    exact ⟨by simpa using hle, htake hle ▸ hn.2⟩
  · rintro ⟨hle, hmem⟩
    rw [List.length_cons] at hle
    exact ⟨by simp only [List.length_cons, List.length_append]; omega, (htake hle).symm ▸ hmem⟩

/-- What the scanner does at the start of a token depends only on the text up to the
next delimiter. -/
theorem firstLongest_text {c : Char} {w rest : List Char} (hc : isBlank c = false)
    (hrest : ∀ d ∈ rest.head?, d ∈ delimiters) :
    Pattern.firstLongest (c :: (w ++ rest)) StartCondition.initial.rules =
      Pattern.firstLongest (c :: w) StartCondition.initial.rules :=
  Pattern.firstLongest_congr fun _ hr => Pattern.longest_congr
    (Set.ext fun _ => mem_matchLengths_text hc hrest hr)

theorem Blanked.exists_text {cs out : List Char} (h : Blanked cs out) :
    ∃ w rest rest', cs = w ++ rest ∧ out = w ++ rest' ∧ (∀ c ∈ w, c ∉ delimiters) ∧
      Blanked rest rest' ∧ (∀ d ∈ rest.head?, d ∈ delimiters) ∧
      ∀ d ∈ rest'.head?, d ∈ delimiters := by
  induction h with
  | nil => exact ⟨[], [], [], rfl, rfl, by simp, .nil, by simp, by simp⟩
  | @char c cs out hstart hcs ih =>
    by_cases hc : c ∈ delimiters
    · exact ⟨[], c :: cs, c :: out, rfl, rfl, by simp, .char hstart hcs, by simpa using hc,
        by simpa using hc⟩
    · obtain ⟨w, rest, rest', rfl, rfl, hw, hblank, hrest, hrest'⟩ := ih
      exact ⟨c :: w, rest, rest', rfl, rfl, List.forall_mem_cons.mpr ⟨hc, hw⟩, hblank, hrest,
        hrest'⟩
  | @comment cs rest out hend hrest _ =>
    refine ⟨[], _, _, rfl, rfl, by simp, .comment hend hrest, ?_, ?_⟩ <;> simp [delimiters]

theorem Blanked.append {w rest rest' : List Char} (hw : ∀ c ∈ w, c ∉ delimiters)
    (h : Blanked rest rest') : Blanked (w ++ rest) (w ++ rest') := by
  induction w with
  | nil => exact h
  | cons c w ih =>
    rw [List.forall_mem_cons] at hw
    refine .char (fun hstart => ?_) (ih hw.2)
    obtain ⟨_, heq⟩ := hstart
    rw [← (List.cons.inj heq).1] at hw
    exact hw.1 (by decide)

/-! ## Comments are transparent -/

/-- Both scans stop for the same reason: at the end of the input, or at the same
character. -/
inductive StopAlike : LocatedScan → LocatedScan → Prop
  | eof {s t : LocatedScan} {cond : StartCondition} {line line' : Nat} :
      s.ending = .eof cond line → t.ending = .eof cond line' → StopAlike s t
  | lexicalError {s t : LocatedScan} {line line' : Nat} {c : Char} {cs cs' : List Char} :
      s.ending = .lexicalError line → t.ending = .lexicalError line' → s.input = c :: cs →
      t.input = c :: cs' → Blanked cs cs' → StopAlike s t

/-- The same tokens and the same end. -/
structure Alike (s t : LocatedScan) : Prop where
  tokens : s.tokens.map Located.token = t.tokens.map Located.token
  stop : StopAlike s t

theorem Alike.cons {s t : LocatedScan} (h : Alike s t) {a b : Located} (hab : a.token = b.token) :
    Alike ⟨a :: s.tokens, s.ending, s.input⟩ ⟨b :: t.tokens, t.ending, t.input⟩ := by
  constructor
  · rw [List.map_cons, List.map_cons, hab, h.tokens]
  · cases h.stop with
    | eof hs ht => exact .eof hs ht
    | lexicalError hs ht hsi hti hrest => exact .lexicalError hs ht hsi hti hrest

theorem begin_of_mem_initialRules {p : Pattern Char} {cond : StartCondition}
    (h : (p, .begin cond) ∈ LexRule.initialRules) : p = .word ['/', '*'] ∧ cond = .comment := by
  simpa [LexRule.initialRules, LexRule.fixed] using h

theorem scanAt_blanked {text out : List Char} (h : Blanked text out) (hcr : '\r' ∉ text)
    (line line' : Nat) : Alike (scanAt .initial line 0 text) (scanAt .initial line' 0 out) := by
  induction hn : text.length using Nat.strong_induction_on generalizing text out line line' with
  | _ n ih =>
    cases h with
    | nil => exact ⟨rfl, .eof rfl rfl⟩
    | @comment cs rest out hend hrest =>
      have hcs : '\r' ∉ cs := fun hmem =>
        hcr (List.mem_cons_of_mem _ (List.mem_cons_of_mem _ hmem))
      obtain ⟨line'', hline⟩ := scanAt_comment hend hcs line
      obtain ⟨body, rfl, _⟩ := commentEnd_suffix hend
      rw [scanAt_beginComment, hline, scanAt_blank rfl]
      refine ih _ ?_ hrest (fun hmem => hcs (List.mem_append_right _ hmem)) line'' line' rfl
      rw [← hn]
      simp only [List.length_cons, List.length_append]
      omega
    | @char c cs out hstart hrest =>
      have hcs : '\r' ∉ cs := fun hmem => hcr (List.mem_cons_of_mem _ hmem)
      by_cases hblank : isBlank c = true
      · rw [scanAt_blank hblank, scanAt_blank hblank]
        exact ih _ (by rw [← hn]; exact Nat.lt_succ_self _) hrest hcs line line' rfl
      · obtain ⟨w, rest, rest', rfl, rfl, hw, hrest, hhead, hhead'⟩ := hrest.exists_text
        rw [Bool.not_eq_true] at hblank
        obtain ⟨k, act, hwin⟩ := StartCondition.initial.exists_match c w
        have hwin₁ := (firstLongest_text hblank hhead).trans hwin
        have hwin₂ := (firstLongest_text hblank hhead').trans hwin
        obtain ⟨r, hr, hlong, rfl⟩ := Pattern.exists_longest_of_firstLongest hwin
        obtain ⟨hle, hmem⟩ := Pattern.matchLengths_of_longest hlong
        have hk : k ≤ w.length := Nat.le_of_succ_le_succ hle
        have htake : ∀ u, (c :: (w ++ u)).take (k + 1) = (c :: w).take (k + 1) := fun u => by
          rw [← List.cons_append, List.take_append_of_le_length hle]
        have hgo : ∀ line line', Alike (scanAt .initial line k (w ++ rest))
            (scanAt .initial line' k (w ++ rest')) := by
          intro line line'
          rw [scanAt_drop, scanAt_drop _ line', List.drop_append_of_le_length hk,
            List.drop_append_of_le_length hk]
          have hw' : ∀ d ∈ w.drop k, d ∉ delimiters := fun d hd => hw d (List.mem_of_mem_drop hd)
          refine ih _ ?_ (.append hw' hrest) (fun hcr' => hcs ?_) line line' rfl
          · rw [← hn]
            simp only [List.length_cons, List.length_append, List.length_drop]
            omega
          · rw [← List.drop_append_of_le_length hk] at hcr'
            exact List.mem_of_mem_drop hcr'
        obtain ⟨p, act⟩ := r
        cases act with
        | skip =>
          simp only [scanAt, hwin₁, hwin₂, Nat.add_sub_cancel]
          exact hgo line line'
        | newline =>
          simp only [scanAt, hwin₁, hwin₂, Nat.add_sub_cancel]
          exact hgo (line + 1) (line' + 1)
        | token of =>
          simp only [scanAt, hwin₁, hwin₂, Nat.add_sub_cancel]
          exact (hgo line line').cons (by rw [htake, htake])
        | begin cond =>
          -- this rule needs the two characters that begin a comment
          rw [(begin_of_mem_initialRules hr).1] at hmem
          have hprefix := List.take_prefix (k + 1) (c :: (w ++ rest))
          rw [htake, Pattern.mem_language_word.mp hmem] at hprefix
          exact absurd hprefix hstart
        | lexicalError =>
          simp only [scanAt, hwin₁, hwin₂]
          exact ⟨rfl, .lexicalError rfl rfl rfl rfl (.append hw hrest)⟩

/-- The scanner finds the same tokens and stops for the same reason as on the text in
which a space stands for each comment, and it counts the lines of the whole text. -/
theorem scan_blanked {text out : List Char} (h : Blanked text out) (hcr : '\r' ∉ text) :
    (scan .initial 1 0 text).tokens.map Prod.fst = (scan .initial 1 0 out).tokens.map Prod.fst ∧
      StopAlike (scanAt .initial 1 0 text) (scanAt .initial 1 0 out) ∧
      (scan .initial 1 0 text).tokens =
        (scanAt .initial 1 0 text).tokens.map (fun t => (t.token, t.line)) ∧
      ∀ t ∈ (scanAt .initial 1 0 text).tokens,
        ∃ before, text = before ++ t.input ∧ t.line = 1 + before.count '\n' := by
  have halike := scanAt_blanked h hcr 1 1
  refine ⟨?_, halike.stop, by rw [scan_eq_scanAt], fun t ht => line_of_mem_scanAt hcr ht⟩
  have htokens := halike.tokens
  rw [scan_eq_scanAt, scan_eq_scanAt, List.map_map, List.map_map]
  exact htokens

/-- A comment that ends in a run of stars, over the end of a line. -/
theorem scan_blanked_stars :
    Blanked "a/*\n**/b".toList "a b".toList ∧
      (scan .initial 1 0 "a/*\n**/b".toList).tokens.map Prod.fst =
        (scan .initial 1 0 "a b".toList).tokens.map Prod.fst := by
  have h : Blanked "a/*\n**/b".toList "a b".toList :=
    .char (by decide) (.comment rfl (.char (by decide) .nil))
  exact ⟨h, (scan_blanked h (by decide)).1⟩

end CourseCompilers.MiniC
