import CourseCompilers.Lib.Machine
import CourseCompilers.MiniC.Comments
import CourseCompilers.MiniC.Driver

/-! Where an error is reported: `line_num`, which the scanner's rules count, and
`infile_cnt`, which `yywrap` counts. -/

namespace CourseCompilers.MiniC
open Lib

/-! ## Line ends of a text -/

/-- Where in a text the next character stands. After a slash a comment may begin, after
a star it may end. -/
inductive Place where
  | code
  | slash
  | comment
  | star
  deriving DecidableEq, Repr

namespace Place

def next : Place → Char → Place
  | .code, c => if c = '/' then .slash else .code
  | .slash, c => if c = '*' then .comment else if c = '/' then .slash else .code
  | .comment, c => if c = '*' then .star else .comment
  | .star, c => if c = '/' then .code else if c = '*' then .star else .comment

def after (p : Place) (text : List Char) : Place := text.foldl next p

/-- At the start of the next file: an open comment stays open. -/
def atNextFile : Place → Place
  | .code | .slash => .code
  | .comment | .star => .comment

def inComment : Place → Bool
  | .code | .slash => false
  | .comment | .star => true

@[simp] theorem after_nil (p : Place) : p.after [] = p := rfl

theorem after_cons (p : Place) (c : Char) (text : List Char) :
    p.after (c :: text) = (p.next c).after text := rfl

theorem after_append (p : Place) (text rest : List Char) :
    p.after (text ++ rest) = (p.after text).after rest := List.foldl_append

end Place

/-- The carriage returns of a text that stand outside comments. -/
def returnsIn (p : Place) : List Char → Nat
  | [] => 0
  | c :: text => (if c = '\r' ∧ p.inComment = false then 1 else 0) + returnsIn (p.next c) text

/-- What the scanner takes for the ends of the lines of a text. -/
def lineEnds (p : Place) (text : List Char) : Nat := text.count '\n' + returnsIn p text

/-- The place at the start of the file after these. -/
def placeAfter (p : Place) : List (List Char) → Place
  | [] => p
  | text :: files => placeAfter (p.after text).atNextFile files

/-- The line ends of several files. -/
def lineEndsOf (p : Place) : List (List Char) → Nat
  | [] => 0
  | text :: files => lineEnds p text + lineEndsOf (p.after text).atNextFile files

theorem returnsIn_append (p : Place) (text rest : List Char) :
    returnsIn p (text ++ rest) = returnsIn p text + returnsIn (p.after text) rest := by
  induction text generalizing p with
  | nil => simp [returnsIn]
  | cons c text ih =>
    rw [List.cons_append, returnsIn, returnsIn, ih, Place.after_cons]
    omega

theorem lineEnds_append (p : Place) (text rest : List Char) :
    lineEnds p (text ++ rest) = lineEnds p text + lineEnds (p.after text) rest := by
  rw [lineEnds, lineEnds, lineEnds, List.count_append, returnsIn_append]
  omega

theorem placeAfter_append (p : Place) (files rest : List (List Char)) :
    placeAfter p (files ++ rest) = placeAfter (placeAfter p files) rest := by
  induction files generalizing p with
  | nil => rfl
  | cons text files ih => exact ih _

theorem lineEndsOf_append (p : Place) (files rest : List (List Char)) :
    lineEndsOf p (files ++ rest) = lineEndsOf p files + lineEndsOf (placeAfter p files) rest := by
  induction files generalizing p with
  | nil => simp [lineEndsOf, placeAfter]
  | cons text files ih =>
    rw [List.cons_append, lineEndsOf, lineEndsOf, placeAfter, ih]
    omega

theorem returnsIn_eq_zero {text : List Char} (h : '\r' ∉ text) (p : Place) :
    returnsIn p text = 0 := by
  induction text generalizing p with
  | nil => rfl
  | cons c text ih =>
    rw [List.mem_cons, not_or] at h
    rw [returnsIn, ih h.2, if_neg fun hc => h.1 hc.1.symm]

theorem Place.after_code {text : List Char} (h : '/' ∉ text) : Place.code.after text = .code := by
  induction text with
  | nil => rfl
  | cons c text ih =>
    rw [List.mem_cons, not_or] at h
    rw [after_cons, next, if_neg fun hc => h.1 hc.symm, ih h.2]

theorem Place.after_comment {text : List Char} (h : '*' ∉ text) :
    Place.comment.after text = .comment := by
  induction text with
  | nil => rfl
  | cons c text ih =>
    rw [List.mem_cons, not_or] at h
    rw [after_cons, next, if_neg fun hc => h.1 hc.symm, ih h.2]

/-- Inside a comment carriage returns do not matter. -/
theorem returnsIn_comment {text : List Char} (h : '*' ∉ text) :
    returnsIn .comment text = 0 := by
  induction text with
  | nil => rfl
  | cons c text ih =>
    rw [List.mem_cons, not_or] at h
    have hnext : Place.comment.next c = .comment := if_neg fun hc => h.1 hc.symm
    rw [returnsIn, hnext, ih h.2]
    simp [Place.inComment]

theorem Place.after_stars {stars : List Char} (hall : ∀ c ∈ stars, c = '*') (hne : stars ≠ [])
    {p : Place} (hp : p.inComment = true) : p.after stars = .star := by
  induction stars generalizing p with
  | nil => exact absurd rfl hne
  | cons c stars ih =>
    rw [List.forall_mem_cons] at hall
    obtain ⟨rfl, hall⟩ := hall
    have hstar : p.next '*' = .star := by
      cases p with
      | code | slash => cases hp
      | comment | star => rfl
    rw [after_cons, hstar]
    cases stars with
    | nil => rfl
    | cons d stars => exact ih hall (List.cons_ne_nil _ _) rfl

/-- Text in a comment that does not end it. -/
theorem Place.after_inComment {p : Place} (hp : p.inComment = true) {text : List Char}
    (htext : '*' ∉ text) (hne : text ≠ []) (hhead : p = .star → text.head? ≠ some '/') :
    p.after text = .comment ∧ returnsIn p text = 0 := by
  cases text with
  | nil => exact absurd rfl hne
  | cons c text =>
    rw [List.mem_cons, not_or] at htext
    have hstar : c ≠ '*' := fun hc => htext.1 hc.symm
    have hnext : p.next c = .comment := by
      cases p with
      | code | slash => cases hp
      | comment => exact if_neg hstar
      | star =>
        have hslash : c ≠ '/' := fun hc => hhead rfl (congrArg some hc)
        rw [next, if_neg hslash, if_neg hstar]
    refine ⟨by rw [after_cons, hnext, after_comment htext.2], ?_⟩
    rw [returnsIn, hnext, returnsIn_comment htext.2]
    simp [hp]

/-! ## Matches and places -/

/-- The start condition and the place go together, and no mark of a comment has been
matched by halves. -/
structure Synced (cond : StartCondition) (p : Place) (rest : List Char) : Prop where
  comment : p.inComment = true ↔ cond = .comment
  slash : p = .slash → rest.head? ≠ some '*'
  star : p = .star → rest.head? ≠ some '/'

theorem Synced.inside (rest : List Char) : Synced .comment .comment rest := by
  constructor <;> simp [Place.inComment]

theorem Synced.outside (rest : List Char) : Synced .initial .code rest := by
  constructor <;> simp [Place.inComment]

def LexAction.isError : LexAction → Bool
  | .lexicalError => true
  | _ => false

/-- The start condition after the action. -/
def LexAction.cond : LexAction → StartCondition → StartCondition
  | .begin c, _ => c
  | _, c => c

theorem initialRules_slash :
    LexRule.initialRules.all (fun r => r.2.beginsComment ||
      r.1.tailAvoids '/' && (r.1.derivs ['/']).onlyNil) = true := by
  decide

theorem initialRules_return :
    LexRule.initialRules.all (fun r => r.2.isNewline || r.2.isError || r.1.avoids '\r') = true := by
  decide

/-- A match of the rule for line ends. -/
theorem newline_of_mem_language {w : List Char} (hw : w ∈ LexRule.newline.language) :
    w = ['\n'] ∨ w = ['\r'] := by
  obtain ⟨c, hc, rfl⟩ := hw
  simp only [Bool.or_eq_true, decide_eq_true_eq] at hc
  rcases hc with rfl | rfl
  · exact .inl rfl
  · exact .inr rfl

/-- The scanner does not take a slash by itself where a comment begins. -/
theorem slash_not_star {cs : List Char} {n : Nat} {act : LexAction}
    (hwin : Pattern.firstLongest ('/' :: cs) LexRule.initialRules = some (n, act)) (hn : n < 2) :
    cs.head? ≠ some '*' := by
  intro hhead
  obtain ⟨rest, rfl⟩ := List.head?_eq_some_iff.mp hhead
  have hrule : (Pattern.word ['/', '*'], LexAction.begin .comment) ∈ LexRule.initialRules := by
    simp [LexRule.initialRules]
  have htwo : 2 ∈ (Pattern.word ['/', '*']).matchLengths ('/' :: '*' :: rest) :=
    ⟨by simp, Pattern.mem_language_word.mpr rfl⟩
  obtain ⟨m, act', hwin', hle⟩ := Pattern.le_firstLongest_of_match hrule htwo
  cases hwin.symm.trans hwin'
  omega

/-- A match outside comments. -/
theorem Synced.initial {p : Place} {c : Char} {cs : List Char} {n : Nat} {act : LexAction}
    (h : Synced .initial p (c :: cs))
    (hwin : Pattern.firstLongest (c :: cs) LexRule.initialRules = some (n + 1, act))
    (hok : act.isError = false) :
    Synced (act.cond .initial) (p.after ((c :: cs).take (n + 1))) (cs.drop n) ∧
      lineEnds p ((c :: cs).take (n + 1)) = if act.isNewline then 1 else 0 := by
  obtain ⟨r, hr, hlong, rfl⟩ := Pattern.exists_longest_of_firstLongest hwin
  obtain ⟨hle, hmem⟩ := Pattern.matchLengths_of_longest hlong
  obtain ⟨pattern, act⟩ := r
  dsimp only at hmem hok hwin ⊢
  have hcode : p.inComment = false := by
    cases hp : p.inComment with
    | false => rfl
    | true => exact nomatch h.comment.mp hp
  have hfirst : p.next c = Place.code.next c := by
    cases p with
    | code => rfl
    | slash =>
      have hc : c ≠ '*' := fun hc => h.slash rfl (congrArg some hc)
      simp [Place.next, hc]
    | comment | star => cases hcode
  have hafter : p.after ((c :: cs).take (n + 1)) = Place.code.after ((c :: cs).take (n + 1)) := by
    rw [List.take_succ_cons, Place.after_cons, Place.after_cons, hfirst]
  have hreturns : returnsIn p ((c :: cs).take (n + 1)) =
      returnsIn .code ((c :: cs).take (n + 1)) := by
    rw [List.take_succ_cons, returnsIn, returnsIn, hfirst, hcode]
    rfl
  rw [hafter, lineEnds, hreturns]
  -- a comment begins, or the match has a slash at most as its only character
  by_cases hbegin : ∃ cond, act = .begin cond
  · obtain ⟨cond, rfl⟩ := hbegin
    obtain ⟨rfl, rfl⟩ := begin_of_mem_initialRules hr
    rw [Pattern.mem_language_word.mp hmem]
    exact ⟨.inside _, rfl⟩
  · have hcheck := List.all_eq_true.mp initialRules_slash _ hr
    have hplain : act.beginsComment = false := by
      cases act with
      | begin cond => exact absurd ⟨cond, rfl⟩ hbegin
      | _ => rfl
    have hcond : act.cond .initial = .initial := by
      cases act with
      | begin cond => exact absurd ⟨cond, rfl⟩ hbegin
      | _ => rfl
    rw [hplain, Bool.false_or, Bool.and_eq_true] at hcheck
    have htail := Pattern.notMem_of_tailAvoids hcheck.1 (List.take_succ_cons ▸ hmem)
    rw [hcond]
    constructor
    · by_cases hc : c = '/'
      · subst hc
        obtain rfl : n = 0 := by
          have hone := Pattern.le_of_onlyNil (u := ['/']) hcheck.2
            (Pattern.matchLengths_of_longest hlong)
          rw [List.length_singleton] at hone
          omega
        exact ⟨by simp [Place.after, Place.next, Place.inComment],
          fun _ => slash_not_star hwin (by omega), nofun⟩
      · have hnone : '/' ∉ (c :: cs).take (n + 1) := by
          rw [List.take_succ_cons, List.mem_cons, not_or]
          exact ⟨fun heq => hc heq.symm, htail⟩
        rw [Place.after_code hnone]
        exact .outside _
    · cases hnew : act.isNewline with
      | true =>
        obtain rfl : act = .newline := by
          cases act with
          | newline => rfl
          | _ => cases hnew
        have hrule : (_, _) ∈ StartCondition.initial.rules := hr
        rw [newline_of_mem_rules hrule] at hmem
        rcases newline_of_mem_language hmem with heq | heq <;> rw [heq] <;> rfl
      | false =>
        have hline := List.all_eq_true.mp (rules_avoids_newline .initial) _ hr
        have hret := List.all_eq_true.mp initialRules_return _ hr
        rw [hnew, Bool.false_or] at hline
        rw [hnew, hok, Bool.false_or, Bool.false_or] at hret
        rw [returnsIn_eq_zero (Pattern.notMem_of_avoids hret hmem),
          List.count_eq_zero.mpr (Pattern.notMem_of_avoids hline hmem)]
        rfl

/-- A match in a comment. -/
theorem Synced.inComment {p : Place} {c : Char} {cs : List Char} {n : Nat} {act : LexAction}
    (h : Synced .comment p (c :: cs))
    (hwin : Pattern.firstLongest (c :: cs) LexRule.commentRules = some (n + 1, act)) :
    Synced (act.cond .comment) (p.after ((c :: cs).take (n + 1))) (cs.drop n) ∧
      lineEnds p ((c :: cs).take (n + 1)) = if act.isNewline then 1 else 0 := by
  have hin : p.inComment = true := h.comment.mpr rfl
  obtain ⟨r, hr, hlong, rfl⟩ := Pattern.exists_longest_of_firstLongest hwin
  obtain ⟨hle, hmem⟩ := Pattern.matchLengths_of_longest hlong
  have hne : (c :: cs).take (n + 1) ≠ [] := by simp
  have hhead : p = .star → ((c :: cs).take (n + 1)).head? ≠ some '/' := by
    intro hp
    simpa using h.star hp
  simp only [LexRule.commentRules, List.mem_cons, List.not_mem_nil, or_false] at hr
  rcases hr with rfl | rfl | rfl | rfl
  · -- text without a star
    have hplain := Pattern.mem_language_star_cls.mp hmem
    have hstar : '*' ∉ (c :: cs).take (n + 1) := fun hs => by simpa using hplain '*' hs
    have hline : '\n' ∉ (c :: cs).take (n + 1) := fun hs => by simpa using hplain '\n' hs
    obtain ⟨hafter, hreturns⟩ := Place.after_inComment hin hstar hne hhead
    rw [hafter, lineEnds, hreturns, List.count_eq_zero.mpr hline]
    exact ⟨.inside _, rfl⟩
  · -- stars and text that does not end the comment
    obtain ⟨stars, hstars, text, htext, heq⟩ := Pattern.mem_language_seq.mp hmem
    obtain ⟨hsne, hall⟩ := mem_stars.mp hstars
    have hplain := Pattern.mem_language_star_cls.mp htext
    have hstar : '*' ∉ text := fun hs => by simpa using hplain '*' hs
    have hslash : '/' ∉ text := fun hs => by simpa using hplain '/' hs
    have hline : '\n' ∉ text := fun hs => by simpa using hplain '\n' hs
    have hsline : '\n' ∉ stars := fun hs => absurd (hall '\n' hs) (by decide)
    have hsret : '\r' ∉ stars := fun hs => absurd (hall '\r' hs) (by decide)
    rw [← heq, lineEnds, Place.after_append, returnsIn_append, returnsIn_eq_zero hsret,
      List.count_append, List.count_eq_zero.mpr hline, List.count_eq_zero.mpr hsline,
      Place.after_stars hall hsne hin]
    by_cases hnil : text = []
    · subst hnil
      rw [List.append_nil] at heq
      have hlen : n + 1 = stars.length := by
        rw [heq, List.length_take, Nat.min_eq_left hle]
      have hrest := stars_slash hwin hsne hall heq.symm hlen
      refine ⟨⟨by simp [Place.inComment, LexAction.cond], ?_, fun _ => hrest⟩, rfl⟩
      intro hslash
      cases hslash
    · obtain ⟨hafter, hreturns⟩ := Place.after_inComment (p := .star) rfl hstar hnil
        fun _ hs => hslash (List.mem_of_mem_head? hs)
      rw [hafter, hreturns]
      exact ⟨.inside _, rfl⟩
  · -- the end of a line; the first rule takes a carriage return
    rcases newline_of_mem_language hmem with heq | heq
    · have hstar : '*' ∉ (c :: cs).take (n + 1) := by rw [heq]; decide
      rw [(Place.after_inComment hin hstar hne hhead).1, heq, lineEnds]
      exact ⟨.inside _, by simp [returnsIn, LexAction.isNewline]⟩
    · obtain rfl : n = 0 := by
        have hlen := congrArg List.length heq
        rw [List.length_take, Nat.min_eq_left hle, List.length_singleton] at hlen
        omega
      obtain rfl : c = '\r' := by simpa using heq
      have hrule : (Pattern.star (.cls fun c => c ≠ '*' && c ≠ '\n'), LexAction.skip) ∈
          LexRule.commentRules := by simp [LexRule.commentRules]
      have htext := Pattern.longest_star_cls (fun c => c ≠ '*' && c ≠ '\n') ('\r' :: cs)
      obtain ⟨m, act, hwin', hm⟩ := Pattern.le_firstLongest hrule htext
      cases hwin.symm.trans hwin'
      rw [List.takeWhile_cons_of_pos (by decide), List.length_cons] at htext hm
      rw [show (cs.takeWhile _).length + 1 = 0 + 1 by omega] at htext
      cases Pattern.eq_of_longest_head htext hwin
  · -- the end of the comment
    obtain ⟨stars, hstars, slash, hslash, heq⟩ := Pattern.mem_language_seq.mp hmem
    obtain ⟨hsne, hall⟩ := mem_stars.mp hstars
    rw [Pattern.mem_language_word.mp hslash] at heq
    have hsline : '\n' ∉ stars := fun hs => absurd (hall '\n' hs) (by decide)
    have hsret : '\r' ∉ stars := fun hs => absurd (hall '\r' hs) (by decide)
    rw [← heq, lineEnds, Place.after_append, returnsIn_append, returnsIn_eq_zero hsret,
      List.count_append, List.count_eq_zero.mpr hsline, Place.after_stars hall hsne hin]
    exact ⟨.outside _, rfl⟩

/-! ## The scanner as a machine -/

/-- The end of some characters of one of the files: the file's number and its text up to
there. -/
structure Point where
  file : Nat
  before : List Char
  deriving DecidableEq, Repr

/-- The state of the scanner and of the reading of files. `last` is for the proofs only:
where the last character scanned ends. -/
structure Lexer where
  cond : StartCondition
  lineNum : Nat
  infileCnt : Nat
  /-- What has been scanned of the file that `yyin` reads, and what has not. -/
  scanned : List Char
  unread : List Char
  /-- The token that `yylex` returns now; none while it goes on. -/
  returned : Option Token
  last : Option Point
  deriving DecidableEq, Repr

namespace Lexer

/-- Scan `n` characters and look for the next match. -/
def advance (s : Lexer) (n : Nat) : Lexer :=
  { s with
    scanned := s.scanned ++ s.unread.take n
    unread := s.unread.drop n
    returned := none
    last := some ⟨s.infileCnt - 1, s.scanned ++ s.unread.take n⟩ }

section
variable (fopen : String → Option (List Char)) (infile : List String)

/-- Go on with the next file; `true` is the value 1, there is nothing more to scan. -/
def yywrap (s : Lexer) : Bool × Lexer :=
  match infile[s.infileCnt]? with
  | none => (true, s)
  | some f =>
      match fopen f with
      | none => (true, { s with infileCnt := s.infileCnt + 1 })
      | some text => (false, { s with infileCnt := s.infileCnt + 1, scanned := [], unread := text })

/-- One match, or one end of a file. The machine halts when `yylex` reports the end of the
input, and in `lexical_error`. -/
def step (s : Lexer) : Outcome Lexer (Option Lexer) :=
  match s.unread with
  | [] =>
      match s.yywrap fopen infile with
      | (true, s) => .halt (some { s with returned := none })
      | (false, s) => .next { s with returned := none }
  | c :: cs =>
      match Pattern.firstLongest (c :: cs) s.cond.rules with
      | none => .next (s.advance 1)
      | some (n, .skip) => .next (s.advance n)
      | some (n, .newline) => .next { s.advance n with lineNum := s.lineNum + 1 }
      | some (n, .token of) =>
          .next { s.advance n with returned := some (of (String.ofList ((c :: cs).take n))) }
      | some (n, .begin cond) => .next { s.advance n with cond := cond }
      | some (_, .lexicalError) => .halt none

/-- `main` calls `yywrap` before the parser starts. If the first file cannot be opened
the scanner reads the standard input. -/
def start (stdin : List Char) : Lexer :=
  (yywrap fopen infile ⟨.initial, 1, 0, [], stdin, none, none⟩).2

/-- The parser has control back: `yylex` has returned a token or, with `ended`, the end of
the input. Whatever the parser reports now is printed with the position of this state. -/
def Reports (stdin : List Char) : Bool → Lexer → Prop
  | false, s => ∃ n, Reaches (step fopen infile) (start fopen infile stdin) n s ∧
      s.returned.isSome
  | true, s => Returns (step fopen infile) (start fopen infile stdin) (some s)

/-- The file that `parser_error` prints is the file of the point, and the line is that of
the point in its file. -/
def PrintsRight (s : Lexer) (p : Point) : Prop :=
  infile[s.infileCnt - 1]? = infile[p.file]? ∧ s.lineNum = 1 + p.before.count '\n'

/-- The contents of the files. -/
def texts : List (List Char) := infile.map fun f => (fopen f).getD []

/-- The place at the start of file `k`. -/
def placeOf (k : Nat) : Place := placeAfter .code ((texts fopen infile).take k)

/-- The scanner reads file `k`. -/
structure Inv (k : Nat) (s : Lexer) : Prop where
  cnt : s.infileCnt = k + 1
  text : (texts fopen infile)[k]? = some (s.scanned ++ s.unread)
  synced : Synced s.cond ((placeOf fopen infile k).after s.scanned) s.unread
  line : s.lineNum = 1 + lineEndsOf .code ((texts fopen infile).take k) +
    lineEnds (placeOf fopen infile k) s.scanned
  last : s.scanned ≠ [] → s.last = some ⟨k, s.scanned⟩
  nonempty : ∀ p, s.last = some p → ∃ text, (texts fopen infile)[p.file]? = some text ∧ text ≠ []
  returned : s.returned.isSome = true → s.scanned ≠ []

end

variable {fopen : String → Option (List Char)} {infile : List String} {s t : Lexer} {k : Nat}

theorem texts_getElem? (hopen : ∀ f ∈ infile, (fopen f).isSome) {k : Nat} {f : String}
    (hk : infile[k]? = some f) : ∃ text, fopen f = some text ∧
      (texts fopen infile)[k]? = some text := by
  obtain ⟨text, htext⟩ := Option.isSome_iff_exists.mp (hopen f (List.mem_of_getElem? hk))
  exact ⟨text, htext, by simp [texts, hk, htext]⟩

theorem take_succ_texts {text : List Char} (h : (texts fopen infile)[k]? = some text) :
    (texts fopen infile).take (k + 1) = (texts fopen infile).take k ++ [text] := by
  rw [List.take_add_one, h]
  rfl

/-- A match in the file. -/
theorem Inv.advance (h : Inv fopen infile k s) {c : Char} {cs : List Char} (hs : s.unread = c :: cs)
    {n : Nat} {act : LexAction}
    (hwin : Pattern.firstLongest (c :: cs) s.cond.rules = some (n + 1, act))
    (hok : act.isError = false) (returned : Option Token) :
    Inv fopen infile k
      { s.advance (n + 1) with
        lineNum := s.lineNum + if act.isNewline then 1 else 0
        cond := act.cond s.cond
        returned := returned } := by
  have hmatch : Synced (act.cond s.cond)
      (((placeOf fopen infile k).after s.scanned).after ((c :: cs).take (n + 1))) (cs.drop n) ∧
      lineEnds ((placeOf fopen infile k).after s.scanned) ((c :: cs).take (n + 1)) =
        if act.isNewline then 1 else 0 := by
    have hsynced := h.synced
    rw [hs] at hsynced
    cases hcond : s.cond with
    | initial =>
      rw [hcond] at hsynced hwin
      exact hsynced.initial hwin hok
    | comment =>
      rw [hcond] at hsynced hwin
      exact hsynced.inComment hwin
  have hne : s.scanned ++ (c :: cs).take (n + 1) ≠ [] := by simp
  have htext : (texts fopen infile)[k]? =
      some ((s.scanned ++ (c :: cs).take (n + 1)) ++ cs.drop n) := by
    rw [h.text, hs, List.append_assoc, ← List.drop_succ_cons (a := c), List.take_append_drop]
  constructor
  · exact h.cnt
  · simpa [Lexer.advance, hs] using htext
  · simp only [Lexer.advance, hs, Place.after_append]
    exact hmatch.1
  · simp only [Lexer.advance, hs, lineEnds_append, hmatch.2, h.line]
    omega
  · simp [Lexer.advance, hs, h.cnt]
  · intro p hp
    simp only [Lexer.advance, hs, h.cnt, Option.some.injEq] at hp
    subst hp
    exact ⟨_, htext, by simp⟩
  · intro _
    simpa only [Lexer.advance, hs] using hne

/-- The start of the next file. -/
theorem Inv.nextFile (h : Inv fopen infile k s) (hs : s.unread = []) {text : List Char}
    (htext : (texts fopen infile)[k + 1]? = some text) :
    Inv fopen infile (k + 1)
      { s with infileCnt := s.infileCnt + 1, scanned := [], unread := text, returned := none } := by
  have hk : (texts fopen infile)[k]? = some s.scanned := by rw [h.text, hs, List.append_nil]
  have hplace : placeOf fopen infile (k + 1) =
      ((placeOf fopen infile k).after s.scanned).atNextFile := by
    rw [placeOf, take_succ_texts hk, placeAfter_append]
    rfl
  constructor
  · exact congrArg (· + 1) h.cnt
  · exact htext
  · have hcomment := h.synced.comment
    rw [Place.after_nil, hplace]
    cases hp : (placeOf fopen infile k).after s.scanned <;> rw [hp] at hcomment <;>
      exact ⟨hcomment, nofun, nofun⟩
  · have hline := h.line
    rw [take_succ_texts hk, lineEndsOf_append, ← placeOf]
    simp only [lineEndsOf, lineEnds, List.count_nil, returnsIn] at hline ⊢
    omega
  · exact fun hne => absurd rfl hne
  · exact h.nonempty
  · exact fun hsome => nomatch hsome

/-- What a step may do that does not end the scan. -/
theorem step_next (h : step fopen infile s = .next t) :
    (s.unread = [] ∧ ∃ f text, infile[s.infileCnt]? = some f ∧ fopen f = some text ∧
      t = { s with infileCnt := s.infileCnt + 1, scanned := [], unread := text,
                   returned := none }) ∨
    ∃ c cs n act returned, s.unread = c :: cs ∧
      Pattern.firstLongest (c :: cs) s.cond.rules = some (n + 1, act) ∧ act.isError = false ∧
      t = { s.advance (n + 1) with
            lineNum := s.lineNum + if act.isNewline then 1 else 0
            cond := act.cond s.cond
            returned := returned } := by
  unfold step at h
  cases hs : s.unread with
  | nil =>
    rw [hs] at h
    refine .inl ⟨rfl, ?_⟩
    rw [yywrap] at h
    rcases hf : infile[s.infileCnt]? with _ | f
    · rw [hf] at h
      cases h
    · rcases htext : fopen f with _ | text
      · simp only [hf, htext] at h
        cases h
      · simp only [hf, htext] at h
        cases h
        exact ⟨f, text, rfl, htext, rfl⟩
  | cons c cs =>
    rw [hs] at h
    obtain ⟨n, act, hwin⟩ := s.cond.exists_match c cs
    refine .inr ⟨c, cs, n, act, t.returned, rfl, hwin, ?_⟩
    simp only [hwin] at h
    cases act <;> cases h <;> exact ⟨rfl, rfl⟩

/-- How a scan ends without an error. -/
theorem step_halt (h : step fopen infile s = .halt (some t)) :
    s.unread = [] ∧
      ((infile[s.infileCnt]? = none ∧ t = { s with returned := none }) ∨
        ∃ f, infile[s.infileCnt]? = some f ∧ fopen f = none) := by
  unfold step at h
  cases hs : s.unread with
  | nil =>
    rw [hs] at h
    refine ⟨rfl, ?_⟩
    rw [yywrap] at h
    rcases hf : infile[s.infileCnt]? with _ | f
    · rw [hf] at h
      cases h
      exact .inl ⟨rfl, by simp [hs]⟩
    · rcases htext : fopen f with _ | text
      · exact .inr ⟨f, rfl, htext⟩
      · simp only [hf, htext] at h
        cases h
  | cons c cs =>
    rw [hs] at h
    obtain ⟨n, act, hwin⟩ := s.cond.exists_match c cs
    simp only [hwin] at h
    cases act <;> cases h

section
variable (hopen : ∀ f ∈ infile, (fopen f).isSome)
include hopen

theorem Inv.step (h : Inv fopen infile k s) (hstep : Lexer.step fopen infile s = .next t) :
    ∃ j, Inv fopen infile j t := by
  rcases step_next hstep with ⟨hs, f, text, hf, htext, rfl⟩ |
    ⟨c, cs, n, act, returned, hs, hwin, hok, rfl⟩
  · obtain ⟨text', htext', hk⟩ := texts_getElem? hopen (h.cnt ▸ hf)
    cases htext.symm.trans htext'
    exact ⟨k + 1, h.nextFile hs hk⟩
  · exact ⟨k, h.advance hs hwin hok returned⟩

theorem Inv.start (hne : infile ≠ []) (stdin : List Char) :
    Inv fopen infile 0 (Lexer.start fopen infile stdin) := by
  obtain ⟨f, fs, rfl⟩ := List.exists_cons_of_ne_nil hne
  obtain ⟨text, htext, hk⟩ := texts_getElem? hopen (k := 0) rfl
  have hstart : Lexer.start fopen (f :: fs) stdin = ⟨.initial, 1, 1, [], text, none, none⟩ := by
    simp [Lexer.start, yywrap, htext]
  rw [hstart]
  exact ⟨rfl, hk, ⟨by simp [placeOf, placeAfter, Place.inComment], nofun, nofun⟩, rfl,
    fun hne => absurd rfl hne, nofun, nofun⟩

/-- Every state of a scan is as it should be. -/
theorem Inv.reaches {n : Nat} (h : Inv fopen infile k s)
    (hr : Reaches (Lexer.step fopen infile) s n t) : ∃ j, Inv fopen infile j t := by
  induction hr generalizing k with
  | refl => exact ⟨k, h⟩
  | next hs _ ih =>
    obtain ⟨j, hj⟩ := h.step hopen hs
    exact ih hj

end

/-- The line counted at the end of the characters scanned of a file. -/
theorem Inv.printsRight_iff (h : Inv fopen infile k s) :
    PrintsRight infile s ⟨k, s.scanned⟩ ↔
      lineEndsOf .code ((texts fopen infile).take k) = 0 ∧
        returnsIn (placeOf fopen infile k) s.scanned = 0 := by
  have hline := h.line
  rw [lineEnds] at hline
  have hsame : infile[s.infileCnt - 1]? = infile[k]? := by rw [h.cnt, Nat.add_sub_cancel]
  constructor
  · rintro ⟨_, hcount⟩
    simp only at hcount
    omega
  · rintro ⟨hbefore, hreturns⟩
    exact ⟨hsame, by simp only; omega⟩

/-- A report is printed with the right file and line exactly when no file before this one
has a line end (a newline, or a carriage return outside comments), this one has no carriage
return outside comments up to here, and, at the end of the input, the last file is not
empty. -/
theorem reports_printsRight_iff (fopen : String → Option (List Char)) (infile : List String)
    (stdin : List Char) (hopen : ∀ f ∈ infile, (fopen f).isSome) (hne : infile ≠ [])
    {ended : Bool} {s : Lexer} {p : Point} (h : Reports fopen infile stdin ended s)
    (hp : s.last = some p) :
    PrintsRight infile s p ↔
      (ended = true → ∀ f ∈ infile.getLast?, fopen f ≠ some []) ∧
        lineEndsOf .code ((texts fopen infile).take p.file) = 0 ∧
          returnsIn (placeOf fopen infile p.file) p.before = 0 := by
  have hstart := Inv.start hopen hne stdin
  cases ended with
  | false =>
    obtain ⟨n, hr, hret⟩ := h
    obtain ⟨k, hinv⟩ := hstart.reaches hopen hr
    cases hp.symm.trans (hinv.last (hinv.returned hret))
    rw [hinv.printsRight_iff]
    simp
  | true =>
    obtain ⟨n, t, hr, hhalt⟩ := h
    obtain ⟨k, hinv⟩ := hstart.reaches hopen hr
    obtain ⟨hunread, ⟨hend, rfl⟩ | ⟨f, hf, hnone⟩⟩ := step_halt hhalt
    · have htext := hinv.text
      rw [hunread, List.append_nil] at htext
      have hlen : k + 1 = infile.length := by
        have hlt := (List.getElem?_eq_some_iff.mp htext).1
        rw [hinv.cnt, List.getElem?_eq_none_iff] at hend
        rw [texts, List.length_map] at hlt
        omega
      obtain ⟨f, hf⟩ : ∃ f, infile[k]? = some f := ⟨_, List.getElem?_eq_getElem (by omega)⟩
      obtain ⟨text, hcontents, hk⟩ := texts_getElem? hopen hf
      cases htext.symm.trans hk
      have hlast : infile.getLast? = some f := by
        rw [List.getLast?_eq_getElem?, ← hlen, Nat.add_sub_cancel, hf]
      simp only [hlast, Option.mem_def, Option.some.injEq, forall_eq', hcontents]
      by_cases hscanned : t.scanned = []
      · -- the last file is empty and the point lies in another one
        simp only [hscanned, ne_eq, not_true_eq_false, imp_false, false_and, iff_false]
        rintro ⟨hfile, -⟩
        obtain ⟨text', htext', hne'⟩ := hinv.nonempty p hp
        simp only [hinv.cnt, Nat.add_sub_cancel, hf] at hfile
        obtain ⟨text'', hcontents', hk'⟩ := texts_getElem? hopen hfile.symm
        cases htext'.symm.trans hk'
        cases hcontents.symm.trans hcontents'
        exact hne' hscanned
      · cases hp.symm.trans (hinv.last hscanned)
        exact hinv.printsRight_iff.trans
          ⟨fun hright => ⟨fun _ heq => hscanned (Option.some.inj heq), hright⟩, fun h => h.2⟩
    · have hsome := hopen f (List.mem_of_getElem? hf)
      rw [hnone] at hsome
      cases hsome

/-- The first file declares a variable and ends its line, the second starts with a semicolon. -/
def twoFiles (f : String) : Option (List Char) :=
  if f = "a.c" then some "int x;\n".toList else if f = "b.c" then some ";".toList else none

theorem twoFiles_opens : ∀ f ∈ ["a.c", "b.c"], (twoFiles f).isSome := by decide

theorem twoFiles_reports : ∃ s, Reports twoFiles ["a.c", "b.c"] [] false s ∧
    s.last = some ⟨1, [';']⟩ ∧ s.lineNum = 2 := by
  have hrun : ∃ s, Reaches (Lexer.step twoFiles ["a.c", "b.c"])
      (Lexer.start twoFiles ["a.c", "b.c"] []) 7 s ∧ s.returned = some .semicolon ∧
      s.last = some ⟨1, [';']⟩ ∧ s.lineNum = 2 :=
    ⟨_, .next rfl (.next rfl (.next rfl (.next rfl (.next rfl (.next rfl (.one rfl)))))),
      rfl, rfl, rfl⟩
  obtain ⟨s, hr, hret, hlast, hline⟩ := hrun
  exact ⟨s, ⟨7, hr, by rw [hret]; rfl⟩, hlast, hline⟩

theorem reports_printsRight_iff_twoFiles :
    ∃ s, Reports twoFiles ["a.c", "b.c"] [] false s ∧
      (PrintsRight ["a.c", "b.c"] s ⟨1, [';']⟩ ↔
        (false = true → ∀ f ∈ ["a.c", "b.c"].getLast?, twoFiles f ≠ some []) ∧
          lineEndsOf .code ((texts twoFiles ["a.c", "b.c"]).take 1) = 0 ∧
            returnsIn (placeOf twoFiles ["a.c", "b.c"] 1) [';'] = 0) := by
  obtain ⟨s, hs, hlast, _⟩ := twoFiles_reports
  exact ⟨s, hs, reports_printsRight_iff twoFiles ["a.c", "b.c"] [] twoFiles_opens
    (List.cons_ne_nil _ _) hs hlast⟩

/-- An error at the semicolon is reported in line 2 of `b.c`, which has only one line. -/
theorem secondFile_not_printsRight :
    (∀ f ∈ ["a.c", "b.c"], (twoFiles f).isSome) ∧
      ∃ s p, Reports twoFiles ["a.c", "b.c"] [] false s ∧ s.last = some p ∧
        ¬ PrintsRight ["a.c", "b.c"] s p := by
  obtain ⟨s, hs, hlast, hline⟩ := twoFiles_reports
  refine ⟨twoFiles_opens, s, _, hs, hlast, ?_⟩
  rintro ⟨_, hcount⟩
  rw [hline] at hcount
  cases hcount

/-! ## The machine and the scan of the files -/

/-- The tokens `yylex` returns from a state on, and how the scan ends. -/
inductive Yields (fopen : String → Option (List Char)) (infile : List String) :
    Lexer → Scan → Prop
  | goOn {s t : Lexer} {r : Scan} : step fopen infile s = .next t → t.returned = none →
      Yields fopen infile t r → Yields fopen infile s r
  | token {s t : Lexer} {r : Scan} {tok : Token} : step fopen infile s = .next t →
      t.returned = some tok → Yields fopen infile t r →
      Yields fopen infile s ⟨(tok, t.lineNum) :: r.tokens, r.ending⟩
  | eof {s t : Lexer} : step fopen infile s = .halt (some t) →
      Yields fopen infile s ⟨[], .eof t.cond t.lineNum⟩
  | lexicalError {s : Lexer} : step fopen infile s = .halt none →
      Yields fopen infile s ⟨[], .lexicalError s.lineNum⟩

theorem scan_drop (cond : StartCondition) (line n : Nat) (cs : List Char) :
    scan cond line n cs = scan cond line 0 (cs.drop n) := by
  rw [scan_eq_scanAt, scan_eq_scanAt, scanAt_drop]

theorem scanFiles_congr {cond cond' : StartCondition} {line line' : Nat} {f f' : List Char}
    (h : scan cond line 0 f = scan cond' line' 0 f') (fs : List (List Char)) :
    scanFiles cond line (f :: fs) = scanFiles cond' line' (f' :: fs) := by
  rw [scanFiles, scanFiles, h]

theorem scanFiles_token {cond : StartCondition} {line : Nat} {f f' : List Char} {t : Token × Nat}
    (h : scan cond line 0 f = ⟨t :: (scan cond line 0 f').tokens, (scan cond line 0 f').ending⟩)
    (fs : List (List Char)) :
    scanFiles cond line (f :: fs) = ⟨t :: (scanFiles cond line (f' :: fs)).tokens,
      (scanFiles cond line (f' :: fs)).ending⟩ := by
  rw [scanFiles, scanFiles, h]
  generalize scan cond line 0 f' = r
  obtain ⟨tokens, ending⟩ := r
  cases ending <;> rfl

theorem scanFiles_nil_cons (cond : StartCondition) (line : Nat) (fs : List (List Char)) :
    scanFiles cond line ([] :: fs) = scanFiles cond line fs := by
  rw [scanFiles, scan]
  rfl

/-- From any state the machine yields what `scanFiles` says of the text not read yet and of
the files not opened yet. -/
theorem yields_scanFiles (s : Lexer) :
    Yields fopen infile s
      (scanFiles s.cond s.lineNum (s.unread :: opened fopen (infile.drop s.infileCnt))) := by
  induction hn : infile.length - s.infileCnt using Nat.strong_induction_on generalizing s with
  | _ files ihFiles =>
    induction hm : s.unread.length using Nat.strong_induction_on generalizing s with
    | _ m ih =>
      cases hs : s.unread with
      | nil =>
        rw [scanFiles_nil_cons]
        rcases hf : infile[s.infileCnt]? with _ | f
        · have hdrop := List.drop_eq_nil_iff.mpr (List.getElem?_eq_none_iff.mp hf)
          rw [hdrop]
          exact .eof (t := { s with returned := none }) (by simp [step, hs, yywrap, hf])
        · obtain ⟨hlt, hget⟩ := List.getElem?_eq_some_iff.mp hf
          rw [List.drop_eq_getElem_cons hlt, hget, opened]
          rcases htext : fopen f with _ | text
          · exact .eof (t := { s with infileCnt := s.infileCnt + 1, returned := none })
              (by simp [step, hs, yywrap, hf, htext])
          · have hstep : step fopen infile s =
                .next ⟨s.cond, s.lineNum, s.infileCnt + 1, [], text, none, s.last⟩ := by
              simp [step, hs, yywrap, hf, htext]
            refine .goOn hstep rfl ?_
            exact ihFiles _ (by simp only; omega) ⟨s.cond, s.lineNum, _, [], text, none, _⟩ rfl
      | cons c cs =>
        obtain ⟨n, act, hwin⟩ := s.cond.exists_match c cs
        have hshort : (cs.drop n).length < m := by
          rw [← hm, hs, List.length_drop, List.length_cons]
          omega
        have hdrop : (s.advance (n + 1)).unread = cs.drop n := by rw [advance, hs]; rfl
        have hgo := fun t (ht : t.infileCnt = s.infileCnt) (hu : t.unread = cs.drop n) =>
          ih _ hshort t (by rw [ht, hn]) (by rw [hu])
        cases act with
        | skip =>
          have hstep : step fopen infile s = .next (s.advance (n + 1)) := by simp [step, hs, hwin]
          have hscan : scan s.cond s.lineNum 0 (c :: cs) = scan s.cond s.lineNum 0 (cs.drop n) := by
            simp only [scan, hwin, Nat.add_sub_cancel, scan_drop _ _ n]
          rw [scanFiles_congr hscan, ← hdrop]
          exact .goOn hstep rfl (hgo (s.advance (n + 1)) rfl hdrop)
        | newline =>
          have hstep : step fopen infile s =
              .next { s.advance (n + 1) with lineNum := s.lineNum + 1 } := by
            simp [step, hs, hwin]
          have hscan : scan s.cond s.lineNum 0 (c :: cs) =
              scan s.cond (s.lineNum + 1) 0 (cs.drop n) := by
            simp only [scan, hwin, Nat.add_sub_cancel, scan_drop _ _ n]
          rw [scanFiles_congr hscan, ← hdrop]
          exact .goOn hstep rfl
            (hgo { s.advance (n + 1) with lineNum := s.lineNum + 1 } rfl hdrop)
        | token of =>
          have hstep : step fopen infile s = .next { s.advance (n + 1) with
              returned := some (of (String.ofList ((c :: cs).take (n + 1)))) } := by
            simp [step, hs, hwin]
          have hscan : scan s.cond s.lineNum 0 (c :: cs) =
              ⟨(of (String.ofList ((c :: cs).take (n + 1))), s.lineNum) ::
                  (scan s.cond s.lineNum 0 (cs.drop n)).tokens,
                (scan s.cond s.lineNum 0 (cs.drop n)).ending⟩ := by
            simp only [scan, hwin, Nat.add_sub_cancel, scan_drop _ _ n]
          rw [scanFiles_token hscan, ← hdrop]
          have hyields := Yields.token hstep rfl (hgo { s.advance (n + 1) with
            returned := some (of (String.ofList ((c :: cs).take (n + 1)))) } rfl hdrop)
          exact hyields
        | begin cond =>
          have hstep : step fopen infile s = .next { s.advance (n + 1) with cond := cond } := by
            simp [step, hs, hwin]
          have hscan : scan s.cond s.lineNum 0 (c :: cs) = scan cond s.lineNum 0 (cs.drop n) := by
            simp only [scan, hwin, Nat.add_sub_cancel, scan_drop _ _ n]
          rw [scanFiles_congr hscan, ← hdrop]
          exact .goOn hstep rfl (hgo { s.advance (n + 1) with cond := cond } rfl hdrop)
        | lexicalError =>
          have hscan : scan s.cond s.lineNum 0 (c :: cs) = ⟨[], .lexicalError s.lineNum⟩ := by
            simp only [scan, hwin]
          rw [scanFiles, hscan]
          exact .lexicalError (by simp [step, hs, hwin])

/-- What the compiler reads is what the machine yields. -/
theorem yields_input (stdin : List Char) (hne : infile ≠ []) :
    Yields fopen infile (start fopen infile stdin) (input fopen stdin infile) := by
  obtain ⟨f, fs, rfl⟩ := List.exists_cons_of_ne_nil hne
  have hyields := @yields_scanFiles fopen (f :: fs) (start fopen (f :: fs) stdin)
  rcases htext : fopen f with _ | text
  · have hstart : start fopen (f :: fs) stdin = ⟨.initial, 1, 1, [], stdin, none, none⟩ := by
      simp [start, yywrap, htext]
    rw [hstart] at hyields ⊢
    simpa [input, htext] using hyields
  · have hstart : start fopen (f :: fs) stdin = ⟨.initial, 1, 1, [], text, none, none⟩ := by
      simp [start, yywrap, htext]
    rw [hstart] at hyields ⊢
    simpa [input, htext] using hyields

end Lexer

end CourseCompilers.MiniC
