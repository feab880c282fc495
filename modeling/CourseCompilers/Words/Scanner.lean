import CourseCompilers.Lib.FlexScanner
import Mathlib.Data.List.SplitBy

/-! The word counter of the lexer lecture. Its first rule matches every character but the
newline and comes before the rule of the words, so a word of one letter is none. -/

namespace CourseCompilers.Words
open Lib Lib.FlexScanner

/-- `yy_accept`, `yy_ec` and the others of `words.c`. -/
def tables : Tables where
  accept := [0, 0, 0, 5, 1, 2, 1, 2, 3, 0]
  ec :=
    [0, 1, 1, 1, 1, 1, 1, 1, 1, 1, 2, 1, 1, 1, 1, 1, 1, 1, 1, 1, 1, 1, 1, 1, 1, 1, 1, 1, 1, 1, 1, 1,
     1, 1, 1, 1, 1, 1, 1, 1, 1, 1, 1, 1, 1, 1, 1, 1, 1, 1, 1, 1, 1, 1, 1, 1, 1, 1, 1, 1, 1, 1, 1, 1,
     1, 1, 1, 1, 1, 1, 1, 1, 1, 1, 1, 1, 1, 1, 1, 1, 1, 1, 1, 1, 1, 1, 1, 1, 1, 1, 1, 1, 1, 1, 1, 1,
     1, 3, 3, 3, 3, 3, 3, 3, 3, 3, 3, 3, 3, 3, 3, 3, 3, 3, 3, 3, 3, 3, 3, 3, 3, 3, 3, 1, 1, 1, 1, 1,
     1, 1, 1, 1, 1, 1, 1, 1, 1, 1, 1, 1, 1, 1, 1, 1, 1, 1, 1, 1, 1, 1, 1, 1, 1, 1, 1, 1, 1, 1, 1, 1,
     1, 1, 1, 1, 1, 1, 1, 1, 1, 1, 1, 1, 1, 1, 1, 1, 1, 1, 1, 1, 1, 1, 1, 1, 1, 1, 1, 1, 1, 1, 1, 1,
     1, 1, 1, 1, 1, 1, 1, 1, 1, 1, 1, 1, 1, 1, 1, 1, 1, 1, 1, 1, 1, 1, 1, 1, 1, 1, 1, 1, 1, 1, 1, 1,
     1, 1, 1, 1, 1, 1, 1, 1, 1, 1, 1, 1, 1, 1, 1, 1, 1, 1, 1, 1, 1, 1, 1, 1, 1, 1, 1, 1, 1, 1, 1, 1]
  metaEc := [0, 1, 2, 3]
  base := [0, 0, 0, 6, 7, 0, 0, 0, 0, 7, 3, 1]
  dflt := [0, 9, 1, 9, 9, 10, 11, 10, 11, 0, 9, 9]
  nxt := [0, 4, 5, 6, 8, 7, 9, 3, 9, 9, 9]
  chk := [0, 1, 1, 1, 11, 10, 3, 9, 9, 9, 9]
  jam := 9
  jamBase := 7
  endOfBuffer := 5

/-! ## The rules -/

def newline (b : Byte) : Bool := b = byte '\n'
def lower (b : Byte) : Bool := byte 'a' ≤ b && b ≤ byte 'z'

/-- The rules of `words.lex` under the numbers of their cases, and the rule that `flex` adds. -/
def rules : List (Pattern Byte × Nat) :=
  [(.cls fun b => !newline b, 1),
   (.plus (.cls newline), 2),
   (.plus (.cls lower), 3),
   (.cls fun _ => true, 4)]

/-- The rules over the classes of `yy_ec`. -/
def classRules : List (Pattern Nat × Nat) :=
  [(.cls fun c => !decide (c = 2), 1),
   (.plus (.cls (· = 2)), 2),
   (.plus (.cls (· = 3)), 3),
   (.cls fun _ => true, 4)]

def classes : List Nat := [1, 2, 3]

/-- The states that the text leads to, each with a text that does. -/
def access : List (Nat × List Nat) :=
  [(1, []), (4, [1]), (5, [2]), (6, [3]), (7, [2, 2]), (8, [3, 3]), (9, [1, 1])]

def states : List Nat := access.map Prod.fst

theorem classOf_eq : ∀ b : Byte, newline b = decide (tables.classOf b = 2) ∧
    lower b = decide (tables.classOf b = 3) := by
  decide +kernel

theorem sound : tables.Sound classes states 3 where
  one_mem := by decide
  start_mem := by decide
  ec := by decide +kernel
  next := by decide +kernel
  nul := by decide +kernel
  accept := by decide
  base := by decide +kernel
  endOfBuffer_ne := by decide
  eob_accept := by decide
  eob_base := by decide
  eob_next := by decide +kernel
  jam_mem := by decide
  jam_accept := by decide
  jam_base := by decide

theorem tracks : tables.dfa.tracks classRules (fun s => (access.lookup s).getD []) classes states =
    true := by
  decide +kernel

/-- The tables of `words.c` are those of the rules of `words.lex`. -/
theorem implements : tables.Implements rules := by
  refine .of_tracks sound (.of_tracks tracks) ?_
  have hclass := classOf_eq
  simp only [forall_and] at hclass
  rw [rules, funext hclass.1, funext hclass.2]
  rfl

theorem firstNullable_derivRules (b : Byte) :
    Pattern.firstNullable (Pattern.derivRules b rules) ≠ none :=
  Pattern.firstNullable_ne_none (p := .empty) (b := 4)
    (List.mem_map.mpr ⟨(.cls fun _ => true, 4), by simp [rules], rfl⟩) rfl

/-! ## What is printed -/

inductive Output where
  /-- `newline`. -/
  | newline
  /-- `word (%s)`. -/
  | word (yytext : List Byte)
  /-- A character copied. -/
  | echo (yytext : List Byte)
  deriving DecidableEq

/-- The actions of the rules. -/
def action : Nat × List Byte → Option Output
  | (1, _) => none
  | (2, _) => some .newline
  | (3, yytext) => some (.word yytext)
  | (_, yytext) => some (.echo yytext)

/-- Neighbours of one run. -/
def alike (b c : Byte) : Bool := lower b && lower c || newline b && newline c

/-- What a run of the text gives: newlines, or a word of two letters or more. -/
def runOutput (run : List Byte) : Option Output :=
  if run.all newline then some .newline
  else if run.all lower && 1 < run.length then some (.word run)
  else none

theorem lower_of_newline {b : Byte} (h : newline b = true) : lower b = false := by
  rw [(classOf_eq b).1, decide_eq_true_iff] at h
  rw [(classOf_eq b).2, h]
  rfl

/-- The match at a character: its run of newlines, its run of letters if there is a
second one, or itself. -/
theorem firstLongest_cons (b : Byte) (cs : List Byte) :
    Pattern.firstLongest (b :: cs) rules =
      if newline b then some (((b :: cs).takeWhile newline).length, 2)
      else if lower b && decide (1 < ((b :: cs).takeWhile lower).length) then
        some (((b :: cs).takeWhile lower).length, 3)
      else some (1, 1) := by
  have hnil : Pattern.firstLongest (b :: cs) ([] : List (Pattern Byte × Nat)) = none := rfl
  simp only [rules, Pattern.firstLongest_cons, Pattern.longest_cls_cons,
    Pattern.longest_plus_cls_cons, hnil, Pattern.longer_none, if_true]
  cases hn : newline b with
  | true => simp [lower_of_newline hn, Pattern.longer, hn]
  | false =>
    cases hl : lower b with
    | false => simp [Pattern.longer]
    | true =>
      by_cases hlen : 1 < ((b :: cs).takeWhile lower).length
      · simp [Pattern.longer, hl] at hlen ⊢
      · simp [Pattern.longer, hl] at hlen ⊢

theorem drop_length_takeWhile (p : Byte → Bool) (cs : List Byte) :
    cs.drop (cs.takeWhile p).length = cs.dropWhile p := by
  have h := congrArg (List.drop (cs.takeWhile p).length)
    (List.takeWhile_append_dropWhile (p := p) (l := cs))
  rw [List.drop_left] at h
  exact h.symm

/-- A run of one kind, up to the first character of another, is the first of the runs. -/
theorem splitBy_of_kind {p : Byte → Bool} (hp : ∀ b c, p b = true → alike b c = p c) {b : Byte}
    (hb : p b = true) (cs : List Byte) :
    (b :: cs).splitBy alike =
      (b :: cs).takeWhile p :: ((b :: cs).drop ((b :: cs).takeWhile p).length).splitBy alike := by
  have hsplit : (b :: cs).takeWhile p ++ (b :: cs).dropWhile p = b :: cs :=
    List.takeWhile_append_dropWhile
  have hrun : ∀ c ∈ (b :: cs).takeWhile p, p c = true := fun c hc => List.mem_takeWhile_imp hc
  have hne : (b :: cs).takeWhile p ≠ [] := by simp [hb]
  rw [drop_length_takeWhile]
  conv_lhs => rw [← hsplit]
  rw [List.splitBy_append, List.splitBy_of_isChain hne, List.singleton_append]
  · refine (List.pairwise_of_forall_mem_list fun x hx y hy => ?_).isChain
    rw [hp x y (hrun x hx), hrun y hy]
  · intro x hx y hy
    have hhead : p y = false := by
      have h := List.head?_dropWhile_not p (b :: cs)
      rwa [Option.mem_def.mp hy] at h
    rw [hp x y (hrun x (List.mem_of_mem_getLast? hx)), hhead]

/-- A character that is no letter and no newline is a run. -/
theorem splitBy_of_other {b : Byte} (hn : newline b = false) (hl : lower b = false)
    (cs : List Byte) : (b :: cs).splitBy alike = [b] :: cs.splitBy alike := by
  rw [← List.singleton_append, List.splitBy_append]
  · rfl
  · intro x hx y _
    obtain rfl : b = x := Option.some.inj hx
    simp [alike, hn, hl]

theorem alike_of_newline (b c : Byte) (h : newline b = true) : alike b c = newline c := by
  simp [alike, h, lower_of_newline h]

theorem alike_of_lower (b c : Byte) (h : lower b = true) : alike b c = lower c := by
  have hn : newline b = false := by
    by_contra hne
    rw [lower_of_newline (Bool.not_eq_false _ ▸ hne)] at h
    cases h
  simp [alike, h, hn]

theorem take_length_takeWhile (p : Byte → Bool) (cs : List Byte) :
    cs.take (cs.takeWhile p).length = cs.takeWhile p :=
  (List.prefix_iff_eq_take.mp (cs.takeWhile_prefix p)).symm

theorem runOutput_newlines (cs : List Byte) : runOutput (cs.takeWhile newline) = some .newline := by
  rw [runOutput, if_pos (List.all_takeWhile)]

theorem runOutput_letters {b : Byte} (hl : lower b = true) (cs : List Byte) :
    runOutput ((b :: cs).takeWhile lower) =
      if 1 < ((b :: cs).takeWhile lower).length then some (.word ((b :: cs).takeWhile lower))
      else none := by
  have hn : newline b = false := by
    by_contra hne
    rw [lower_of_newline (Bool.not_eq_false _ ▸ hne)] at hl
    cases hl
  have hnot : ((b :: cs).takeWhile lower).all newline = false := by simp [hl, hn]
  rw [runOutput, hnot, List.all_takeWhile]
  simp

/-- A match gives what the run it covers gives, and the rest begins after that run. -/
theorem action_eq_runOutput {b : Byte} {cs : List Byte} {n a : Nat}
    (h : Pattern.firstLongest (b :: cs) rules = some (n, a)) :
    ∃ run, (b :: cs).splitBy alike = run :: ((b :: cs).drop n).splitBy alike ∧
      action (a, (b :: cs).take n) = runOutput run := by
  rw [firstLongest_cons] at h
  cases hn : newline b with
  | true =>
    rw [hn, if_pos rfl] at h
    cases h
    refine ⟨_, splitBy_of_kind alike_of_newline hn cs, ?_⟩
    rw [runOutput_newlines]
    rfl
  | false =>
    rw [hn, if_neg Bool.false_ne_true] at h
    cases hl : lower b with
    | true =>
      have hletters := runOutput_letters hl cs
      have hruns := splitBy_of_kind alike_of_lower hl cs
      by_cases hlen : 1 < ((b :: cs).takeWhile lower).length
      · rw [hl, Bool.true_and, if_pos (decide_eq_true hlen)] at h
        cases h
        refine ⟨_, hruns, ?_⟩
        rw [hletters, if_pos hlen, take_length_takeWhile]
        rfl
      · rw [hl, Bool.true_and, if_neg (by simpa using hlen)] at h
        cases h
        have hone : ((b :: cs).takeWhile lower).length = 1 := by
          have hpos : ((b :: cs).takeWhile lower).length ≠ 0 := by simp [hl]
          omega
        rw [hone] at hruns
        refine ⟨_, hruns, ?_⟩
        rw [hletters, if_neg hlen]
        rfl
    | false =>
      rw [hl, Bool.false_and, if_neg Bool.false_ne_true] at h
      cases h
      refine ⟨[b], splitBy_of_other hn hl cs, ?_⟩
      simp [runOutput, hn, hl, action]

/-- Whatever the text and however it is read, the program prints a line for each run of
newlines and for each run of two letters or more. -/
theorem scans_prints (B : Buffer) (k : Scan) :
    ∃ ls, tables.Scans B k ls ∧
      ls.filterMap action = (B.text.splitBy alike).filterMap runOutput := by
  obtain ⟨ls, hls⟩ := Pattern.exists_lexes firstNullable_derivRules B.text
  refine ⟨ls, implements.scans sound hls k, ?_⟩
  generalize B.text = cs at hls
  induction hls with
  | nil => rfl
  | @cons cs n a rest hn _ _ ih =>
    cases cs with
    | nil => cases hn
    | cons b cs =>
      obtain ⟨run, hruns, haction⟩ := action_eq_runOutput hn
      rw [hruns, List.filterMap_cons, List.filterMap_cons, haction, ih]

end CourseCompilers.Words
