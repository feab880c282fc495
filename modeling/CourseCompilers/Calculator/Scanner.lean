import CourseCompilers.Lib.FlexScanner

/-! The scanner of the calculator as `flex` generates it from `calc.lex`, and the rules
it is generated from. -/

namespace CourseCompilers.Calculator.Scanner
open Lib Lib.FlexScanner

/-- `yy_accept`, `yy_ec` and the others of `calc.lex.c`. -/
def tables : Tables where
  accept := [0, 0, 0, 12, 11, 1, 2, 9, 10, 5, 7, 8, 6, 3, 4, 3, 0]
  ec :=
    [0, 1, 1, 1, 1, 1, 1, 1, 1, 2, 3, 1, 1, 1, 1, 1, 1, 1, 1, 1, 1, 1, 1, 1, 1, 1, 1, 1, 1, 1, 1, 1,
     2, 1, 1, 1, 1, 1, 1, 1, 4, 5, 6, 7, 1, 8, 1, 9, 10, 10, 10, 10, 10, 10, 10, 10, 10, 10, 1, 1,
     1, 1, 1, 1,
     1, 1, 1, 1, 1, 1, 1, 1, 1, 1, 1, 1, 1, 1, 1, 1, 1, 1, 1, 1, 1, 1, 1, 1, 1, 1, 1, 1, 1, 1, 1, 1,
     1, 1, 1, 1, 1, 1, 1, 1, 1, 1, 1, 1, 1, 1, 1, 1, 1, 1, 1, 1, 1, 1, 1, 1, 1, 1, 1, 1, 1, 1, 1, 1,
     1, 1, 1, 1, 1, 1, 1, 1, 1, 1, 1, 1, 1, 1, 1, 1, 1, 1, 1, 1, 1, 1, 1, 1, 1, 1, 1, 1, 1, 1, 1, 1,
     1, 1, 1, 1, 1, 1, 1, 1, 1, 1, 1, 1, 1, 1, 1, 1, 1, 1, 1, 1, 1, 1, 1, 1, 1, 1, 1, 1, 1, 1, 1, 1,
     1, 1, 1, 1, 1, 1, 1, 1, 1, 1, 1, 1, 1, 1, 1, 1, 1, 1, 1, 1, 1, 1, 1, 1, 1, 1, 1, 1, 1, 1, 1, 1,
     1, 1, 1, 1, 1, 1, 1, 1, 1, 1, 1, 1, 1, 1, 1, 1, 1, 1, 1, 1, 1, 1, 1, 1, 1, 1, 1, 1, 1, 1, 1, 1]
  metaEc := [0, 1, 1, 1, 1, 1, 1, 1, 1, 1, 1]
  base := [0, 0, 0, 14, 15, 15, 15, 15, 15, 15, 15, 5, 15, 2, 15, 1, 15]
  dflt := [0, 16, 1, 16, 16, 16, 16, 16, 16, 16, 16, 16, 16, 16, 16, 16, 0]
  nxt := [0, 4, 5, 6, 7, 8, 9, 10, 11, 12, 13, 15, 15, 14, 16, 3, 16,
    16, 16, 16, 16, 16, 16, 16, 16, 16]
  chk := [0, 1, 1, 1, 1, 1, 1, 1, 1, 1, 1, 15, 13, 11, 3, 16,
    16, 16, 16, 16, 16, 16, 16, 16, 16, 16]
  jam := 16
  jamBase := 15
  endOfBuffer := 12

/-! ## The rules -/

def blank (b : Byte) : Bool := b = byte ' ' || b = byte '\t'
def digit (b : Byte) : Bool := byte '0' ≤ b && b ≤ byte '9'

/-- A fixed text. -/
def fixed (text : List Char) : Pattern Byte := Pattern.word (text.map byte)

/-- The rules of `calc.lex` under the numbers of their cases, the last being the rule
that `flex` adds, which copies a character. -/
def rules : List (Pattern Byte × Nat) :=
  [(.cls blank, 1),
   (fixed ['\n'], 2),
   (.plus (.cls digit), 3),
   (fixed ['-', '-'], 4),
   (fixed ['*'], 5),
   (fixed ['/'], 6),
   (fixed ['+'], 7),
   (fixed ['-'], 8),
   (fixed ['('], 9),
   (fixed [')'], 10),
   (.cls fun _ => true, 11)]

/-- The rules over the classes of `yy_ec`. -/
def classRules : List (Pattern Nat × Nat) :=
  [(.cls (· = 2), 1),
   (.word [3], 2),
   (.plus (.cls (· = 10)), 3),
   (.word [8, 8], 4),
   (.word [6], 5),
   (.word [9], 6),
   (.word [7], 7),
   (.word [8], 8),
   (.word [4], 9),
   (.word [5], 10),
   (.cls fun _ => true, 11)]

def classes : List Nat := List.range' 1 10

/-- The states that the text leads to, each with a text that does. -/
def access : List (Nat × List Nat) :=
  [(1, []), (4, [1]), (5, [2]), (6, [3]), (7, [4]), (8, [5]), (9, [6]), (10, [7]), (11, [8]),
   (12, [9]), (13, [10]), (14, [8, 8]), (15, [10, 10]), (16, [1, 1])]

def states : List Nat := access.map Prod.fst

theorem classOf_eq : ∀ b : Byte,
    blank b = decide (tables.classOf b = 2) ∧ digit b = decide (tables.classOf b = 10) ∧
    (b = byte '\n' ↔ tables.classOf b = 3) ∧ (b = byte '-' ↔ tables.classOf b = 8) ∧
    (b = byte '*' ↔ tables.classOf b = 6) ∧ (b = byte '/' ↔ tables.classOf b = 9) ∧
    (b = byte '+' ↔ tables.classOf b = 7) ∧ (b = byte '(' ↔ tables.classOf b = 4) ∧
    (b = byte ')' ↔ tables.classOf b = 5) := by
  decide +kernel

theorem sound : tables.Sound classes states 3 where
  one_mem := by decide
  start_mem := by decide
  ec := by decide +kernel
  next := by decide +kernel
  nul := by decide +kernel
  accept := by decide
  base := by decide +kernel
  endOfBuffer_ne := by decide
  eob_accept := by decide
  eob_base := by decide
  eob_next := by decide +kernel
  jam_mem := by decide
  jam_accept := by decide
  jam_base := by decide

theorem tracks : tables.dfa.tracks classRules (fun s => (access.lookup s).getD []) classes states =
    true := by
  decide +kernel

theorem rules_eq : rules = Pattern.comapRules tables.classOf classRules := by
  have hclass := classOf_eq
  simp only [forall_and] at hclass
  obtain ⟨hblank, hdigit, hnewline, hminus, hstar, hslash, hplus, hlparen, hrparen⟩ := hclass
  have hone : ∀ {c : Char} {k : Nat}, (∀ b, b = byte c ↔ tables.classOf b = k) →
      fixed [c] = (Pattern.word [k]).comap tables.classOf := fun h =>
    (Pattern.comap_word (.cons h .nil)).symm
  have hdecrement : fixed ['-', '-'] = (Pattern.word [8, 8]).comap tables.classOf :=
    (Pattern.comap_word (.cons hminus (.cons hminus .nil))).symm
  rw [rules, hdecrement, hone hnewline, hone hminus, hone hstar, hone hslash, hone hplus,
    hone hlparen, hone hrparen, funext hblank, funext hdigit]
  rfl

/-- The tables of `calc.lex.c` are those of the rules of `calc.lex`. -/
theorem implements : tables.Implements rules :=
  .of_tracks sound (.of_tracks tracks) rules_eq

theorem firstNullable_derivRules (b : Byte) :
    Pattern.firstNullable (Pattern.derivRules b rules) ≠ none :=
  Pattern.firstNullable_ne_none (p := .empty) (b := 11)
    (List.mem_map.mpr ⟨(.cls fun _ => true, 11), by simp [rules], rfl⟩) rfl

/-- Whatever blocks the input is read in, the scanner divides it into the longest matches
of the rules. -/
theorem scans_iff_lexes {B : Buffer} {k : Scan} {ls : List (Nat × List Byte)} :
    tables.Scans B k ls ↔ Pattern.Lexes rules B.text ls :=
  implements.scans_iff sound firstNullable_derivRules

end CourseCompilers.Calculator.Scanner
