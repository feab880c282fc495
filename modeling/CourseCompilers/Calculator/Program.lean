import CourseCompilers.Calculator.Scanner
import CourseCompilers.Calculator.Sessions

/-! The calculator as a whole, from the characters of its input to those that it prints. -/

namespace CourseCompilers.Calculator
open Lib Lib.Bison Lib.FlexScanner Lib.Precedence Expressions Calculator.Parser

/-- `atoi` of digits: `strtol` stops at the greatest `long`, whose low 32 bits are taken. -/
def atoi (yytext : List Byte) : BitVec 32 :=
  BitVec.ofNat 32 (min (Nat.ofDigitChars 10 (yytext.map fun b => Char.ofNat b.val) 0) (2 ^ 63 - 1))

/-- What the action of a rule of `calc.lex` returns. -/
def returned : Nat → List Byte → Option Tok
  | 2, _ => some .newline
  | 3, yytext => some (.tok (.atom (atoi yytext)))
  | 4, _ => some (.tok (.op .decrement))
  | 5, _ => some (.tok (.op .multiply))
  | 6, _ => some (.tok (.op .divide))
  | 7, _ => some (.tok (.op .plus))
  | 8, _ => some (.tok (.op .minus))
  | 9, _ => some (.tok .lparen)
  | 10, _ => some (.tok .rparen)
  | _, _ => none

/-- The calls of `yylex`. The rule that `flex` adds copies its character. -/
def reads : List (Nat × List Byte) → List Read × List (List Byte)
  | [] => ([], [])
  | (n, yytext) :: ls =>
      match returned n yytext, reads ls with
      | some t, (rs, rest) => (([], t) :: rs, rest)
      | none, ([], rest) => ([], if n = 11 then yytext :: rest else rest)
      | none, ((echo, t) :: rs, rest) =>
          ((if n = 11 then yytext :: echo else echo, t) :: rs, rest)

/-- `main` on an input: the scanner from its state `k`, the parser with `v` in `yylval`. -/
def Runs (B : Buffer) (k : Scan) (v : BitVec 32) (a : Answer Output) : Prop :=
  ∃ ls, Scanner.tables.Scans B k ls ∧
    Returns parser.step (Parser.start parser v (lexemes (reads ls).1 (reads ls).2)) a

theorem Runs.unique {B : Buffer} {k : Scan} {v : BitVec 32} {a a' : Answer Output}
    (h : Runs B k v a) (h' : Runs B k v a') : a = a' := by
  obtain ⟨ls, hscans, hreturns⟩ := h
  obtain ⟨ls', hscans', hreturns'⟩ := h'
  obtain rfl := hscans.unique hscans'
  exact hreturns.unique hreturns'

/-- What is printed. -/
def Output.text : Output → Option String
  | .event e => e.text
  | .error msg => some msg
  | .echo yytext => some (String.ofList (yytext.map fun b => Char.ofNat b.val))

/-! ## Texts of tokens -/

/-- A character after which a token would go on. -/
def continues (t : Tok) (b : Byte) : Bool :=
  match t with
  | .tok (.atom _) => Scanner.digit b
  | .tok (.op .minus) => b = byte '-'
  | _ => false

/-- The texts of a token. -/
inductive Written : Tok → List Byte → Prop
  | newline : Written .newline [byte '\n']
  | number {n : BitVec 32} {yytext : List Byte} : yytext ≠ [] →
      (∀ b ∈ yytext, Scanner.digit b = true) → atoi yytext = n → Written (.tok (.atom n)) yytext
  | plus : Written (.tok (.op .plus)) [byte '+']
  | minus : Written (.tok (.op .minus)) [byte '-']
  | multiply : Written (.tok (.op .multiply)) [byte '*']
  | divide : Written (.tok (.op .divide)) [byte '/']
  | decrement : Written (.tok (.op .decrement)) [byte '-', byte '-']
  | lparen : Written (.tok .lparen) [byte '(']
  | rparen : Written (.tok .rparen) [byte ')']

/-- Tokens with blanks between them, where they would run together at least. -/
inductive Spells : List Byte → List Tok → Prop
  | nil : Spells [] []
  | blank {b : Byte} {cs : List Byte} {ts : List Tok} :
      Scanner.blank b = true → Spells cs ts → Spells (b :: cs) ts
  | tok {t : Tok} {yytext cs : List Byte} {ts : List Tok} :
      Written t yytext → (∀ b ∈ cs.head?, continues t b = false) → Spells cs ts →
      Spells (yytext ++ cs) (t :: ts)

/-! ## The scanner on such a text -/

/-- The rule of a token. -/
def ruleOf : Tok → Nat
  | .newline => 2
  | .tok (.atom _) => 3
  | .tok (.op .decrement) => 4
  | .tok (.op .multiply) => 5
  | .tok (.op .divide) => 6
  | .tok (.op .plus) => 7
  | .tok (.op .minus) => 8
  | .tok .lparen => 9
  | .tok .rparen => 10

theorem longest_jam (cs : List Byte) :
    Scanner.tables.dfa.longest 16 (cs.map Scanner.tables.classOf) = none := by
  have hnext : ∀ c ∈ Scanner.classes, Scanner.tables.dfa.next 16 c = 16 := by decide +kernel
  refine Dfa.longest_stuck _ (fun c hc => ?_) (by decide)
  obtain ⟨b, -, rfl⟩ := List.mem_map.mp hc
  exact hnext _ (Scanner.sound.classOf_mem b)

/-- The match ends where every class to come leads to no match. -/
theorem longest_stop {s n : Nat} {cs : List Byte} (ha : Scanner.tables.dfa.accept s = some n)
    (hcs : ∀ b ∈ cs.head?, Scanner.tables.dfa.next s (Scanner.tables.classOf b) = 16) :
    Scanner.tables.dfa.longest s (cs.map Scanner.tables.classOf) = some (0, n) := by
  cases cs with
  | nil => simp [Dfa.longest, ha]
  | cons b cs =>
    rw [List.map_cons, Dfa.longest, hcs b rfl, longest_jam, ha]
    rfl

theorem firstLongest_of_after {yytext cs : List Byte} {s n : Nat}
    (hs : Scanner.tables.dfa.after 1 (yytext.map Scanner.tables.classOf) = s)
    (ha : Scanner.tables.dfa.accept s = some n)
    (hcs : ∀ b ∈ cs.head?, Scanner.tables.dfa.next s (Scanner.tables.classOf b) = 16) :
    Pattern.firstLongest (yytext ++ cs) Scanner.rules = some (yytext.length, n) := by
  subst hs
  rw [← Scanner.implements, List.map_append,
    Dfa.longest_append _ (longest_stop ha hcs), List.length_map, Nat.add_zero]

/-- A state that no character continues. -/
theorem next_of_forall {s : Nat} (h : ∀ c ∈ Scanner.classes, Scanner.tables.dfa.next s c = 16)
    (b : Byte) : Scanner.tables.dfa.next s (Scanner.tables.classOf b) = 16 :=
  h _ (Scanner.sound.classOf_mem b)

/-- The states on a number. -/
theorem after_digits {w : List Byte} (hw : ∀ b ∈ w, Scanner.digit b = true) {s : Nat}
    (hs : s ∈ [13, 15]) :
    Scanner.tables.dfa.after s (w.map Scanner.tables.classOf) ∈ [13, 15] := by
  have hnext : ∀ s ∈ [13, 15], Scanner.tables.dfa.next s 10 ∈ [13, 15] := by decide +kernel
  induction w generalizing s with
  | nil => exact hs
  | cons b w ih =>
    rw [List.forall_mem_cons] at hw
    have hb : Scanner.tables.classOf b = 10 := by
      have hclass := (Scanner.classOf_eq b).2.1
      rw [hw.1] at hclass
      exact of_decide_eq_true hclass.symm
    rw [List.map_cons, Dfa.after_cons, hb]
    exact ih hw.2 (hnext s hs)

/-- The scanner takes the text of a token as one match. -/
theorem firstLongest_token {t : Tok} {yytext cs : List Byte} (ht : Written t yytext)
    (hcs : ∀ b ∈ cs.head?, continues t b = false) :
    Pattern.firstLongest (yytext ++ cs) Scanner.rules = some (yytext.length, ruleOf t) := by
  cases ht with
  | newline =>
    exact firstLongest_of_after (s := 6) (by decide +kernel) (by decide) fun b _ =>
      next_of_forall (by decide +kernel) b
  | number hne hdigits _ =>
    obtain ⟨b, w, rfl⟩ := List.exists_cons_of_ne_nil hne
    rw [List.forall_mem_cons] at hdigits
    have hb : Scanner.tables.classOf b = 10 := by
      have hclass := (Scanner.classOf_eq b).2.1
      rw [hdigits.1] at hclass
      exact of_decide_eq_true hclass.symm
    have hstart : Scanner.tables.dfa.next 1 10 ∈ [13, 15] := by decide +kernel
    have hafter : Scanner.tables.dfa.after 1 ((b :: w).map Scanner.tables.classOf) ∈ [13, 15] := by
      rw [List.map_cons, Dfa.after_cons, hb]
      exact after_digits hdigits.2 hstart
    have haccept : ∀ s ∈ [13, 15], Scanner.tables.dfa.accept s = some 3 := by decide
    have hnext : ∀ s ∈ [13, 15], ∀ c ∈ Scanner.classes, c ≠ 10 →
        Scanner.tables.dfa.next s c = 16 := by decide +kernel
    refine firstLongest_of_after rfl (haccept _ hafter) fun d hd => ?_
    refine hnext _ hafter _ (Scanner.sound.classOf_mem d) fun heq => ?_
    have hclass := (Scanner.classOf_eq d).2.1
    rw [heq, show Scanner.digit d = false from hcs d hd] at hclass
    cases hclass
  | plus =>
    exact firstLongest_of_after (s := 10) (by decide +kernel) (by decide) fun b _ =>
      next_of_forall (by decide +kernel) b
  | minus =>
    have hnext : ∀ c ∈ Scanner.classes, c ≠ 8 → Scanner.tables.dfa.next 11 c = 16 := by
      decide +kernel
    refine firstLongest_of_after (s := 11) (by decide +kernel) (by decide) fun b hb => ?_
    refine hnext _ (Scanner.sound.classOf_mem b) fun heq => ?_
    have hminus := (Scanner.classOf_eq b).2.2.2.1.mpr heq
    exact of_decide_eq_false (hcs b hb) hminus
  | multiply =>
    exact firstLongest_of_after (s := 9) (by decide +kernel) (by decide) fun b _ =>
      next_of_forall (by decide +kernel) b
  | divide =>
    exact firstLongest_of_after (s := 12) (by decide +kernel) (by decide) fun b _ =>
      next_of_forall (by decide +kernel) b
  | decrement =>
    exact firstLongest_of_after (s := 14) (by decide +kernel) (by decide) fun b _ =>
      next_of_forall (by decide +kernel) b
  | lparen =>
    exact firstLongest_of_after (s := 7) (by decide +kernel) (by decide) fun b _ =>
      next_of_forall (by decide +kernel) b
  | rparen =>
    exact firstLongest_of_after (s := 8) (by decide +kernel) (by decide) fun b _ =>
      next_of_forall (by decide +kernel) b

theorem Written.ne_nil {t : Tok} {yytext : List Byte} (h : Written t yytext) : yytext ≠ [] := by
  cases h with
  | number hne _ _ => exact hne
  | _ => exact List.cons_ne_nil _ _

theorem Written.returned {t : Tok} {yytext : List Byte} (h : Written t yytext) :
    returned (ruleOf t) yytext = some t := by
  cases h with
  | number _ _ hn => exact congrArg (fun n => some (Tok.tok (.atom n))) hn
  | _ => rfl

/-- A text of tokens is scanned to them. -/
theorem Spells.lexes {cs : List Byte} {ts : List Tok} (h : Spells cs ts) :
    ∃ ls, Pattern.Lexes Scanner.rules cs ls ∧ reads ls = (ts.map silent, []) := by
  induction h with
  | nil => exact ⟨[], .nil, rfl⟩
  | @blank b cs ts hb _ ih =>
    obtain ⟨ls, hls, hreads⟩ := ih
    have hclass : Scanner.tables.classOf b = 2 := by
      have hblank := (Scanner.classOf_eq b).1
      rw [hb] at hblank
      exact of_decide_eq_true hblank.symm
    have hafter : Scanner.tables.dfa.after 1 ([b].map Scanner.tables.classOf) = 5 := by
      rw [List.map_singleton, hclass]
      decide +kernel
    have hmatch : Pattern.firstLongest ([b] ++ cs) Scanner.rules = some (1, 1) :=
      firstLongest_of_after hafter (by decide) fun d _ => next_of_forall (by decide +kernel) d
    refine ⟨(1, [b]) :: ls, .cons hmatch Nat.one_pos hls, ?_⟩
    rw [reads, hreads]
    cases ts <;> rfl
  | @tok t yytext cs ts ht hcs _ ih =>
    obtain ⟨ls, hls, hreads⟩ := ih
    have hmatch := firstLongest_token ht hcs
    have hlexes := Pattern.Lexes.cons hmatch (List.length_pos_of_ne_nil ht.ne_nil)
      (by rwa [List.drop_left] : Pattern.Lexes _ ((yytext ++ cs).drop yytext.length) ls)
    rw [List.take_left] at hlexes
    refine ⟨_, hlexes, ?_⟩
    rw [reads, hreads, ht.returned]
    rfl

/-! ## What the calculator prints -/

/-- The value of a line in C, none for a blank line. -/
inductive MeansC : Text → Option Int → Prop
  | blank : MeansC [] none
  | expr {l : Text} {c : Expr} {v : Int} :
      Precedence.Reads spelling levels l c → Harmless prefixes id c →
      valueC prefixes id c = some v → MeansC l (some v)

def valueLine (v : Int) : String := "=" ++ toString v ++ "\n"

/-- A line with a value in C runs and prints it. -/
theorem MeansC.runs {l : Text} {v : Option Int} (h : MeansC l v) :
    ∃ o fs, lineOf l = some o ∧ (session [o]).run () = (fs, some ((), ())) ∧
      fs.filterMap Event.text = (v.map valueLine).toList := by
  cases h with
  | blank => exact ⟨none, [], rfl, rfl, rfl⟩
  | @expr l c v hc hh hv =>
    obtain ⟨e, c', he, hc', huniq, hval⟩ :=
      parse_value_of_harmless (P := prefixes) (by decide) (fun h => h) resolution_declared
        ⟨c, hc.2⟩
    obtain rfl := huniq c hc
    obtain ⟨hprinted, hends⟩ := line_run (inRange_of_valueC hv) (hval id v hh hv)
    obtain ⟨⟨⟨⟩, ⟨⟩⟩, hrun⟩ := Option.isSome_iff_exists.mp hends
    have hne : l ≠ [] := by
      rintro rfl
      cases he
    refine ⟨some e, ((line e).run ()).1, ?_, ?_, hprinted⟩
    · rw [lineOf, if_neg hne, parseExpr, he]
      rfl
    · rw [session, session, Prog.bind_return]
      exact Prod.ext rfl hrun

/-- What is printed for a line: what its actions print as the parser groups it, and the
value in C where the line has one and the regrouping does no harm. -/
structure Answers (l : Text) (out : List Output) : Prop where
  grouped : out.filterMap Output.text = (parseExpr l).elim [] printed
  inC : ∀ {v}, MeansC l v → out.filterMap Output.text = (v.map valueLine).toList

theorem lineOf_eq {l : Text} (h : l = [] ∨ Derives spelling l) : lineOf l = some (parseExpr l) := by
  unfold lineOf
  split
  · next hnil =>
    subst hnil
    rfl
  · next hne =>
    obtain ⟨e, he⟩ := (h.resolve_left hne).parses resolution
    rw [parseExpr, he]
    rfl

theorem mapM_lineOf {ls : List Text} (h : ∀ l ∈ ls, l = [] ∨ Derives spelling l) :
    ls.mapM lineOf = some (ls.map parseExpr) := by
  induction ls with
  | nil => rfl
  | cons l ls ih =>
    rw [List.forall_mem_cons] at h
    simp [List.mapM_cons, lineOf_eq h.1, ih h.2]

theorem answers_of_run {l : Text} (h : l = [] ∨ Derives spelling l) {fs : List Event}
    (hrun : (session [parseExpr l]).run () = (fs, some ((), ()))) :
    Answers l (fs.map .event) := by
  have htexts : (fs.map Output.event).filterMap Output.text = fs.filterMap Event.text := by
    simp [List.filterMap_map, Function.comp_def, Output.text]
  constructor
  · rw [htexts]
    cases he : parseExpr l with
    | none =>
      rw [he] at hrun
      cases hrun
      rfl
    | some e =>
      rw [he, session, session, Prog.bind_return] at hrun
      rw [Option.elim_some, printed, hrun]
  · intro v hv
    obtain ⟨o, gs, ho, hrun', hgs⟩ := hv.runs
    rw [lineOf_eq h, Option.some.injEq] at ho
    rw [← ho, hrun] at hrun'
    cases hrun'
    rw [htexts, hgs]

/-- A session that runs to its end answers its lines one after the other. -/
theorem session_answers {ls : List Text} (h : ∀ l ∈ ls, l = [] ∨ Derives spelling l)
    {fs : List Event} (hrun : (session (ls.map parseExpr)).run () = (fs, some ((), ()))) :
    ∃ outs, fs.map Output.event = outs.flatten ∧ List.Forall₂ Answers ls outs := by
  induction ls generalizing fs with
  | nil =>
    cases hrun
    exact ⟨[], rfl, .nil⟩
  | cons l ls ih =>
    rw [List.forall_mem_cons] at h
    have hsession : session (parseExpr l :: ls.map parseExpr) =
        session [parseExpr l] >>= fun _ => session (ls.map parseExpr) := by
      cases parseExpr l with
      | none => exact (Prog.return_bind ..).symm
      | some e => rw [session, session, session, Prog.bind_return]
    rw [List.map_cons, hsession] at hrun
    rcases hline : (session [parseExpr l]).run () with ⟨es, _ | ⟨⟨⟩, ⟨⟩⟩⟩
    · rw [Prog.run_bind_of_crash hline] at hrun
      cases hrun
    · rw [Prog.run_bind_of_result hline] at hrun
      obtain ⟨rfl, hrest⟩ := Prod.mk.inj hrun
      obtain ⟨outs, houts, hall⟩ := ih h.2 (Prod.ext rfl hrest)
      refine ⟨es.map .event :: outs, ?_, .cons (answers_of_run h.1 hline) hall⟩
      rw [List.flatten_cons, ← houts, List.map_append]

/-- A session that is accepted has run to its end, and its events are all the output. -/
theorem accepted_session {es : List (Option Expr)}
    (h : (((session es).relabel Output.event >>= fun _ =>
      (return .accept : Run Result)).run ()).2.elim .trap Prod.fst = Result.accept) :
    ∃ fs, (session es).run () = (fs, some ((), ())) ∧
      (((session es).relabel Output.event >>= fun _ => (return .accept : Run Result)).run ()).1 =
        fs.map .event := by
  rcases hrun : (session es).run () with ⟨fs, _ | ⟨⟨⟩, ⟨⟩⟩⟩
  · have hrelabel : ((session es).relabel Output.event).run () = (fs.map .event, none) := by
      simp [Prog.relabel, hrun]
    rw [Prog.run_bind_of_crash hrelabel] at h
    cases h
  · have hrelabel : ((session es).relabel Output.event).run () =
        (fs.map .event, some ((), ())) := by
      simp [Prog.relabel, hrun]
    rw [Prog.run_bind_of_result hrelabel]
    exact ⟨fs, rfl, List.append_nil _⟩

/-- `12 / -2*3`, a blank line and `12*3-6`, read in three blocks. -/
def blocks : Buffer :=
  ⟨[byte '1'], [[byte '2', byte '/', byte '-', byte '2', byte '*', byte '3'],
    [byte '\n', byte '\n', byte '1', byte '2', byte '*', byte '3', byte '-', byte '6',
      byte '\n']], false⟩

end CourseCompilers.Calculator
