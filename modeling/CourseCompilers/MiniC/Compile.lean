import CourseCompilers.MiniC.Operands
import CourseCompilers.MiniC.Spelling
import CourseCompilers.MiniC.Success
import CourseCompilers.MiniC.Unambiguous

/-! The `p2` compilers from the text of their files to the module they write. -/

namespace CourseCompilers.MiniC
open Lib Prog

/-! ## From the files to the tokens -/

/-- The text spells the tokens, with closed comments and blanks between them. -/
def Source (text : List Char) (ts : List Token) : Prop :=
  '\r' ∉ text ∧ ∃ out, Blanked text out ∧ Spells out ts

theorem Source.scan {text : List Char} {ts : List Token} (h : Source text ts) (line : Nat) :
    (scan .initial line 0 text).tokens.map Prod.fst = ts ∧
      ∃ line', (MiniC.scan .initial line 0 text).ending = .eof .initial line' := by
  obtain ⟨hcr, out, hblanked, hspells⟩ := h
  have halike := scanAt_blanked hblanked hcr line line
  obtain ⟨htokens, hend⟩ := hspells.scanAt line
  rw [scan_eq_scanAt]
  refine ⟨?_, halike.stop.eof_iff _ |>.mpr hend⟩
  rw [List.map_map, ← htokens, ← halike.tokens]
  rfl

/-- The files are scanned one after the other. -/
theorem scanFiles_tokens {files : List (List Char)} {tss : List (List Token)}
    (h : List.Forall₂ Source files tss) (line : Nat) :
    (scanFiles .initial line files).tokens.map Prod.fst = tss.flatten ∧
      ∃ line', (scanFiles .initial line files).ending = .eof .initial line' := by
  induction h generalizing line with
  | nil => exact ⟨rfl, line, rfl⟩
  | cons hfile _ ih =>
    obtain ⟨htokens, line', hend⟩ := hfile.scan line
    obtain ⟨hrest, hlast⟩ := ih line'
    simp only [scanFiles, hend, List.map_append, htokens, hrest, List.flatten_cons, hlast,
      and_self]

/-- The file can be opened and spells the tokens. -/
def Holds (fopen : String → Option (List Char)) (f : String) (ts : List Token) : Prop :=
  ∃ text, fopen f = some text ∧ Source text ts

variable {fopen : String → Option (List Char)} {infile : List String} {tss : List (List Token)}

theorem opened_of_holds (h : List.Forall₂ (Holds fopen) infile tss) :
    List.Forall₂ Source (opened fopen infile) tss := by
  induction h with
  | nil => exact .nil
  | cons hfile _ ih =>
    obtain ⟨text, hopen, hsource⟩ := hfile
    rw [opened, hopen]
    exact .cons hsource ih

theorem input_of_holds (h : List.Forall₂ (Holds fopen) infile tss) (stdin : List Char) :
    (input fopen stdin infile).tokens.map Prod.fst = tss.flatten ∧
      ∃ line, (input fopen stdin infile).ending = .eof .initial line := by
  have hopened := opened_of_holds h
  cases h with
  | nil => exact ⟨rfl, 1, rfl⟩
  | cons hfile _ =>
    obtain ⟨text, hopen, -⟩ := hfile
    rw [opened, hopen] at hopened
    rw [input, hopen]
    exact scanFiles_tokens hopened 1

/-! ## From the tokens to the module -/

variable {hash : String → Nat} {v : FrontEnd} {P : Parser}

/-- The parser runs the actions of the tree of what it accepts. -/
def Parser.RunsTrees (hash : String → Nat) (v : FrontEnd) (P : Parser) : Prop :=
  ∀ u ts, TranslationUnit.Derives v u ts → P.actions ts .accepted = translationUnit hash v u

section
variable (hP : P.HasTables v) (hruns : P.RunsTrees hash v) (stdin : List Char)
  (hfiles : List.Forall₂ (Holds fopen) infile tss) {u : TranslationUnit}
  (hu : TranslationUnit.Derives v u tss.flatten) (hstack : P.StackSuffices tss.flatten)
include hP hruns hfiles hu hstack

/-- How the compiler ends on files that spell a translation unit. -/
theorem main_of_holds :
    main P fopen stdin infile = (((translationUnit hash v u).run .initial).2.elim .killed
      fun p => .status 0 (some p.2.module)) := by
  have hne : infile ≠ [] := by
    rintro rfl
    cases hfiles
    exact not_accepted_nil ⟨u, hu⟩
  obtain ⟨htokens, line, hend⟩ := input_of_holds hfiles stdin
  have hparse : yyparse P (input fopen stdin infile).ending [] tss.flatten =
      (tss.flatten, .accepted) :=
    (hP.yyparse_eq_iff _ _ _).mpr (.accepted hend hstack ⟨u, hu⟩)
  rw [← htokens] at hparse
  simp only [main, if_neg hne, hparse]
  rw [htokens, hruns u _ hu]
  rcases hrun : (translationUnit hash v u).run .initial with ⟨es, _ | ⟨_, s⟩⟩
  · rfl
  · have hnum : s.numErrors = 0 :=
      (RunsRules.translationUnit u).keepsErrors .initial es () s hrun
    simp [finish, hnum]

end

/-- Files that spell a translation unit are compiled: the compiler writes its objects in
order, with code that uses only what is there, unless an action kills it. -/
theorem main_compiles (hash : String → Nat) (v : FrontEnd) (P : Parser)
    (hP : P.HasTables v) (hruns : P.RunsTrees hash v) (stdin : List Char)
    (hfiles : List.Forall₂ (Holds fopen) infile tss) {u : TranslationUnit}
    (hu : TranslationUnit.Derives v u tss.flatten) (hstack : P.StackSuffices tss.flatten) :
    (main P fopen stdin infile = .killed ∧ ((translationUnit hash v u).run .initial).2 = none) ∨
      ∃ module, main P fopen stdin infile = .status 0 (some module) ∧
        module.map Global.bare = u.map ExternalDeclaration.object ∧
        ∀ f, .function f ∈ module → OperandsThere module f.params.length f.entry := by
  rw [main_of_holds hP hruns stdin hfiles hu hstack]
  rcases hrun : (translationUnit hash v u).run .initial with ⟨es, _ | ⟨_, s⟩⟩
  · exact .inl ⟨rfl, rfl⟩
  · have hsound := (sound_initial hash).translationUnit v u es () s hrun
    exact .inr ⟨s.module, rfl, hsound.closed.2⟩

/-- The declaration `int x;`, begun in one file and ended in another. -/
def twoFiles (f : String) : Option (List Char) :=
  if f = "a.c" then some "int/**/x".toList else if f = "b.c" then some " ;".toList else none

theorem treeParser_runsTrees (hash : String → Nat) (v : FrontEnd) :
    (treeParser hash v).RunsTrees hash v := by
  intro u ts hu
  have hacc : Stop.accepted = Stop.accepted ∧ ∃ tu, TranslationUnit.Derives v tu ts :=
    ⟨rfl, u, hu⟩
  simp only [treeParser, dif_pos hacc]
  exact congrArg _ (hacc.2.choose_spec.eq hu)

theorem main_compiles_twoFiles :
    (main (treeParser Uthash.hashJen .c) twoFiles [] ["a.c", "b.c"] = .killed ∧
        ((translationUnit Uthash.hashJen .c [.declaration ⟨.int, false, "x", none⟩]).run
          .initial).2 = none) ∨
      ∃ module, main (treeParser Uthash.hashJen .c) twoFiles [] ["a.c", "b.c"] =
          .status 0 (some module) ∧
        module.map Global.bare = [.variable .int32 "x"] ∧
        ∀ f, .function f ∈ module → OperandsThere module f.params.length f.entry := by
  have hfirst : Source "int/**/x".toList [.intKeyword, .id "x"] := by
    refine ⟨by decide, "int x".toList, .char (by decide) (.char (by decide) (.char (by decide)
      (.comment rfl (.char (by decide) .nil)))), ?_⟩
    refine Spells.token (w := "int".toList) (.fixed (by decide)) (fun _ h => by cases h; rfl)
      (.blank rfl ?_)
    exact .token (w := ['x']) (.id rfl (by simp) (by decide)) (fun _ h => by cases h) .nil
  have hsecond : Source " ;".toList [.semicolon] :=
    ⟨by decide, " ;".toList, .char (by decide) (.char (by decide) .nil),
      .blank rfl (.token (w := ";".toList) (.fixed (by decide)) (fun _ h => by cases h) .nil)⟩
  exact main_compiles _ _ _ (treeParser_hasTables _ _) (treeParser_runsTrees _ _) []
    (.cons ⟨_, rfl, hfirst⟩ (.cons ⟨_, rfl, hsecond⟩ .nil))
    (.single (.declaration (.plain (.int .c))))
    (Parser.stackSuffices_of_unlimited (fun _ _ => rfl) _)

end CourseCompilers.MiniC
