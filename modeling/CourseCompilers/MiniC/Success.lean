import CourseCompilers.MiniC.Reductions

/-! When the `p2` compilers report success. The counter that `main` tests is never
increased, so success does not depend on what `yyparse` returns. -/

namespace CourseCompilers.MiniC
open Lib Prog

/-! ## How far the parser gets -/

/-- The stack does not get full while the tokens are shifted after those in `got`. -/
def Parser.StackHolds (P : Parser) : List Token → List Token → Prop
  | _, [] => True
  | got, t :: ts => P.exhausted got .unread = false ∧ P.exhausted got (.token t) = false ∧
      P.StackHolds (got ++ [t]) ts

/-- The stack suffices for the tokens as the whole input. -/
def Parser.StackSuffices (P : Parser) (ts : List Token) : Prop :=
  P.StackHolds [] ts ∧ P.exhausted ts .unread = false ∧ P.exhausted ts .endOfInput = false

variable {hash : String → Nat} {v : FrontEnd} {P : Parser} {ending : Ending}

variable (v) in
/-- The parser shifts all the tokens: they can be continued to a sentence of the grammar,
and the stack holds. -/
def Parser.Shifts (P : Parser) (ts : List Token) : Prop :=
  (∃ rest, Accepted v (ts ++ rest)) ∧ P.StackHolds [] ts

variable (v) in
/-- Where the parser stops on tokens with this ending, and why. -/
inductive Parser.Stops (P : Parser) (ending : Ending) (tokens : List Token) :
    List Token → Stop → Prop
  | exhausted {got rest : List Token} : tokens = got ++ rest → P.Shifts v got →
      P.exhausted got .unread = true → Stops P ending tokens got (.memoryExhausted .unread)
  | exhaustedByToken {got rest : List Token} {t : Token} : tokens = got ++ t :: rest →
      P.Shifts v got → P.exhausted got .unread = false → P.exhausted got (.token t) = true →
      Stops P ending tokens got (.memoryExhausted (.token t))
  | unexpectedToken {got rest : List Token} {t : Token} : tokens = got ++ t :: rest →
      P.Shifts v got → P.exhausted got .unread = false → P.exhausted got (.token t) = false →
      (¬ ∃ rest, Accepted v (got ++ [t] ++ rest)) →
      Stops P ending tokens (got ++ [t]) .unexpectedToken
  | lexicalError {line : Nat} : ending = .lexicalError line → P.Shifts v tokens →
      P.exhausted tokens .unread = false → Stops P ending tokens tokens .lexicalError
  | exhaustedByEnd {cond : StartCondition} {line : Nat} : ending = .eof cond line →
      P.Shifts v tokens → P.exhausted tokens .unread = false →
      P.exhausted tokens .endOfInput = true →
      Stops P ending tokens tokens (.memoryExhausted .endOfInput)
  | accepted {cond : StartCondition} {line : Nat} : ending = .eof cond line →
      P.StackSuffices tokens → Accepted v tokens → Stops P ending tokens tokens .accepted
  | unexpectedEnd {cond : StartCondition} {line : Nat} : ending = .eof cond line →
      P.Shifts v tokens → P.StackSuffices tokens → ¬ Accepted v tokens →
      Stops P ending tokens tokens .unexpectedEnd

theorem Parser.stackHolds_append (P : Parser) (got ts us : List Token) :
    P.StackHolds got (ts ++ us) ↔ P.StackHolds got ts ∧ P.StackHolds (got ++ ts) us := by
  induction ts generalizing got with
  | nil => simp [StackHolds]
  | cons t ts ih => simp [StackHolds, ih, and_assoc]

/-- A stack that never gets full suffices for everything. -/
theorem Parser.stackSuffices_of_unlimited (h : ∀ ts next, P.exhausted ts next = false)
    (ts : List Token) : P.StackSuffices ts := by
  have hholds : ∀ got, P.StackHolds got ts := by
    induction ts with
    | nil => exact fun _ => trivial
    | cons t ts ih => exact fun got => ⟨h _ _, h _ _, ih (got ++ [t])⟩
  exact ⟨hholds [], h _ _, h _ _⟩

theorem accepted_viable {ts : List Token} (h : Accepted v ts) :
    ∃ rest, Accepted v (ts ++ rest) := ⟨[], by rwa [List.append_nil]⟩

theorem Parser.shifts_nil (P : Parser) : P.Shifts v [] :=
  ⟨⟨_, accepted_declaration "x"⟩, trivial⟩

section
variable (hP : P.HasTables v)
include hP

theorem Parser.HasTables.shifts_snoc {got : List Token} {t : Token} (h : P.Shifts v got)
    (hunread : P.exhausted got .unread = false) (htoken : P.exhausted got (.token t) = false)
    (hviable : P.viable (got ++ [t]) = true) : P.Shifts v (got ++ [t]) :=
  ⟨(hP.viable _).mp hviable, (P.stackHolds_append [] got [t]).mpr ⟨h.2, hunread, htoken, trivial⟩⟩

/-- The parser gets past tokens that it shifts. -/
theorem Parser.HasTables.yyparse_shifts (ending : Ending) {got ts : List Token}
    (hviable : ∃ rest, Accepted v (got ++ ts ++ rest)) (hstack : P.StackHolds got ts)
    (rest : List Token) :
    yyparse P ending got (ts ++ rest) = yyparse P ending (got ++ ts) rest := by
  induction ts generalizing got with
  | nil => simp
  | cons t ts ih =>
    obtain ⟨hunread, htoken, hstack⟩ := hstack
    obtain ⟨more, hmore⟩ := hviable
    have hshift : P.viable (got ++ [t]) = true :=
      (hP.viable _).mpr ⟨ts ++ more, by simpa using hmore⟩
    have hrest : ∃ rest, Accepted v (got ++ [t] ++ ts ++ rest) := ⟨more, by simpa using hmore⟩
    rw [List.cons_append, yyparse]
    simpa [hunread, htoken, hshift] using ih hrest hstack

theorem Parser.HasTables.yyparse_stops (tokens got ts : List Token) (hsplit : tokens = got ++ ts)
    (hgot : P.Shifts v got) :
    P.Stops v ending tokens (yyparse P ending got ts).1 (yyparse P ending got ts).2 := by
  induction ts generalizing got with
  | nil =>
    rw [List.append_nil] at hsplit
    subst hsplit
    cases hunread : P.exhausted tokens .unread with
    | true =>
      have hstop : P.Stops v ending tokens tokens (.memoryExhausted .unread) :=
        .exhausted (List.append_nil _).symm hgot hunread
      cases ending <;> simpa [yyparse, hunread] using hstop
    | false =>
      cases ending with
      | lexicalError line =>
        have hstop : P.Stops v (.lexicalError line) tokens tokens .lexicalError :=
          .lexicalError rfl hgot hunread
        simpa [yyparse, hunread] using hstop
      | eof cond line =>
        cases hend : P.exhausted tokens .endOfInput with
        | true =>
          have hstop : P.Stops v (.eof cond line) tokens tokens (.memoryExhausted .endOfInput) :=
            .exhaustedByEnd rfl hgot hunread hend
          simpa [yyparse, hunread, hend] using hstop
        | false =>
          have hsuffices : P.StackSuffices tokens := ⟨hgot.2, hunread, hend⟩
          by_cases haccepts : P.accepts tokens = true
          · have hstop : P.Stops v (.eof cond line) tokens tokens .accepted :=
              .accepted rfl hsuffices ((hP.accepts _).mp haccepts)
            simpa [yyparse, hunread, hend, haccepts] using hstop
          · have hnot : ¬ Accepted v tokens := fun h => haccepts ((hP.accepts _).mpr h)
            have hstop : P.Stops v (.eof cond line) tokens tokens .unexpectedEnd :=
              .unexpectedEnd rfl hgot hsuffices hnot
            simpa [yyparse, hunread, hend, haccepts] using hstop
  | cons t ts ih =>
    rw [yyparse]
    cases hunread : P.exhausted got .unread with
    | true => exact .exhausted hsplit hgot hunread
    | false =>
      cases htoken : P.exhausted got (.token t) with
      | true => simpa [htoken] using Stops.exhaustedByToken hsplit hgot hunread htoken
      | false =>
        by_cases hviable : P.viable (got ++ [t]) = true
        · simpa [htoken, hviable] using
            ih (got ++ [t]) (by simpa using hsplit) (hP.shifts_snoc hgot hunread htoken hviable)
        · have hnot : ¬ ∃ rest, Accepted v (got ++ [t] ++ rest) := fun h =>
            hviable ((hP.viable _).mpr h)
          simpa [htoken, hviable] using Stops.unexpectedToken hsplit hgot hunread htoken hnot

/-- The parser stops in this place and for this reason. -/
theorem Parser.HasTables.yyparse_eq_iff (tokens ts : List Token) (stop : Stop) :
    yyparse P ending [] tokens = (ts, stop) ↔ P.Stops v ending tokens ts stop := by
  constructor
  · intro h
    have hstops : P.Stops v ending tokens (yyparse P ending [] tokens).1
        (yyparse P ending [] tokens).2 := hP.yyparse_stops tokens [] tokens rfl P.shifts_nil
    rwa [h] at hstops
  · intro h
    have hpast : ∀ {got : List Token} (rest : List Token), P.Shifts v got →
        yyparse P ending [] (got ++ rest) = yyparse P ending got rest := fun rest hgot =>
      @Parser.HasTables.yyparse_shifts v P hP ending [] _ hgot.1 hgot.2 rest
    have hwhole : P.Shifts v tokens → yyparse P ending [] tokens = yyparse P ending tokens [] :=
      fun hgot => by simpa using hpast [] hgot
    cases h with
    | @exhausted got rest hsplit hgot hfull =>
      rw [hsplit, hpast rest hgot]
      cases rest <;> cases ending <;> simp [yyparse, hfull]
    | exhaustedByToken hsplit hgot hunread hfull =>
      rw [hsplit, hpast _ hgot]
      simp [yyparse, hunread, hfull]
    | @unexpectedToken got rest t hsplit hgot hunread htoken hnot =>
      have hviable : ¬ P.viable (got ++ [t]) = true := fun h => hnot ((hP.viable _).mp h)
      rw [hsplit, hpast _ hgot]
      simp [yyparse, hunread, htoken, hviable]
    | lexicalError hending hgot hunread =>
      rw [hwhole hgot, hending]
      simp [yyparse, hunread]
    | exhaustedByEnd hending hgot hunread hend =>
      rw [hwhole hgot, hending]
      simp [yyparse, hunread, hend]
    | accepted hending hsuffices haccepted =>
      rw [hwhole ⟨accepted_viable haccepted, hsuffices.1⟩, hending]
      simp [yyparse, hsuffices.2, (hP.accepts _).mpr haccepted]
    | unexpectedEnd hending hgot hsuffices hnot =>
      have hrejects : ¬ P.accepts tokens = true := fun h => hnot ((hP.accepts _).mp h)
      rw [hwhole hgot, hending]
      simp [yyparse, hsuffices.2, hrejects]

end

/-! ## What main makes of it -/

variable (hash v) in
/-- The parser runs the actions of the reductions that it makes on the tokens. -/
structure Parser.Reduces (R : List Token → Stop → List Reduction) (P : Parser) : Prop
    extends P.HasTables v where
  actions : ∀ ts stop, P.actions ts stop = runReductions hash v (R ts stop)

/-- `yyparse` has called `yyerror`; after a lexical error it is the scanner that exits. -/
def Stop.isError : Stop → Bool
  | .accepted | .lexicalError => false
  | .unexpectedToken | .unexpectedEnd | .memoryExhausted _ => true

def Scan.tokenList (source : Scan) : List Token := source.tokens.map Prod.fst

/-- The tokens of all files that can be opened. -/
def tokensOf (fopen : String → Option (List Char)) (infile : List String) : List Token :=
  (scanFiles .initial 1 (infile.filterMap fopen)).tokenList

variable (v) in
/-- The scanner meets an unmatched character, and the parser shifts all tokens before it. -/
def LexicalErrorFirst (P : Parser) (source : Scan) : Prop :=
  (∃ line, source.ending = .lexicalError line) ∧ P.Shifts v source.tokenList ∧
    P.exhausted source.tokenList .unread = false

variable (v) in
/-- One of the reductions on the tokens is fatal, up to where the parser stops. -/
def CrashesOn (R : List Token → Stop → List Reduction) (P : Parser) (source : Scan) : Prop :=
  ∃ ts stop, P.Stops v source.ending source.tokenList ts stop ∧
    crashes v .initial (R ts stop) = true

theorem opened_eq {fopen : String → Option (List Char)} {infile : List String}
    (h : ∀ f ∈ infile, (fopen f).isSome) : opened fopen infile = infile.filterMap fopen := by
  induction infile with
  | nil => rfl
  | cons f fs ih =>
    obtain ⟨contents, hf⟩ := Option.isSome_iff_exists.mp (h f List.mem_cons_self)
    rw [opened, hf, List.filterMap_cons, hf]
    exact congrArg _ (ih fun g hg => h g (List.mem_cons_of_mem _ hg))

/-- If all files can be opened, they are what the scanner reads. -/
theorem input_eq {fopen : String → Option (List Char)} {infile : List String} (hne : infile ≠ [])
    (h : ∀ f ∈ infile, (fopen f).isSome) (stdin : List Char) :
    input fopen stdin infile = scanFiles .initial 1 (infile.filterMap fopen) := by
  cases infile with
  | nil => exact absurd rfl hne
  | cons f fs =>
    obtain ⟨contents, hf⟩ := Option.isSome_iff_exists.mp (h f List.mem_cons_self)
    rw [input, opened_eq fun g hg => h g (List.mem_cons_of_mem _ hg), List.filterMap_cons, hf]
    rfl

variable {R : List Token → Stop → List Reduction}

section
variable (hP : P.Reduces hash v R)
include hP

/-- The compiler reports success wherever the parser stops, unless an action crashes or
the scanner exits: nothing ever counts an error. -/
theorem Parser.Reduces.main_success_iff {fopen : String → Option (List Char)} {stdin : List Char}
    {infile : List String} (hne : infile ≠ []) {ts : List Token} {stop : Stop}
    (hstop : P.Stops v (input fopen stdin infile).ending (input fopen stdin infile).tokenList
      ts stop) :
    (∃ module, main P fopen stdin infile = .status 0 (some module)) ↔
      crashes v .initial (R ts stop) = false ∧ stop ≠ .lexicalError := by
  have hparse := (hP.yyparse_eq_iff _ _ _).mpr hstop
  rw [Scan.tokenList] at hparse
  have hends := (described_initial hash).runReductions_ends (v := v) (R ts stop)
  simp only [main, if_neg hne, hparse, hP.actions]
  rcases hrun : (runReductions hash v (R ts stop)).run .initial with ⟨es, _ | ⟨a, s⟩⟩
  · have hcrash : crashes v .initial (R ts stop) = true := by simpa [hrun] using hends.ends
    simp [hcrash]
  · have hfine : crashes v .initial (R ts stop) = false := by simpa [hrun] using hends.ends
    have hs : s.numErrors = 0 := (hends.leaves es a s hrun).numErrors
    cases stop <;> simp [hfine, finish, yyerror, hs]

end

section
open Classical

/-- The reductions of a derivation, when `treeParser` has accepted it. -/
noncomputable def treeReductions (v : FrontEnd) (ts : List Token) : Stop → List Reduction
  | .accepted =>
      if h : ∃ tu, TranslationUnit.Derives v tu ts then TranslationUnit.reductions h.choose else []
  | _ => []

theorem treeParser_reduces (hash : String → Nat) (v : FrontEnd) :
    (treeParser hash v).Reduces hash v (treeReductions v) where
  toHasTables := treeParser_hasTables hash v
  actions ts stop := by
    cases stop with
    | accepted =>
      simp only [treeParser, treeReductions, true_and]
      split
      · exact translationUnit_eq _
      · rfl
    | _ => rfl

end

/-- The file `a.c` contains `int x;`, there is no other file. -/
def onlyFile (f : String) : Option (List Char) := if f = "a.c" then some "int x;".toList else none

theorem yyparse_treeParser_nil (hash : String → Nat) (v : FrontEnd) :
    yyparse (treeParser hash v) (.eof .initial 1) [] [] = ([], .unexpectedEnd) := by
  have haccepts : (treeParser hash v).accepts [] = false := by
    simpa [treeParser] using not_accepted_nil (v := v)
  rw [yyparse, haccepts]
  rfl

/-- Both compilers report success for an empty file and write an empty module. -/
theorem main_treeParser_emptyFile (v : FrontEnd) :
    main (treeParser Uthash.hashJen v) (fun _ => some []) [] ["empty.c"] = .status 0 (some []) := by
  have hactions : (treeParser Uthash.hashJen v).actions [] .unexpectedEnd = pure () := by
    simp [treeParser]
  have hinput : input (fun _ => some []) [] ["empty.c"] = ⟨[], .eof .initial 1⟩ := rfl
  simp only [main, hinput, List.map_nil, yyparse_treeParser_nil, hactions]
  rfl

end CourseCompilers.MiniC
