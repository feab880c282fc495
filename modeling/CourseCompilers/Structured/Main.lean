import CourseCompilers.Structured.Accepts
import CourseCompilers.Structured.Correct
import CourseCompilers.Structured.Scanner

/-! The third tutorial from the text that is read to the function that is written, as far
as the parser's stack suffices. -/

namespace CourseCompilers.Structured
open Lib.Precedence Expressions Ir

/-- `main` on a text: the function in the module, or how `yyparse` fails. -/
def main (F : Folder) (V : Version) (cs : List Char) : Except Failure Func :=
  yyparse F V (scan 0 cs)

section
variable {F : Folder} {V : Version} {cs rest : List Char} {ts : List Tok} {p : Program}

theorem main_of_spells (h : Spells cs p.tokens rest) (hp : p.Declared) :
    main F V cs = outcome (p.compile F V) := by
  rw [main, h.scan, yyparse_tokens hp]

theorem spells_of_main {f : Func} (h : main F V cs = .ok f) :
    ∃ (p : Program) (rest : List Char), p.Declared ∧ Spells cs p.tokens rest ∧
      p.compile F V = some f := by
  obtain ⟨p, ts, hp, hscan, hf⟩ := accepts_of_yyparse h
  obtain ⟨rest, hspells⟩ := spells_of_scan hscan
  exact ⟨p, rest, hp, hspells, hf⟩

theorem viable_of_main (h : main F V cs = .error .crash) :
    ∃ ts rest, Spells cs ts rest ∧
      (∃ (p : Program) (w : List Tok), p.Declared ∧ p.tokens = ts ++ w) ∧
      ∀ (p : Program) (w : List Tok), p.Declared → p.tokens = ts ++ w → p.compile F V = none := by
  obtain ⟨ts, ts', hscan, hbegins, hnone⟩ := viable_of_crash h
  obtain ⟨rest, hspells⟩ := spells_of_scan hscan
  exact ⟨ts, rest, hspells, hbegins, hnone⟩

end

/-- A text is compiled exactly if a program stands at its head, to the code of that program,
whatever comes after the closing brace. `main` goes wrong as soon as the text spells the
beginning of programs that all have no code. -/
theorem main_iff (F : Folder) (V : Version) (cs : List Char) :
    (∀ f, main F V cs = .ok f ↔
      ∃ (p : Program) (rest : List Char), p.Declared ∧ Spells cs p.tokens rest ∧
        p.compile F V = some f) ∧
    (main F V cs = .error .crash ↔
      ∃ ts rest, Spells cs ts rest ∧
        (∃ (p : Program) (w : List Tok), p.Declared ∧ p.tokens = ts ++ w) ∧
        ∀ (p : Program) (w : List Tok), p.Declared → p.tokens = ts ++ w →
          p.compile F V = none) := by
  refine ⟨fun f => ⟨spells_of_main, ?_⟩, viable_of_main, ?_⟩
  · rintro ⟨p, rest, hp, hspells, hf⟩
    rw [main_of_spells hspells hp, hf]
    rfl
  · rintro ⟨ts, rest, hspells, ⟨p, w, hp, hw⟩, hnone⟩
    rw [main, hspells.scan]
    exact crash_of_viable hp hw hnone (scan 0 rest)

/-- The function of a text returns what the program in it yields; in the version without a
back edge, with every `while` read as an `if`. It returns nothing else if the folder keeps
undefined quotients or no quotient of constants is undefined. -/
theorem main_yields (F : Folder) (V : Version) {cs rest : List Char} {p : Program}
    (h : Spells cs p.tokens rest) (hp : p.Declared) (hr : p.ReadsAssigned) (hf : p.FirstAtTop)
    (ha : p.All (· < 2 ^ 31) (V.mulDiv = true)) :
    ∃ f, main F V cs = .ok f ∧
      (∀ words v, p.Yields V.backEdge v → f.Returns words (.i64 v)) ∧
      (F.KeepsUndefined ∨ p.QuotientsDefined →
        ∀ words v, f.Returns words (.i64 v) → p.Yields V.backEdge v) := by
  obtain ⟨f, hcompile, hreturns⟩ := p.compile_yields F hr hf ha
  refine ⟨f, ?_, hreturns⟩
  rw [main_of_spells h hp, hcompile]
  rfl

def countdownText : List Char :=
  "\x7b x = 2; // twice\n while (x) \x7b x = x-1; \x7d return x; \x7d".toList

theorem main_yields_countdown :
    ∃ f, main .constants .c countdownText = .ok f ∧
      ∀ words v, f.Returns words (.i64 v) ↔ countdown.Yields Version.c.backEdge v := by
  have hscan : scan 0 countdownText = countdown.tokens ++ [] := by decide +kernel
  obtain ⟨rest, hspells⟩ := spells_of_scan hscan
  obtain ⟨f, hmain, hforth, hback⟩ :=
    main_yields .constants .c hspells (by decide) (by decide) (by decide) (by decide)
  exact ⟨f, hmain, fun words v => ⟨hback (.inr (by decide)) words v, hforth words v⟩⟩

end CourseCompilers.Structured
