import CourseCompilers.Lib.Flex

/-! The scanner of `minic.lex`. The C++ front end has one more rule, a second one
for `switch`, which never wins against the first. -/

namespace CourseCompilers.MiniC
open Lib

/-- The tokens the scanner returns. The attribute of a constant is the text it is
computed from. -/
inductive Token where
  | semicolon | colon | comma
  | lbrace | rbrace | lparen | rparen | lbracket | rbracket
  | plus | minus | star | div | mod
  | lte | gte | lt | gt | eq | neq | not | assign
  | arrow | dot | ampersand | logicalAnd | logicalOr
  | bitwiseOr | bitwiseXor | lshift | rshift | bitwiseInvert | questionMark
  | floatKeyword | intKeyword | voidKeyword
  | forKeyword | whileKeyword | ifKeyword | elseKeyword | switchKeyword | caseKeyword | doKeyword
  | structKeyword | sizeofKeyword | returnKeyword | breakKeyword | continueKeyword
  | constantInteger (text : String)
  | constantFloat (text : String)
  | id (name : String)
  deriving DecidableEq, Repr

inductive StartCondition where
  | initial
  | comment
  deriving DecidableEq, Repr

/-- What a rule does with the text it has matched. -/
inductive LexAction where
  | skip
  | newline
  | token (of : String → Token)
  | begin (cond : StartCondition)
  | lexicalError

abbrev LexRule := Pattern Char × LexAction

namespace LexRule
open Pattern

def digit : Pattern Char := .cls fun c => '0' ≤ c && c ≤ '9'
def letter (c : Char) : Bool := 'a' ≤ c && c ≤ 'z' || 'A' ≤ c && c ≤ 'Z' || c = '_'
def ident : Pattern Char :=
  .seq (.cls letter) (.star (.cls fun c => letter c || '0' ≤ c && c ≤ '9'))
def space : Pattern Char := .star (.cls fun c => c = '\t' || c = ' ')
def newline : Pattern Char := .cls fun c => c = '\n' || c = '\r'

/-- A rule for one word that returns one token. -/
def fixed (text : String) (t : Token) : LexRule := (word text.toList, .token fun _ => t)

def initialRules : List LexRule :=
  [(space, .skip), (newline, .newline),
   fixed ";" .semicolon, fixed ":" .colon, fixed "," .comma,
   fixed "\x7b" .lbrace, fixed "\x7d" .rbrace, fixed "(" .lparen, fixed ")" .rparen,
   fixed "[" .lbracket, fixed "]" .rbracket,
   fixed "+" .plus, fixed "-" .minus, fixed "*" .star, fixed "/" .div, fixed "%" .mod,
   fixed "<=" .lte, fixed ">=" .gte, fixed "<" .lt, fixed ">" .gt, fixed "==" .eq,
   fixed "!=" .neq, fixed "!" .not, fixed "=" .assign, fixed "->" .arrow, fixed "." .dot,
   fixed "&" .ampersand, fixed "&&" .logicalAnd, fixed "||" .logicalOr, fixed "|" .bitwiseOr,
   fixed "^" .bitwiseXor, fixed "<<" .lshift, fixed ">>" .rshift, fixed "~" .bitwiseInvert,
   fixed "?" .questionMark,
   fixed "float" .floatKeyword, fixed "int" .intKeyword, fixed "void" .voidKeyword,
   fixed "for" .forKeyword, fixed "while" .whileKeyword, fixed "if" .ifKeyword,
   fixed "else" .elseKeyword, fixed "switch" .switchKeyword, fixed "case" .caseKeyword,
   fixed "do" .doKeyword, fixed "struct" .structKeyword, fixed "sizeof" .sizeofKeyword,
   fixed "return" .returnKeyword, fixed "break" .breakKeyword, fixed "continue" .continueKeyword,
   (.star digit, .token .constantInteger),
   (.alt (.seq (plus digit) (.seq (word ['.']) (.star digit)))
      (.seq (.star digit) (.seq (word ['.']) (plus digit))), .token .constantFloat),
   (ident, .token .id),
   (word ['/', '*'], .begin .comment),
   (.cls (· ≠ '\n'), .lexicalError)]

def commentRules : List LexRule :=
  [(.star (.cls fun c => c ≠ '*' && c ≠ '\n'), .skip),
   (.seq (plus (word ['*'])) (.star (.cls fun c => c ≠ '*' && c ≠ '/' && c ≠ '\n')), .skip),
   (newline, .newline),
   (.seq (plus (word ['*'])) (word ['/']), .begin .initial)]

end LexRule

/-- The rules of a start condition, in the order of the file. -/
def StartCondition.rules : StartCondition → List LexRule
  | .initial => LexRule.initialRules
  | .comment => LexRule.commentRules

/-- Some rule matches at least one character, so the default rule is never used and
the scanner always advances. -/
theorem StartCondition.exists_match (cond : StartCondition) (c : Char) (cs : List Char) :
    ∃ n act, Pattern.firstLongest (c :: cs) cond.rules = some (n + 1, act) := by
  have hrule : ∃ p act, (p, act) ∈ cond.rules ∧ (p.deriv c).nullable = true := by
    cases cond with
    | initial =>
      by_cases hnl : c = '\n'
      · refine ⟨LexRule.newline, .newline, by simp [rules, LexRule.initialRules], ?_⟩
        simp [LexRule.newline, Pattern.deriv, hnl, Pattern.nullable]
      · refine ⟨.cls (· ≠ '\n'), .lexicalError, by simp [rules, LexRule.initialRules], ?_⟩
        simp [Pattern.deriv, hnl, Pattern.nullable]
    | comment =>
      by_cases hnl : c = '\n'
      · refine ⟨LexRule.newline, .newline, by simp [rules, LexRule.commentRules], ?_⟩
        simp [LexRule.newline, Pattern.deriv, hnl, Pattern.nullable]
      · by_cases hstar : c = '*'
        · refine ⟨.seq (.plus (.word ['*'])) (.star (.cls fun c => c ≠ '*' && c ≠ '/' && c ≠ '\n')),
            .skip, by simp [rules, LexRule.commentRules], ?_⟩
          simp [Pattern.plus, Pattern.word, Pattern.deriv, hstar, Pattern.nullable]
        · refine ⟨.star (.cls fun c => c ≠ '*' && c ≠ '\n'), .skip,
            by simp [rules, LexRule.commentRules], ?_⟩
          simp [Pattern.deriv, hnl, hstar, Pattern.nullable]
  obtain ⟨p, act, hmem, hp⟩ := hrule
  obtain ⟨n, hn⟩ := Pattern.longest_of_deriv_nullable hp cs
  obtain ⟨m, act', hm, hle⟩ := Pattern.le_firstLongest hmem hn
  exact ⟨m - 1, act', by rw [hm, Nat.sub_add_cancel (by omega)]⟩

/-- How the scanner stops: at the end of its input, or in `lexical_error`. -/
inductive Ending where
  | eof (cond : StartCondition) (line : Nat)
  | lexicalError (line : Nat)
  deriving DecidableEq, Repr

/-- The tokens returned, each with the value of `line_num` at that time. -/
structure Scan where
  tokens : List (Token × Nat)
  ending : Ending
  deriving DecidableEq, Repr

/-- Scan a file; the next `skip` characters belong to the last match. -/
def scan (cond : StartCondition) (line : Nat) : Nat → List Char → Scan
  | _, [] => ⟨[], .eof cond line⟩
  | skip + 1, _ :: cs => scan cond line skip cs
  | 0, c :: cs =>
      match Pattern.firstLongest (c :: cs) cond.rules with
      | none => scan cond line 0 cs
      | some (n, .skip) => scan cond line (n - 1) cs
      | some (n, .newline) => scan cond (line + 1) (n - 1) cs
      | some (n, .token of) =>
          let r := scan cond line (n - 1) cs
          ⟨(of (String.ofList ((c :: cs).take n)), line) :: r.tokens, r.ending⟩
      | some (n, .begin cond) => scan cond line (n - 1) cs
      | some (_, .lexicalError) => ⟨[], .lexicalError line⟩

/-- Scan files one after the other; the start condition and `line_num` go on. -/
def scanFiles (cond : StartCondition) (line : Nat) : List (List Char) → Scan
  | [] => ⟨[], .eof cond line⟩
  | f :: fs =>
      let r := scan cond line 0 f
      match r.ending with
      | .lexicalError _ => r
      | .eof cond line =>
          let r' := scanFiles cond line fs
          ⟨r.tokens ++ r'.tokens, r'.ending⟩

end CourseCompilers.MiniC
