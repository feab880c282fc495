import CourseCompilers.Calculator.Lines
import CourseCompilers.Lib.Bison

/-! The parser of the calculator as `bison` generates it from `calc.y`: what its tables
make of any sequence of tokens. -/

namespace CourseCompilers.Calculator.Parser
open Lib Lib.Bison Lib.Precedence Expressions

/-- `yypact`, `yytable` and the others of `calc.y.c`. -/
def tables : Tables where
  translate :=
    [0, 2, 2, 2, 2, 2, 2, 2, 2, 2, 2, 2, 2, 2, 2, 2, 2, 2, 2, 2, 2, 2, 2, 2, 2, 2, 2, 2, 2, 2, 2, 2,
     2, 2, 2, 2, 2, 2, 2, 2, 2, 2, 2, 2, 2, 2, 2, 2, 2, 2, 2, 2, 2, 2, 2, 2, 2, 2, 2, 2, 2, 2, 2, 2,
     2, 2, 2, 2, 2, 2, 2, 2, 2, 2, 2, 2, 2, 2, 2, 2, 2, 2, 2, 2, 2, 2, 2, 2, 2, 2, 2, 2, 2, 2, 2, 2,
     2, 2, 2, 2, 2, 2, 2, 2, 2, 2, 2, 2, 2, 2, 2, 2, 2, 2, 2, 2, 2, 2, 2, 2, 2, 2, 2, 2, 2, 2, 2, 2,
     2, 2, 2, 2, 2, 2, 2, 2, 2, 2, 2, 2, 2, 2, 2, 2, 2, 2, 2, 2, 2, 2, 2, 2, 2, 2, 2, 2, 2, 2, 2, 2,
     2, 2, 2, 2, 2, 2, 2, 2, 2, 2, 2, 2, 2, 2, 2, 2, 2, 2, 2, 2, 2, 2, 2, 2, 2, 2, 2, 2, 2, 2, 2, 2,
     2, 2, 2, 2, 2, 2, 2, 2, 2, 2, 2, 2, 2, 2, 2, 2, 2, 2, 2, 2, 2, 2, 2, 2, 2, 2, 2, 2, 2, 2, 2, 2,
     2, 2, 2, 2, 2, 2, 2, 2, 2, 2, 2, 2, 2, 2, 2, 2, 2, 2, 2, 2, 2, 2, 2, 2, 2, 2, 2, 2, 2, 2, 2, 2,
     1, 2, 3, 4, 5, 6, 7, 8, 9, 10, 11]
  pact := [18, -3, 25, 25, -3, 25, 14, 1, 39, 28, 37, -3, -3, 35, 25, 25, -3, 25, 25, -3,
    -3, 39, 39, -3, -3]
  defact := [0, 11, 0, 0, 2, 0, 0, 0, 12, 0, 13, 1, 5, 0, 0, 0, 3, 0, 0, 10, 4, 6, 7, 8, 9]
  pgoto := [-3, -3, -2]
  defgoto := [-1, 6, 7]
  table := [8, 9, 0, 10, 13, 14, 15, 0, 0, 16, 17, 18, 21, 22, 11, 23, 24, 1, 0, 2, 3, 1, 12, 2, 3,
    5, 4, 0, 1, 5, 2, 3, 14, 15, 0, 19, 5, 17, 18, 14, 15, 14, 15, 20, 17, 18, 17, 18, 17, 18]
  check := [2, 3, -1, 5, 6, 4, 5, -1, -1, 8, 9, 10, 14, 15, 0, 17, 18, 3, -1, 5, 6, 3, 8, 5, 6,
    11, 8, -1, 3, 11, 5, 6, 4, 5, -1, 7, 11, 9, 10, 4, 5, 4, 5, 8, 9, 10, 9, 10, 9, 10]
  r1 := [0, 12, 13, 13, 13, 13, 14, 14, 14, 14, 14, 14, 14, 14]
  r2 := [0, 2, 1, 2, 3, 2, 3, 3, 3, 3, 3, 1, 2, 2]
  final := 11
  last := 49
  ntokens := 12
  pactNinf := -3
  initDepth := 200
  maxDepth := 10000

/-! ## Tokens and actions -/

/-- What the scanner returns. -/
inductive Tok where
  | newline
  | tok (t : Token Symbol (BitVec 32))
  deriving DecidableEq, Repr

/-- The numbers of `calc.y.h`. -/
def Tok.code : Tok → Nat
  | .tok (.atom _) => 258
  | .tok (.op .plus) => 259
  | .tok (.op .minus) => 260
  | .tok .lparen => 261
  | .tok .rparen => 262
  | .newline => 263
  | .tok (.op .multiply) => 264
  | .tok (.op .divide) => 265
  | .tok (.op .decrement) => 266

/-- Only a number sets `yylval`. -/
def Tok.val : Tok → Option (BitVec 32)
  | .tok (.atom n) => some n
  | _ => none

inductive Output where
  /-- What the actions of the grammar do. -/
  | event (e : Event)
  /-- `yyerror`. -/
  | error (msg : String)
  /-- What the scanner copies. -/
  | echo (yytext : List (Fin 256))
  deriving DecidableEq

abbrev Run := Prog Unit Output

/-- The actions of `calc.y`. -/
def rule : Nat → BitVec 32 → List (BitVec 32) → Run (BitVec 32)
  | 3, v, [x, _] => do
      Prog.observe (.event (.result x.toInt))
      return v
  | 4, v, [_, x, _] => do
      Prog.observe (.event (.result x.toInt))
      return v
  | 6, _, [x, _, y] => (action .plus x y).relabel .event
  | 7, _, [x, _, y] => (action .minus x y).relabel .event
  | 8, _, [x, _, y] => (action .multiply x y).relabel .event
  | 9, _, [x, _, y] => (action .divide x y).relabel .event
  | 10, _, [_, x, _] => return x
  | 12, _, [_, x] => return Unary.minus.apply x
  | 13, _, [_, x] => return Unary.decrement.apply x
  | _, v, _ => return v

def parser : Parser (BitVec 32) Output where
  toTables := tables
  rule := rule
  error msg := [.error msg]

/-- A token with what the scanner has copied before it. -/
abbrev Read := List (List (Fin 256)) × Tok

def lexeme (r : Read) : Lexeme (BitVec 32) Output := ⟨r.2.code, r.2.val, r.1.map .echo⟩

/-- The calls of `yylex`: the tokens, and the last one, which finds the end of the file. -/
def lexemes (rs : List Read) (rest : List (List (Fin 256))) :
    List (Lexeme (BitVec 32) Output) :=
  rs.map lexeme ++ [⟨0, none, rest.map .echo⟩]

/-! ## A calculator without tables -/

/-- A rule that waits for its last operand, with the value of the first. -/
inductive Pending where
  | paren
  | pre (u : Unary)
  | bin (o : Binary) (x : BitVec 32)
  deriving DecidableEq

def Pending.isOperator : Pending → Bool
  | .paren => false
  | _ => true

/-- The state on such a rule, its operand complete, does not look at the next token. -/
def Pending.isProduct : Pending → Bool
  | .bin .multiply _ | .bin .divide _ => true
  | _ => false

def Pending.yields (next : Binary) : Pending → Bool
  | .paren => false
  | .pre u => resolution.pre u next
  | .bin o _ => resolution.bin o next

def Pending.close : Pending → BitVec 32 → Run (BitVec 32)
  | .paren, y => return y
  | .pre u, y => return u.apply y
  | .bin o x, y => (action o x y).relabel .event

def closeWhile (p : Pending → Bool) :
    List Pending → BitVec 32 → Run (List Pending × BitVec 32)
  | [], y => return ([], y)
  | f :: K, y =>
      if p f then do
        let z ← f.close y
        closeWhile p K z
      else return (f :: K, y)

/-- The states of the parser for a rule begun. -/
def Pending.width : Pending → Nat
  | .paren | .pre _ => 1
  | .bin _ _ => 2

/-- The states on the stack of the parser, `started` when a line is below. -/
def depth (started : Bool) (K : List Pending) : Nat :=
  (if started then 2 else 1) + (K.map Pending.width).sum

def syntaxError : Run Result := do
  Prog.observe (.error "syntax error")
  return .abort

/-- Push one more symbol, if the stack has room. -/
def push (size : Nat) (next : Run Result) : Run Result :=
  if size < 10000 then next
  else do
    Prog.observe (.error "memory exhausted")
    return .exhausted

/-- Read a token with the rules begun and the operand read last in hand; `go` reads on. -/
def onToken (go : Bool → List Pending → Option (BitVec 32) → Run Result) (started : Bool)
    (K : List Pending) : Option (BitVec 32) → Tok → Run Result
  | none, .tok (.atom n) =>
      push (depth started K + 1) do
        let (K, x) ← closeWhile Pending.isProduct K n
        go started K (some x)
  | none, .tok .lparen => push (depth started K + 1) (go started (.paren :: K) none)
  | none, .tok (.op s) =>
      match spelling.asPre s with
      | some u => push (depth started K + 1) (go started (.pre u :: K) none)
      | none => syntaxError
  | none, .newline =>
      if K = [] then push (depth started K + 1) (go true [] none) else syntaxError
  | none, .tok .rparen => syntaxError
  | some x, .tok (.op s) =>
      match spelling.asBin s with
      | some o => do
          let (K, x) ← closeWhile (Pending.yields o) K x
          push (depth started K + 2) (go started (.bin o x :: K) none)
      | none => do
          let _ ← closeWhile Pending.isOperator K x
          syntaxError
  | some x, .tok .rparen => do
      let (K, x) ← closeWhile Pending.isOperator K x
      match K with
      | .paren :: K =>
          push (depth started (.paren :: K) + 2) do
            let (K, x) ← closeWhile Pending.isProduct K x
            go started K (some x)
      | _ => syntaxError
  | some x, .newline => do
      let (K, x) ← closeWhile Pending.isOperator K x
      match K with
      | [] =>
          push (depth started [] + 2) do
            Prog.observe (.event (.result x.toInt))
            go true [] none
      | _ => syntaxError
  | some x, .tok _ => do
      let _ ← closeWhile Pending.isOperator K x
      syntaxError

def onEnd (started : Bool) (K : List Pending) : Option (BitVec 32) → Run Result
  | none => if K = [] ∧ started then return .accept else syntaxError
  | some x => do
      let _ ← closeWhile Pending.isOperator K x
      syntaxError

/-- Read the tokens of a session, each after what the scanner has copied. -/
def calculate (rest : List (List (Fin 256))) :
    List Read → Bool → List Pending → Option (BitVec 32) → Run Result
  | [], started, K, operand => do
      Parser.emit (rest.map .echo)
      onEnd started K operand
  | (echo, t) :: rs, started, K, operand => do
      Parser.emit (echo.map .echo)
      onToken (calculate rest rs) started K operand t

/-! ## What is on the stack -/

/-- The state after the symbols of a rule before its last operand, after that operand, and
the number of the rule. -/
def Pending.waiting : Pending → Nat
  | .paren => 3
  | .pre .minus => 2
  | .pre .decrement => 5
  | .bin .plus _ => 14
  | .bin .minus _ => 15
  | .bin .multiply _ => 17
  | .bin .divide _ => 18

def Pending.complete : Pending → Nat
  | .paren => 9
  | .pre .minus => 8
  | .pre .decrement => 10
  | .bin .plus _ => 21
  | .bin .minus _ => 22
  | .bin .multiply _ => 23
  | .bin .divide _ => 24

def Pending.number : Pending → Nat
  | .paren => 10
  | .pre .minus => 12
  | .pre .decrement => 13
  | .bin .plus _ => 6
  | .bin .minus _ => 7
  | .bin .multiply _ => 8
  | .bin .divide _ => 9

def waiting (started : Bool) : List Pending → Nat
  | [] => if started then 6 else 0
  | f :: _ => f.waiting

def complete (started : Bool) : List Pending → Nat
  | [] => if started then 13 else 7
  | f :: _ => f.complete

/-- The states below a rule that waits for an operand. -/
def states (started : Bool) : List Pending → List Nat
  | [] => if started then [6, 0] else [0]
  | .paren :: K => Pending.paren.waiting :: states started K
  | .pre u :: K => (Pending.pre u).waiting :: states started K
  | .bin o x :: K => (Pending.bin o x).waiting :: complete started K :: states started K

/-- The values beside them. Those of tokens other than numbers are arbitrary. -/
def Holds (started : Bool) : List Pending → List (BitVec 32) → Prop
  | [], vs => if started then ∃ v, vs = [v] else vs = []
  | .paren :: K, vs | .pre _ :: K, vs => ∃ v vs', vs = v :: vs' ∧ Holds started K vs'
  | .bin _ x :: K, vs => ∃ v vs', vs = v :: x :: vs' ∧ Holds started K vs'

theorem depth_cons (started : Bool) (f : Pending) (K : List Pending) :
    depth started (f :: K) = f.width + depth started K := by
  simp [depth]
  omega

theorem length_states (started : Bool) (K : List Pending) :
    (states started K).length = depth started K := by
  induction K with
  | nil => cases started <;> rfl
  | cons f K ih =>
    rw [depth_cons, ← ih]
    cases f <;> simp [states, Pending.width] <;> omega

theorem head_states (started : Bool) (K : List Pending) :
    (states started K).head? = some (waiting started K) := by
  cases K with
  | nil => cases started <;> rfl
  | cons f K => cases f <;> rfl

/-- The parser waits for an operand. -/
structure Waits (started : Bool) (K : List Pending) (c : Config (BitVec 32) Output) : Prop where
  states_eq : c.states = states started K
  holds : Holds started K c.values
  errStatus : c.errStatus = 0
  sized : parser.Sized c
  room : c.states.length < 10000

/-- The parser has read the operand. -/
structure Has (started : Bool) (K : List Pending) (x : BitVec 32)
    (c : Config (BitVec 32) Output) : Prop where
  states_eq : c.states = complete started K :: states started K
  values_eq : ∃ vs, c.values = x :: vs ∧ Holds started K vs
  errStatus : c.errStatus = 0
  sized : parser.Sized c
  room : c.states.length < 10000

/-! ## What the tables say -/

/-- The number of the token in hand, 0 at the end of the file. -/
def codeOf : Option Tok → Nat
  | none => 0
  | some t => t.code

/-- The next token completes the rule. -/
def Completes (f : Pending) (t : Option Tok) : Prop :=
  f.isOperator = true ∧ ∀ s o, t = some (.tok (.op s)) → spelling.asBin s = some o →
    f.yields o = true

/-- The states that wait for an operand, each with the one that has it. -/
def operandStates : List (Nat × Nat) :=
  [(0, 7), (6, 13), (3, 9), (2, 8), (5, 10), (14, 21), (15, 22), (17, 23), (18, 24)]

theorem Pending.mem_operandStates (f : Pending) : (f.waiting, f.complete) ∈ operandStates := by
  rcases f with _ | u | ⟨o, x⟩
  · decide
  · cases u <;> decide
  · cases o <;> simp [Pending.waiting, Pending.complete, operandStates]

theorem mem_operandStates (started : Bool) (K : List Pending) :
    (waiting started K, complete started K) ∈ operandStates := by
  cases K with
  | nil => cases started <;> decide
  | cons f K => exact f.mem_operandStates

theorem goto_eq (started : Bool) (K : List Pending) {r : Nat}
    (hr : r ∈ [6, 7, 8, 9, 10, 11, 12, 13]) :
    tables.goto r (waiting started K) = some (complete started K) := by
  have hall : ∀ p ∈ operandStates, ∀ r ∈ [6, 7, 8, 9, 10, 11, 12, 13],
      tables.goto r p.1 = some p.2 := by decide
  exact hall _ (mem_operandStates started K) r hr

/-- The rule of an operator is reduced before a token that completes it. -/
theorem decision_complete {f : Pending} {t : Option Tok} (h : Completes f t) :
    tables.decision f.complete (codeOf t) = some (.reduce f.number) := by
  obtain ⟨hop, hyields⟩ := h
  rcases f with _ | u | ⟨o, x⟩
  · cases hop
  · cases u <;> rcases t with _ | _ | ⟨n⟩ | s | _ | _
    all_goals try rfl
    all_goals cases s <;> first | rfl | exact absurd (hyields _ _ rfl rfl) (by decide)
  · cases o <;> rcases t with _ | _ | ⟨n⟩ | s | _ | _
    all_goals try rfl
    all_goals cases s <;> first
      | rfl
      | exact absurd (hyields _ _ rfl rfl) (by simp [Pending.yields]; decide)

/-! ## Reductions -/

variable {started : Bool} {K : List Pending} {f : Pending} {x : BitVec 32}
  {c : Config (BitVec 32) Output}

theorem Pending.length_of_number (f : Pending) (hf : f.isOperator = true) :
    parser.r2[f.number]? = some (f.width + 1) ∧ f.number ∈ [6, 7, 8, 9, 10, 11, 12, 13] := by
  rcases f with _ | u | ⟨o, y⟩
  · cases hf
  · cases u <;> exact ⟨rfl, by decide⟩
  · cases o <;> exact ⟨rfl, by simp [Pending.number]⟩

/-- The symbols of an operator's rule, and its action. -/
theorem reduce_operator (hf : f.isOperator = true) {vs : List (BitVec 32)}
    (hstates : c.states = complete started (f :: K) :: states started (f :: K))
    (hvalues : c.values = x :: vs) (hholds : Holds started (f :: K) vs) :
    Holds started K (c.values.drop (f.width + 1)) ∧
      c.states.drop (f.width + 1) = states started K ∧
      parser.reduce f.number c =
        some (Parser.reduced c (f.close x) (f.width + 1) (complete started K)) := by
  obtain ⟨hlen, hnumber⟩ := f.length_of_number hf
  rcases f with _ | u | ⟨o, y⟩
  · cases hf
  · obtain ⟨v, vs, rfl, hK⟩ := hholds
    have hdrop : c.states.drop 2 = states started K := by rw [hstates]; rfl
    have hhead : (c.states.drop 2).head? = some (waiting started K) := by
      rw [hdrop, head_states]
    have htake : (c.values.take 2).reverse = [v, x] := by rw [hvalues]; rfl
    refine ⟨by rw [hvalues]; exact hK, hdrop, ?_⟩
    have hreduce := Parser.reduce_eq hlen (by rw [Pending.width, htake]; rfl) hhead
      (goto_eq started K hnumber)
    rw [hreduce, Pending.width, htake]
    cases u <;> rfl
  · obtain ⟨v, vs, rfl, hK⟩ := hholds
    have hdrop : c.states.drop 3 = states started K := by rw [hstates]; rfl
    have hhead : (c.states.drop 3).head? = some (waiting started K) := by
      rw [hdrop, head_states]
    have htake : (c.values.take 3).reverse = [y, v, x] := by rw [hvalues]; rfl
    refine ⟨by rw [hvalues]; exact hK, hdrop, ?_⟩
    have hreduce := Parser.reduce_eq hlen (by rw [Pending.width, htake]; rfl) hhead
      (goto_eq started K hnumber)
    rw [hreduce, Pending.width, htake]
    cases o <;> rfl

/-- A rule that is reduced next is closed first, and the parser goes on with its value. -/
theorem Has.close (h : Has started (f :: K) x c) (hf : f.isOperator = true)
    (hback : parser.backup { c with stackSize := parser.grown c } =
      parser.reduce f.number { c with stackSize := parser.grown c }) {k : BitVec 32 → Run Result}
    (hk : ∀ z c', Has started K z c' → c'.char = c.char → c'.input = c.input →
      parser.Does c' (k z)) : parser.Does c (f.close x >>= k) := by
  obtain ⟨vs, hvalues, hholds⟩ := h.values_eq
  obtain ⟨hgrown, hmax⟩ := h.sized.length_lt_grown h.room
  obtain ⟨hK, hdrop, hreduce⟩ :=
    reduce_operator (c := { c with stackSize := parser.grown c }) hf h.states_eq hvalues hholds
  have hroom := h.room
  refine Parser.Does.reduce ((h.sized.round_eq h.room).trans (hback.trans hreduce)) rfl
    fun z es _ => hk z _ ⟨?_, ⟨_, rfl, hK⟩, h.errStatus, ⟨Nat.zero_lt_of_lt hgrown, hmax, ?_⟩, ?_⟩
      rfl rfl
  · rw [hdrop]
  · rw [List.length_cons, List.length_drop]
    change c.states.length - (f.width + 1) + 1 ≤ parser.grown c
    omega
  · rw [List.length_cons, List.length_drop]
    change c.states.length - (f.width + 1) + 1 < 10000
    omega

theorem complete_ne_final (started : Bool) (K : List Pending) : complete started K ≠ 11 := by
  have hall : ∀ p ∈ operandStates, p.2 ≠ 11 := by decide
  exact hall _ (mem_operandStates started K)

theorem waiting_ne_final (started : Bool) (K : List Pending) : waiting started K ≠ 11 := by
  have hall : ∀ p ∈ operandStates, p.1 ≠ 11 := by decide
  exact hall _ (mem_operandStates started K)

/-- With the next token in hand, rules are closed as long as it completes them. -/
theorem Has.closeWhile_char {p : Pending → Bool} {t : Option Tok}
    (hp : ∀ f, p f = true → Completes f t) (h : Has started K x c)
    (hchar : c.char = some (codeOf t)) {k : List Pending × BitVec 32 → Run Result}
    (hk : ∀ K x c', Has started K x c' → (∀ f ∈ K.head?, p f = false) →
      c'.char = some (codeOf t) → c'.input = c.input → parser.Does c' (k (K, x))) :
    parser.Does c (closeWhile p K x >>= k) := by
  induction K generalizing x c with
  | nil =>
    rw [closeWhile, Prog.return_bind]
    exact hk [] x c h (by simp) hchar rfl
  | cons f K ih =>
    rw [closeWhile]
    by_cases hf : p f = true
    · rw [if_pos hf, Prog.bind_bind]
      refine h.close (hp f hf).1 ?_ ?_
      · exact Parser.backup_of_char (P := parser) (c := { c with stackSize := parser.grown c })
          (by rw [h.states_eq]; rfl) (complete_ne_final started (f :: K)) hchar
          (decision_complete (hp f hf))
      · intro z c' h' hchar' hinput
        exact ih h' (hchar'.trans hchar) fun K x c'' h'' hhead hchar'' hinput'' =>
          hk K x c'' h'' hhead hchar'' (hinput''.trans hinput)
    · rw [if_neg hf, Prog.return_bind]
      exact hk _ x c h (by simpa using hf) hchar rfl

/-- A product is closed without a look at the next token. -/
theorem Has.closeWhile_product (h : Has started K x c) (hchar : c.char = none)
    {k : List Pending × BitVec 32 → Run Result}
    (hk : ∀ K x c', Has started K x c' → (∀ f ∈ K.head?, f.isProduct = false) →
      c'.char = none → c'.input = c.input → parser.Does c' (k (K, x))) :
    parser.Does c (closeWhile Pending.isProduct K x >>= k) := by
  induction K generalizing x c with
  | nil =>
    rw [closeWhile, Prog.return_bind]
    exact hk [] x c h (by simp) hchar rfl
  | cons f K ih =>
    rw [closeWhile]
    by_cases hf : f.isProduct = true
    · rw [if_pos hf, Prog.bind_bind]
      have hdefault : tables.pact[f.complete]? = some tables.pactNinf ∧
          tables.default f.complete = some (.reduce f.number) ∧ f.isOperator = true := by
        rcases f with _ | u | ⟨_ | _ | _ | _, y⟩
        all_goals first | exact ⟨rfl, rfl, rfl⟩ | cases hf
      refine h.close hdefault.2.2 ?_ ?_
      · exact Parser.backup_of_default (P := parser) (c := { c with stackSize := parser.grown c })
          (by rw [h.states_eq]; rfl) (complete_ne_final started (f :: K)) hdefault.1 hdefault.2.1
      · intro z c' h' hchar' hinput
        exact ih h' (hchar'.trans hchar) fun K x c'' h'' hhead hchar'' hinput'' =>
          hk K x c'' h'' hhead hchar'' (hinput''.trans hinput)
    · rw [if_neg hf, Prog.return_bind]
      exact hk _ x c h (by simpa using hf) hchar rfl

/-! ## Pushes and errors -/

theorem does_push (h : parser.Sized c) {size : Nat} (hlen : c.states.length = size)
    {m : Run Result} (hm : size < 10000 → parser.Does c m) : parser.Does c (push size m) := by
  unfold push
  split
  · next hlt => exact hm hlt
  · next hge => exact Parser.Does.halt (h.round_exhausted (by rw [hlen]; exact not_lt.mp hge)) rfl

theorem states_lt (started : Bool) (K : List Pending) : ∀ s ∈ states started K, s < 25 := by
  have hwaiting : ∀ f : Pending, f.waiting < 25 := by
    intro f
    have hall : ∀ p ∈ operandStates, p.1 < 25 := by decide
    exact hall _ f.mem_operandStates
  have hcomplete : ∀ K, complete started K < 25 := by
    intro K
    have hall : ∀ p ∈ operandStates, p.2 < 25 := by decide
    exact hall _ (mem_operandStates started K)
  induction K with
  | nil => cases started <;> decide
  | cons f K ih =>
    rcases f with _ | u | ⟨o, y⟩
    · exact List.forall_mem_cons.mpr ⟨hwaiting _, ih⟩
    · exact List.forall_mem_cons.mpr ⟨hwaiting _, ih⟩
    · exact List.forall_mem_cons.mpr ⟨hwaiting _, List.forall_mem_cons.mpr ⟨hcomplete K, ih⟩⟩

/-- No rule of the grammar has the error token. -/
theorem errorShift_eq_none {s : Nat} (h : s < 25) : parser.errorShift s = none := by
  have hall : ∀ s < 25, tables.errorShift s = none := by decide
  exact hall s h

theorem Waits.error (h : Waits started K c) {char : Nat} (hchar : c.char = some char)
    (ha : tables.decision (waiting started K) char = some .error) :
    parser.Does c syntaxError := by
  refine Parser.Does.error h.sized h.room (by rw [h.states_eq, head_states])
    (waiting_ne_final started K) hchar ha h.errStatus (fun s hs => ?_) rfl
  rw [h.states_eq] at hs
  exact errorShift_eq_none (states_lt started K s hs)

theorem Has.error (h : Has started K x c) {char : Nat} (hchar : c.char = some char)
    (ha : tables.decision (complete started K) char = some .error) :
    parser.Does c syntaxError := by
  refine Parser.Does.error h.sized h.room (by rw [h.states_eq]; rfl)
    (complete_ne_final started K) hchar ha h.errStatus (fun s hs => ?_) rfl
  rw [h.states_eq] at hs
  have hcomplete : complete started K < 25 := by
    have hall : ∀ p ∈ operandStates, p.2 < 25 := by decide
    exact hall _ (mem_operandStates started K)
  rcases List.mem_cons.mp hs with rfl | hs
  · exact errorShift_eq_none hcomplete
  · exact errorShift_eq_none (states_lt started K s hs)

/-! ## Tokens where an operand is waited for -/

/-- A rule is begun. -/
theorem Waits.begin (h : Waits started K c) {char : Nat} (hchar : c.char = some char)
    (hf : f = .paren ∨ ∃ u, f = .pre u)
    (ha : tables.decision (waiting started K) char = some (.shift f.waiting)) {m : Run Result}
    (hm : ∀ c', Waits started (f :: K) c' → c'.char = none → c'.input = c.input →
      parser.Does c' m) :
    parser.Does c (push (depth started K + 1) m) := by
  obtain ⟨hgrown, hmax⟩ := h.sized.length_lt_grown h.room
  have hlen : c.states.length + 1 = depth started K + 1 := by
    rw [h.states_eq, length_states]
  have hstates : f.waiting :: c.states = states started (f :: K) := by
    rw [h.states_eq]
    rcases hf with rfl | ⟨u, rfl⟩ <;> rfl
  have hholds : Holds started (f :: K) (c.lval :: c.values) := by
    rcases hf with rfl | ⟨u, rfl⟩ <;> exact ⟨_, _, rfl, h.holds⟩
  have hsized : parser.Sized { c with
      states := f.waiting :: c.states, values := c.lval :: c.values
      stackSize := parser.grown c, char := none, errStatus := c.errStatus - 1 } :=
    ⟨Nat.zero_lt_of_lt hgrown, hmax, hgrown⟩
  refine Parser.Does.shift h.sized h.room (by rw [h.states_eq, head_states])
    (waiting_ne_final started K) hchar ha (does_push hsized hlen fun hlt => ?_)
  refine hm _ ⟨hstates, hholds, ?_, hsized, ?_⟩ rfl rfl
  · simp [h.errStatus]
  · simpa [hlen] using hlt

/-- The parser has an operand whose symbols, `len` of them, it reduces without a look at the
next token. -/
theorem does_operand {s r len : Nat} {v y : BitVec 32} {w vs : List (BitVec 32)}
    {ss : List Nat} (hsized : parser.Sized c) (hroom : c.states.length < 10000)
    (hstates : c.states = s :: ss) (hdrop : c.states.drop len = states started K)
    (htake : (c.values.take len).reverse = v :: w) (hvalues : c.values.drop len = vs)
    (hholds : Holds started K vs) (herr : c.errStatus = 0) (hchar : c.char = none)
    (hs : s ≠ 11 ∧ tables.pact[s]? = some (-3) ∧ tables.default s = some (.reduce r) ∧
      tables.r2[r]? = some len ∧ 0 < len ∧ r ∈ [6, 7, 8, 9, 10, 11, 12, 13])
    (hrule : rule r v (v :: w) = return y) {k : List Pending × BitVec 32 → Run Result}
    (hk : ∀ K x c', Has started K x c' → (∀ f ∈ K.head?, f.isProduct = false) →
      c'.char = none → c'.input = c.input → parser.Does c' (k (K, x))) :
    parser.Does c (closeWhile Pending.isProduct K y >>= k) := by
  obtain ⟨hgrown, hmax⟩ := hsized.length_lt_grown hroom
  obtain ⟨hfinal, hpact, hdefault, hlen, hpos, hr⟩ := hs
  have hrun : rule r v (v :: w) >>= (fun z => closeWhile Pending.isProduct K z >>= k) =
      closeWhile Pending.isProduct K y >>= k := by
    rw [hrule, Prog.return_bind]
  have hdoes := Parser.Does.default (P := parser) hsized hroom (by rw [hstates]; rfl) hfinal hpact
    hdefault hlen (by rw [htake]; rfl) (by rw [hdrop, head_states]) (goto_eq started K hr)
    (f := fun z => closeWhile Pending.isProduct K z >>= k) ?_
  · rw [htake] at hdoes
    rwa [← hrun]
  · intro z es _
    refine @Has.closeWhile_product started _ _ _ ?_ ?_ _ ?_
    on_goal 1 => refine ⟨?_, ⟨vs, ?_, hholds⟩, herr, ⟨?_, hmax, ?_⟩, ?_⟩
    · rw [hdrop]
    · rw [hvalues]
    · exact Nat.zero_lt_of_lt hgrown
    · rw [List.length_cons, List.length_drop]
      change c.states.length - len + 1 ≤ parser.grown c
      omega
    · rw [List.length_cons, List.length_drop]
      omega
    · exact hchar
    · exact hk

/-- A number is an operand. -/
theorem Waits.number (h : Waits started K c) {n : BitVec 32} (hchar : c.char = some 258)
    (hlval : c.lval = n) {k : List Pending × BitVec 32 → Run Result}
    (hk : ∀ K x c', Has started K x c' → (∀ f ∈ K.head?, f.isProduct = false) →
      c'.char = none → c'.input = c.input → parser.Does c' (k (K, x))) :
    parser.Does c (push (depth started K + 1) (closeWhile Pending.isProduct K n >>= k)) := by
  obtain ⟨hgrown, hmax⟩ := h.sized.length_lt_grown h.room
  have hlen : c.states.length + 1 = depth started K + 1 := by
    rw [h.states_eq, length_states]
  have hsized : parser.Sized { c with
      states := 1 :: c.states, values := c.lval :: c.values
      stackSize := parser.grown c, char := none, errStatus := c.errStatus - 1 } :=
    ⟨Nat.zero_lt_of_lt hgrown, hmax, hgrown⟩
  have hshift : tables.decision (waiting started K) 258 = some (.shift 1) := by
    have hall : ∀ p ∈ operandStates, tables.decision p.1 258 = some (.shift 1) := by decide
    exact hall _ (mem_operandStates started K)
  refine Parser.Does.shift h.sized h.room (by rw [h.states_eq, head_states])
    (waiting_ne_final started K) hchar hshift (does_push hsized hlen fun hlt => ?_)
  exact does_operand (s := 1) (r := 11) (v := n) (w := []) hsized (lt_of_eq_of_lt hlen hlt)
    rfl (by exact h.states_eq) (by rw [hlval]; rfl) rfl h.holds (by simp [h.errStatus]) rfl
    ⟨by decide, rfl, rfl, rfl, Nat.one_pos, by decide⟩ rfl hk

/-- The end of a line: the rule of the line is reduced to the list of lines. -/
theorem does_line {s r len : Nat} {v y : BitVec 32} {w : List (BitVec 32)} {ss : List Nat}
    (hsized : parser.Sized c) (hroom : c.states.length < 10000)
    (hstates : c.states = s :: ss) (hdrop : c.states.drop len = [0])
    (htake : (c.values.take len).reverse = v :: w) (hvalues : c.values.drop len = [])
    (herr : c.errStatus = 0) (hchar : c.char = none)
    (hs : s ≠ 11 ∧ tables.pact[s]? = some (-3) ∧ tables.default s = some (.reduce r) ∧
      tables.r2[r]? = some len ∧ 0 < len ∧ tables.goto r 0 = some 6)
    {es : List Output} (hrule : (rule r v (v :: w)).run () = (es, some (y, ()))) {m : Run Result}
    (hm : ∀ c', Waits true [] c' → c'.char = none → c'.input = c.input → parser.Does c' m) :
    parser.Does c (Parser.emit es >>= fun _ => m) := by
  obtain ⟨hgrown, hmax⟩ := hsized.length_lt_grown hroom
  obtain ⟨hfinal, hpact, hdefault, hlen, hpos, hr⟩ := hs
  have hrun : rule r v (v :: w) >>= (fun _ => m) = Parser.emit es >>= fun _ => m := by
    refine Prog.eq_of_run fun _ => ?_
    rw [Prog.run_bind_of_result hrule, Prog.run_bind_of_result (Parser.emit_run es)]
  have hdoes := Parser.Does.default (P := parser) hsized hroom (by rw [hstates]; rfl) hfinal hpact
    hdefault hlen (by rw [htake]; rfl) (by rw [hdrop]; rfl) hr (f := fun _ => m) ?_
  · rw [htake] at hdoes
    rwa [← hrun]
  · intro z es _
    refine hm _ ⟨?_, ⟨z, ?_⟩, herr, ⟨?_, hmax, ?_⟩, ?_⟩ hchar rfl
    · rw [hdrop]
      rfl
    · rw [hvalues]
    · exact Nat.zero_lt_of_lt hgrown
    · rw [List.length_cons, List.length_drop]
      change c.states.length - len + 1 ≤ parser.grown c
      omega
    · rw [List.length_cons, List.length_drop]
      omega

theorem emit_nil_bind (m : Run Result) : (Parser.emit [] >>= fun _ => m) = m :=
  Prog.return_bind () _

/-- An empty line. -/
theorem Waits.newline (h : Waits started [] c) (hchar : c.char = some 263) {m : Run Result}
    (hm : ∀ c', Waits true [] c' → c'.char = none → c'.input = c.input → parser.Does c' m) :
    parser.Does c (push (depth started [] + 1) m) := by
  obtain ⟨hgrown, hmax⟩ := h.sized.length_lt_grown h.room
  have hlen : c.states.length + 1 = depth started [] + 1 := by
    rw [h.states_eq, length_states]
  have hsized (s : Nat) : parser.Sized { c with
      states := s :: c.states, values := c.lval :: c.values
      stackSize := parser.grown c, char := none, errStatus := c.errStatus - 1 } :=
    ⟨Nat.zero_lt_of_lt hgrown, hmax, hgrown⟩
  have hstates := h.states_eq
  have hholds := h.holds
  have hshift {s : Nat} := Parser.Does.shift (t := s) (m := push (depth started [] + 1) m) h.sized
    h.room (by rw [h.states_eq, head_states]) (waiting_ne_final started []) hchar
  rw [← emit_nil_bind m] at hshift ⊢
  cases started with
  | false =>
    refine hshift (s := 4) rfl (does_push (hsized 4) hlen fun hlt => ?_)
    have hvalues : c.values = [] := hholds
    exact does_line (s := 4) (r := 2) (v := c.lval) (y := c.lval) (w := []) (hsized 4)
      (lt_of_eq_of_lt hlen hlt) rfl (by exact hstates) (by rw [hvalues]; rfl) 
      (by exact hvalues) (by simp [h.errStatus]) rfl
      ⟨by decide, rfl, rfl, rfl, by decide, rfl⟩ rfl hm
  | true =>
    refine hshift (s := 12) rfl (does_push (hsized 12) hlen fun hlt => ?_)
    obtain ⟨v, hvalues⟩ := hholds
    exact does_line (s := 12) (r := 5) (v := v) (y := v) (w := [c.lval]) (hsized 12)
      (lt_of_eq_of_lt hlen hlt) rfl (by simp [hstates, states]) (by simp [hvalues])
      (by simp [hvalues]) (by simp [h.errStatus]) rfl
      ⟨by decide, rfl, rfl, rfl, by decide, rfl⟩ rfl hm

/-! ## Tokens after an operand -/

/-- An operator that completes none of the rules begun. -/
theorem Has.operator (h : Has started K x c) {o : Binary}
    (hchar : c.char = some (codeOf (some (.tok (.op (spelling.bin o))))))
    (hK : ∀ f ∈ K.head?, f.yields o = false) {m : Run Result}
    (hm : ∀ c', Waits started (.bin o x :: K) c' → c'.char = none → c'.input = c.input →
      parser.Does c' m) :
    parser.Does c (push (depth started K + 2) m) := by
  obtain ⟨hgrown, hmax⟩ := h.sized.length_lt_grown h.room
  obtain ⟨vs, hvalues, hholds⟩ := h.values_eq
  have hlen : c.states.length + 1 = depth started K + 2 := by
    rw [h.states_eq, List.length_cons, length_states]
  have hsized : parser.Sized { c with
      states := (Pending.bin o x).waiting :: c.states, values := c.lval :: c.values
      stackSize := parser.grown c, char := none, errStatus := c.errStatus - 1 } :=
    ⟨Nat.zero_lt_of_lt hgrown, hmax, hgrown⟩
  have hshift : tables.decision (complete started K)
      (codeOf (some (.tok (.op (spelling.bin o))))) = some (.shift (Pending.bin o x).waiting) := by
    rcases K with _ | ⟨_ | u | ⟨o', y⟩, K⟩
    · cases started <;> cases o <;> rfl
    · cases o <;> rfl
    · have hyields : resolution.pre u o = false := hK _ rfl
      cases u <;> cases o <;> first | rfl | exact absurd hyields (by decide)
    · have hyields : resolution.bin o' o = false := hK _ rfl
      cases o' <;> cases o <;> first | rfl | exact absurd hyields (by decide)
  refine Parser.Does.shift h.sized h.room (by rw [h.states_eq]; rfl)
    (complete_ne_final started K) hchar hshift (does_push hsized hlen fun hlt => ?_)
  refine hm _ ⟨?_, ⟨c.lval, vs, ?_, hholds⟩, ?_, hsized, ?_⟩ rfl rfl
  · rw [h.states_eq]
    rfl
  · rw [hvalues]
  · simp [h.errStatus]
  · exact lt_of_eq_of_lt hlen hlt

/-- The parenthesis that closes the innermost rule. -/
theorem Has.rparen (h : Has started (.paren :: K) x c) (hchar : c.char = some 262)
    {k : List Pending × BitVec 32 → Run Result}
    (hk : ∀ K x c', Has started K x c' → (∀ f ∈ K.head?, f.isProduct = false) →
      c'.char = none → c'.input = c.input → parser.Does c' (k (K, x))) :
    parser.Does c (push (depth started (.paren :: K) + 2)
      (closeWhile Pending.isProduct K x >>= k)) := by
  obtain ⟨hgrown, hmax⟩ := h.sized.length_lt_grown h.room
  obtain ⟨vs, hvalues, v, vs, rfl, hholds⟩ := h.values_eq
  have hlen : c.states.length + 1 = depth started (.paren :: K) + 2 := by
    rw [h.states_eq, List.length_cons, length_states]
  have hsized : parser.Sized { c with
      states := 19 :: c.states, values := c.lval :: c.values
      stackSize := parser.grown c, char := none, errStatus := c.errStatus - 1 } :=
    ⟨Nat.zero_lt_of_lt hgrown, hmax, hgrown⟩
  refine Parser.Does.shift (t := 19) h.sized h.room (by rw [h.states_eq]; rfl)
    (complete_ne_final started (.paren :: K)) hchar rfl (does_push hsized hlen fun hlt => ?_)
  exact does_operand (s := 19) (r := 10) (v := v) (w := [x, c.lval]) hsized
    (lt_of_eq_of_lt hlen hlt) rfl (by simp [h.states_eq, states]) (by simp [hvalues])
    (by simp [hvalues]) hholds (by simp [h.errStatus]) rfl
    ⟨by decide, rfl, rfl, rfl, by decide, by decide⟩ rfl hk

theorem emit_singleton_bind (e : Output) (m : Run Result) :
    (Parser.emit [e] >>= fun _ => m) = (Prog.observe e >>= fun _ => m) := by
  refine Prog.eq_of_run fun _ => ?_
  rw [Prog.run_bind_of_result (Parser.emit_run [e])]
  rfl

/-- The end of a line with an expression. -/
theorem Has.newline (h : Has started [] x c) (hchar : c.char = some 263) {m : Run Result}
    (hm : ∀ c', Waits true [] c' → c'.char = none → c'.input = c.input → parser.Does c' m) :
    parser.Does c (push (depth started [] + 2)
      (Prog.observe (.event (.result x.toInt)) >>= fun _ => m)) := by
  obtain ⟨hgrown, hmax⟩ := h.sized.length_lt_grown h.room
  obtain ⟨vs, hvalues, hholds⟩ := h.values_eq
  have hlen : c.states.length + 1 = depth started [] + 2 := by
    rw [h.states_eq, List.length_cons, length_states]
  have hsized (s : Nat) : parser.Sized { c with
      states := s :: c.states, values := c.lval :: c.values
      stackSize := parser.grown c, char := none, errStatus := c.errStatus - 1 } :=
    ⟨Nat.zero_lt_of_lt hgrown, hmax, hgrown⟩
  have hstates := h.states_eq
  have hshift {s : Nat} {m : Run Result} := Parser.Does.shift (t := s) (m := m) h.sized
    h.room (by rw [h.states_eq]; rfl) (complete_ne_final started []) hchar
  rw [← emit_singleton_bind]
  cases started with
  | false =>
    refine hshift (s := 16) rfl (does_push (hsized 16) hlen fun hlt => ?_)
    have hvs : vs = [] := hholds
    exact does_line (s := 16) (r := 3) (v := x) (y := x) (w := [c.lval]) (hsized 16)
      (lt_of_eq_of_lt hlen hlt) rfl (by simp [hstates, states]) (by simp [hvalues])
      (by simp [hvalues, hvs]) (by simp [h.errStatus]) rfl
      ⟨by decide, rfl, rfl, rfl, by decide, rfl⟩ rfl hm
  | true =>
    refine hshift (s := 20) rfl (does_push (hsized 20) hlen fun hlt => ?_)
    obtain ⟨v, hvs⟩ := hholds
    exact does_line (s := 20) (r := 4) (v := v) (y := v) (w := [x, c.lval]) (hsized 20)
      (lt_of_eq_of_lt hlen hlt) rfl (by simp [hstates, states]) (by simp [hvalues, hvs])
      (by simp [hvalues, hvs]) (by simp [h.errStatus]) rfl
      ⟨by decide, rfl, rfl, rfl, by decide, rfl⟩ rfl hm

/-- The end of the file after a line. -/
theorem Waits.endOfFile (h : Waits true [] c) (hchar : c.char = some 0) :
    parser.Does c (return .accept) := by
  obtain ⟨hgrown, hmax⟩ := h.sized.length_lt_grown h.room
  refine Parser.Does.shift (t := 11) h.sized h.room (by rw [h.states_eq]; rfl) (by decide) hchar
    rfl ?_
  have hlen : c.states.length = 2 := by rw [h.states_eq]; rfl
  have hsized : parser.Sized { c with
      states := 11 :: c.states, values := c.lval :: c.values
      stackSize := parser.grown c, char := none, errStatus := c.errStatus - 1 } :=
    ⟨Nat.zero_lt_of_lt hgrown, hmax, hgrown⟩
  have hroom : c.states.length + 1 < 10000 := by omega
  exact Parser.Does.accept hsized hroom rfl

/-! ## Whole inputs -/

theorem complete_mem (hK : ∀ f ∈ K.head?, f.isOperator = false) :
    complete started K ∈ [7, 13, 9] := by
  rcases K with _ | ⟨_ | u | ⟨o, y⟩, K⟩
  · cases started <;> decide
  · show 9 ∈ [7, 13, 9]
    decide
  · cases hK _ rfl
  · cases hK _ rfl

theorem Pending.waiting_ne (f : Pending) : f.waiting ≠ 6 ∧ f.waiting ≠ 0 := by
  rcases f with _ | u | ⟨o, y⟩
  · decide
  · cases u <;> decide
  · cases o <;> simp [Pending.waiting]

theorem Waits.read (h : Waits started K c) : Waits started K c.read := by
  obtain ⟨hs, hv, -, he⟩ := Parser.read_stacks c
  exact ⟨hs.trans h.states_eq, hv ▸ h.holds, he.trans h.errStatus, h.sized.read, hs ▸ h.room⟩

theorem Has.read (h : Has started K x c) : Has started K x c.read := by
  obtain ⟨hs, hv, -, he⟩ := Parser.read_stacks c
  exact ⟨hs.trans h.states_eq, hv ▸ h.values_eq, he.trans h.errStatus, h.sized.read, hs ▸ h.room⟩

/-- The tokens to come, given to a parser that waits for an operand or has one. -/
def Reads (rest : List (List (Fin 256))) (rs : List Read) : Prop :=
  ∀ started K,
    (∀ c, Waits started K c → c.char = none → c.input = lexemes rs rest →
      parser.Does c (calculate rest rs started K none)) ∧
    ∀ x c, Has started K x c → (∀ f ∈ K.head?, f.isProduct = false) → c.char = none →
      c.input = lexemes rs rest → parser.Does c (calculate rest rs started K (some x))

variable {rest : List (List (Fin 256))} {rs : List Read}

/-- The end of the file where an operand is waited for. -/
theorem Waits.atEnd (h : Waits started K c) (hchar : c.char = some 0) :
    parser.Does c (if K = [] ∧ started = true then return .accept else syntaxError) := by
  split
  · next hif =>
    obtain ⟨rfl, rfl⟩ := hif
    exact h.endOfFile hchar
  · next hif =>
    refine h.error hchar ?_
    cases K with
    | nil =>
      cases started with
      | false => rfl
      | true => exact absurd ⟨rfl, rfl⟩ hif
    | cons f K =>
      have hall : ∀ p ∈ operandStates, p.1 ≠ 6 → tables.decision p.1 0 = some .error := by decide
      exact hall _ f.mem_operandStates f.waiting_ne.1

/-- The end of the file after an operand, or another token that cannot follow it. -/
theorem Has.stop (h : Has started K x c) {t : Option Tok} (hchar : c.char = some (codeOf t))
    (hcode : codeOf t ∈ [258, 261, 266, 0])
    (ht : ∀ s o, t = some (.tok (.op s)) → spelling.asBin s ≠ some o) :
    parser.Does c (closeWhile Pending.isOperator K x >>= fun _ => syntaxError) := by
  refine h.closeWhile_char (t := t) (fun f hf => ⟨hf, fun s o heq hs => absurd hs (ht s o heq)⟩)
    hchar fun K x c' h' hK hchar' _ => ?_
  have hall : ∀ s ∈ [7, 13, 9], ∀ char ∈ [258, 261, 266, 0],
      tables.decision s char = some .error := by decide
  exact h'.error hchar' (hall _ (complete_mem hK) _ hcode)

theorem pact_waiting (started : Bool) (K : List Pending) :
    tables.pact[waiting started K]? ≠ some (-3) := by
  have hall : ∀ p ∈ operandStates, tables.pact[p.1]? ≠ some (-3) := by decide
  exact hall _ (mem_operandStates started K)

/-- A token where an operand is waited for. -/
theorem Waits.token (h : Waits started K c) (hreads : Reads rest rs) {echo : List (List (Fin 256))}
    {t : Tok} (hchar : c.char = none) (hinput : c.input = lexemes ((echo, t) :: rs) rest) :
    parser.Does c (calculate rest ((echo, t) :: rs) started K none) := by
  rw [calculate]
  have hread := h.read
  have hread_eq : c.read = { c with
      char := some t.code, lval := t.val.getD c.lval, input := lexemes rs rest
      output := c.output ++ echo.map .echo } := by
    simp [Config.read, hchar, hinput, lexemes, lexeme]
  have hchar' : c.read.char = some t.code := by rw [hread_eq]
  have hinput' : c.read.input = lexemes rs rest := by rw [hread_eq]
  have hall : ∀ p ∈ operandStates, ∀ char ∈ [259, 262, 264, 265],
      tables.decision p.1 char = some .error := by decide
  have herror : ∀ char ∈ [259, 262, 264, 265], t.code = char →
      parser.Does c.read syntaxError := fun char hmem heq =>
    hread.error (hchar'.trans (congrArg some heq)) (hall _ (mem_operandStates started K) _ hmem)
  refine Parser.Does.read h.sized h.room (by rw [h.states_eq, head_states])
    (waiting_ne_final started K) (pact_waiting started K) (by rw [hread_eq]) ?_
  rcases t with _ | ⟨n⟩ | s | _ | _
  · rw [onToken]
    split
    · next hK =>
      subst hK
      exact hread.newline hchar' fun c' h' hc hi =>
        (hreads true []).1 c' h' hc (hi.trans hinput')
    · next hK =>
      refine hread.error hchar' ?_
      cases K with
      | nil => exact absurd rfl hK
      | cons f K =>
        have hall : ∀ p ∈ operandStates, p.1 ≠ 6 → p.1 ≠ 0 →
            tables.decision p.1 263 = some .error := by decide
        exact hall _ f.mem_operandStates f.waiting_ne.1 f.waiting_ne.2
  · refine hread.number (n := n) hchar' (by rw [hread_eq]; rfl) fun K x c' h' hK hc hi => ?_
    exact (hreads started K).2 x c' h' hK hc (hi.trans hinput')
  · rw [onToken]
    cases hs : spelling.asPre s with
    | none =>
      cases s with
      | plus => exact herror 259 (by decide) rfl
      | minus => cases hs
      | multiply => exact herror 264 (by decide) rfl
      | divide => exact herror 265 (by decide) rfl
      | decrement => cases hs
    | some u =>
      obtain rfl := spelling.asPre_eq_some.mp hs
      have hshift : tables.decision (waiting started K) (Tok.tok (.op (spelling.pre u))).code =
          some (.shift (Pending.pre u).waiting) := by
        have hall : ∀ p ∈ operandStates, tables.decision p.1 260 = some (.shift 2) ∧
            tables.decision p.1 266 = some (.shift 5) := by decide
        obtain ⟨hminus, hdecrement⟩ := hall _ (mem_operandStates started K)
        cases u with
        | minus => exact hminus
        | decrement => exact hdecrement
      exact hread.begin hchar' (.inr ⟨u, rfl⟩) hshift fun c' h' hc hi =>
        (hreads started (.pre u :: K)).1 c' h' hc (hi.trans hinput')
  · have hshift : tables.decision (waiting started K) 261 = some (.shift 3) := by
      have hall : ∀ p ∈ operandStates, tables.decision p.1 261 = some (.shift 3) := by decide
      exact hall _ (mem_operandStates started K)
    refine hread.begin (f := .paren) hchar' (.inl rfl) hshift fun c' h' hc hi => ?_
    exact (hreads started (.paren :: K)).1 c' h' hc (hi.trans hinput')
  · exact herror 262 (by decide) rfl

theorem pact_complete (hK : ∀ f ∈ K.head?, f.isProduct = false) :
    tables.pact[complete started K]? ≠ some (-3) := by
  rcases K with _ | ⟨_ | u | ⟨_ | _ | _ | _, y⟩, K⟩
  · cases started <;> decide
  · show tables.pact[9]? ≠ some (-3)
    decide
  · cases u
    · show tables.pact[8]? ≠ some (-3)
      decide
    · show tables.pact[10]? ≠ some (-3)
      decide
  · show tables.pact[21]? ≠ some (-3)
    decide
  · show tables.pact[22]? ≠ some (-3)
    decide
  · cases hK _ rfl
  · cases hK _ rfl

/-- A token after an operand. -/
theorem Has.token (h : Has started K x c) (hK : ∀ f ∈ K.head?, f.isProduct = false)
    (hreads : Reads rest rs) {echo : List (List (Fin 256))} {t : Tok} (hchar : c.char = none)
    (hinput : c.input = lexemes ((echo, t) :: rs) rest) :
    parser.Does c (calculate rest ((echo, t) :: rs) started K (some x)) := by
  rw [calculate]
  have hread := h.read
  have hread_eq : c.read = { c with
      char := some t.code, lval := t.val.getD c.lval, input := lexemes rs rest
      output := c.output ++ echo.map .echo } := by
    simp [Config.read, hchar, hinput, lexemes, lexeme]
  have hchar' : c.read.char = some (codeOf (some t)) := by rw [hread_eq]; rfl
  have hinput' : c.read.input = lexemes rs rest := by rw [hread_eq]
  refine Parser.Does.read h.sized h.room (by rw [h.states_eq]; rfl)
    (complete_ne_final started K) (pact_complete hK) (by rw [hread_eq]) ?_
  rcases t with _ | ⟨n⟩ | s | _ | _
  · refine hread.closeWhile_char (t := some .newline) (fun f hf => ⟨hf, by simp⟩) hchar'
      fun K x c' h' hK hc hi => ?_
    rcases K with _ | ⟨_ | u | ⟨o, y⟩, K⟩
    · exact h'.newline hc fun c'' h'' hc'' hi'' =>
        (hreads true []).1 c'' h'' hc'' (hi''.trans (hi.trans hinput'))
    · exact h'.error hc rfl
    · cases hK _ rfl
    · cases hK _ rfl
  · exact hread.stop hchar' (by simp [codeOf, Tok.code]) (by simp)
  · rw [onToken]
    cases hs : spelling.asBin s with
    | none =>
      have hdecrement : s = .decrement := by
        cases s <;> first | rfl | cases hs
      subst hdecrement
      exact hread.stop hchar' (by decide) (by rintro s o ⟨⟩; simp [spelling])
    | some o =>
      obtain rfl := spelling.asBin_eq_some.mp hs
      refine hread.closeWhile_char (t := some (.tok (.op (spelling.bin o)))) (fun f hf => ⟨?_, ?_⟩)
        hchar' fun K x c' h' hK hc hi => ?_
      · rcases f with _ | u | ⟨o', y⟩
        · cases hf
        · rfl
        · rfl
      · rintro s o' ⟨⟩ hs'
        rw [hs] at hs'
        cases hs'
        exact hf
      · exact h'.operator hc hK fun c'' h'' hc'' hi'' =>
          (hreads started _).1 c'' h'' hc'' (hi''.trans (hi.trans hinput'))
  · exact hread.stop hchar' (by simp [codeOf, Tok.code]) (by simp)
  · refine hread.closeWhile_char (t := some (.tok .rparen)) (fun f hf => ⟨hf, by simp⟩) hchar'
      fun K x c' h' hK hc hi => ?_
    rcases K with _ | ⟨_ | u | ⟨o, y⟩, K⟩
    · refine h'.error hc ?_
      cases started <;> rfl
    · exact h'.rparen hc fun K x c'' h'' hK'' hc'' hi'' =>
        (hreads started K).2 x c'' h'' hK'' hc'' (hi''.trans (hi.trans hinput'))
    · cases hK _ rfl
    · cases hK _ rfl

/-- The generated parser computes what the calculator without tables does. -/
theorem reads_input (rest : List (List (Fin 256))) (rs : List Read) : Reads rest rs := by
  induction rs with
  | nil =>
    intro started K
    have hread (c : Config (BitVec 32) Output) (hchar : c.char = none)
        (hinput : c.input = lexemes [] rest) :
        c.read.char = some 0 ∧ c.read.output = c.output ++ rest.map .echo := by
      simp [Config.read, hchar, hinput, lexemes]
    refine ⟨fun c h hchar hinput => ?_, fun x c h hK hchar hinput => ?_⟩
    · obtain ⟨hchar', hout⟩ := hread c hchar hinput
      refine Parser.Does.read h.sized h.room (by rw [h.states_eq, head_states])
        (waiting_ne_final started K) (pact_waiting started K) hout ?_
      exact h.read.atEnd hchar'
    · obtain ⟨hchar', hout⟩ := hread c hchar hinput
      refine Parser.Does.read h.sized h.room (by rw [h.states_eq]; rfl)
        (complete_ne_final started K) (pact_complete hK) hout ?_
      exact h.read.stop (t := none) hchar' (by decide) (by simp)
  | cons r rs ih =>
    obtain ⟨echo, t⟩ := r
    exact fun started K =>
      ⟨fun c h hchar hinput => h.token ih hchar hinput,
        fun x c h hK hchar hinput => h.token hK ih hchar hinput⟩

theorem start_waits (v : BitVec 32) (input : List (Lexeme (BitVec 32) Output)) :
    Waits false [] (Parser.start parser v input) :=
  have hsized : parser.Sized (Parser.start parser v input) :=
    ⟨Nat.zero_lt_succ 199, by show 200 ≤ 10000; decide, Nat.succ_pos 199⟩
  have hroom : 1 < 10000 := by decide
  ⟨rfl, rfl, rfl, hsized, hroom⟩

/-- For every sequence of tokens `yyparse` prints what the calculator prints, returns what it
returns, and traps where it does. -/
theorem yyparse_does (v : BitVec 32) (rs : List Read) (rest : List (List (Fin 256))) :
    parser.Does (Parser.start parser v (lexemes rs rest)) (calculate rest rs false [] none) :=
  (reads_input rest rs false []).1 _ (start_waits v _) rfl rfl

end CourseCompilers.Calculator.Parser
