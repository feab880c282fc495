import CourseCompilers.Lib.Machine
import CourseCompilers.Lib.Prog

/-! The parser that `bison` generates: a stack machine driven by compressed tables, with
the actions of the grammar run at the reductions. -/

namespace CourseCompilers.Lib.Bison

/-- The tables of a parser and the numbers its code compares with. -/
structure Tables where
  translate : List Nat
  pact : List Int
  defact : List Nat
  pgoto : List Int
  defgoto : List Int
  table : List Int
  check : List Int
  r1 : List Nat
  r2 : List Nat
  final : Nat
  last : Int
  ntokens : Nat
  pactNinf : Int
  initDepth : Nat
  maxDepth : Nat

/-- An entry; none outside the table. -/
def entry {α : Type} (l : List α) (i : Int) : Option α := if 0 ≤ i then l[i.toNat]? else none

inductive Action where
  | shift (s : Nat)
  | reduce (r : Nat)
  | error
  deriving DecidableEq, Repr

namespace Tables
variable (T : Tables)

/-- `YYTRANSLATE`; 2 is the number of an undefined token. -/
def token (char : Nat) : Nat := if char = 0 then 0 else (T.translate[char]?).getD 2

def default (s : Nat) : Option Action :=
  (T.defact[s]?).map fun r => if r = 0 then .error else .reduce r

/-- What the state does on a token. -/
def action (s tok : Nat) : Option Action := do
  let i := (← T.pact[s]?) + tok
  if i < 0 ∨ T.last < i then T.default s
  else if (← entry T.check i) ≠ tok then T.default s
  else
    let n ← entry T.table i
    return if n ≤ 0 then .reduce (-n).toNat else .shift n.toNat

/-- What the state does with the token in hand, which it need not look at. -/
def decision (s char : Nat) : Option Action := do
  if (← T.pact[s]?) = T.pactNinf then T.default s else T.action s (T.token char)

/-- The state after a reduction that uncovers `s`. -/
def goto (r s : Nat) : Option Nat := do
  let n := (← T.r1[r]?) - T.ntokens
  let i := (← T.pgoto[n]?) + s
  if 0 ≤ i ∧ i ≤ T.last ∧ entry T.check i = some (s : Int) then
    (entry T.table i).map Int.toNat
  else (T.defgoto[n]?).map Int.toNat

/-- The state after the error token, whose number is 1. -/
def errorShift (s : Nat) : Option Nat := do
  let p ← T.pact[s]?
  let i := p + 1
  let n ← entry T.table i
  if p ≠ T.pactNinf ∧ i ≤ T.last ∧ entry T.check i = some 1 ∧ 0 < n then some n.toNat
  else none

end Tables

/-- What a call of `yylex` returns: a token, what it leaves in `yylval`, and what its
actions have printed. -/
structure Lexeme (V E : Type) where
  char : Nat
  val : Option V
  printed : List E

inductive Result where
  | accept
  | abort
  /-- The stack is full. -/
  | exhausted
  /-- An action has crashed. -/
  | trap
  deriving DecidableEq, Repr

structure Answer (E : Type) where
  result : Result
  output : List E
  deriving DecidableEq

/-- The stacks have their top first. -/
structure Config (V E : Type) where
  states : List Nat
  values : List V
  stackSize : Nat
  errStatus : Nat
  /-- `yychar`; none is `YYEMPTY`. -/
  char : Option Nat
  lval : V
  input : List (Lexeme V E)
  output : List E

structure Parser (V E : Type) extends Tables where
  /-- The action of a rule, from the first value of the rule and all of them. -/
  rule : Nat → V → List V → Prog Unit E V
  /-- `yyerror`. -/
  error : String → List E

variable {V E : Type}

/-- The end of the input is read as often as it is asked for. -/
def Config.read (c : Config V E) : Config V E :=
  match c.char with
  | some _ => c
  | none =>
      match c.input with
      | [] => { c with char := some 0 }
      | l :: input =>
          { c with
            char := some l.char, lval := l.val.getD c.lval, input, output := c.output ++ l.printed }

namespace Parser
variable (P : Parser V E)

/-- `yyreduce`, for rules that are not empty. -/
def reduce (r : Nat) (c : Config V E) : Option (Outcome (Config V E) (Answer E)) := do
  let len ← P.r2[r]?
  let args := (c.values.take len).reverse
  let first ← args.head?
  let (es, result) := (P.rule r first args).run ()
  match result with
  | none => return .halt ⟨.trap, c.output ++ es⟩
  | some (v, _) =>
      let states := c.states.drop len
      let s ← P.goto r (← states.head?)
      return .next { c with
        states := s :: states, values := v :: c.values.drop len, output := c.output ++ es }

/-- Pop until a state has a shift of the error token. -/
def recover : List Nat → List V → Option (List Nat × List V)
  | [], _ => none
  | s :: states, values =>
      match P.errorShift s with
      | some n => some (n :: s :: states, values)
      | none => recover states values.tail

/-- `yyerrlab`. -/
def onError (c : Config V E) : Outcome (Config V E) (Answer E) :=
  let output := if c.errStatus = 0 then c.output ++ P.error "syntax error" else c.output
  if c.errStatus = 3 ∧ c.char = some 0 then .halt ⟨.abort, output⟩
  else
    let char := if c.errStatus = 3 then none else c.char
    match P.recover c.states c.values with
    | none => .halt ⟨.abort, output⟩
    | some (states, values) =>
        .next { c with states, values := c.lval :: values, char, output, errStatus := 3 }

def perform (c : Config V E) : Action → Option (Outcome (Config V E) (Answer E))
  | .shift s => some (.next { c with
      states := s :: c.states, values := c.lval :: c.values, char := none,
      errStatus := c.errStatus - 1 })
  | .reduce r => P.reduce r c
  | .error => some (P.onError c)

/-- `yybackup`. -/
def backup (c : Config V E) : Option (Outcome (Config V E) (Answer E)) := do
  let s ← c.states.head?
  if s = P.final then return .halt ⟨.accept, c.output⟩
  else if (← P.pact[s]?) = P.pactNinf then P.perform c (← P.default s)
  else P.perform c.read (← P.action s (P.token (c.read.char.getD 0)))

/-- From `yysetstate` to the next push, the stacks doubled where they are full. -/
def round (c : Config V E) : Option (Outcome (Config V E) (Answer E)) :=
  if c.states.length < c.stackSize then P.backup c
  else if P.maxDepth ≤ c.stackSize then
    some (.halt ⟨.exhausted, c.output ++ P.error "memory exhausted"⟩)
  else
    let c := { c with stackSize := min (2 * c.stackSize) P.maxDepth }
    if c.states.length < c.stackSize then P.backup c else some (.halt ⟨.abort, c.output⟩)

def step (c : Config V E) : Outcome (Config V E) (Answer E) := (P.round c).getD .stuck

/-- `yyparse` at its start. -/
def start (v : V) (input : List (Lexeme V E)) : Config V E :=
  ⟨[0], [], P.initDepth, 0, none, v, input, []⟩

/-! ## Rounds -/

variable {P}

/-- Reading a token leaves the stacks as they are. -/
theorem read_stacks (c : Config V E) :
    c.read.states = c.states ∧ c.read.values = c.values ∧ c.read.stackSize = c.stackSize ∧
      c.read.errStatus = c.errStatus := by
  unfold Config.read
  split
  · exact ⟨rfl, rfl, rfl, rfl⟩
  · split <;> exact ⟨rfl, rfl, rfl, rfl⟩

theorem read_states (c : Config V E) : c.read.states = c.states := (read_stacks c).1

theorem read_stackSize (c : Config V E) : c.read.stackSize = c.stackSize := (read_stacks c).2.2.1

theorem read_read (c : Config V E) : c.read.read = c.read := by
  have hsome : ∃ char, c.read.char = some char := by
    unfold Config.read
    split
    · next char h => exact ⟨char, h⟩
    · split
      · exact ⟨0, rfl⟩
      · exact ⟨_, rfl⟩
  obtain ⟨char, h⟩ := hsome
  rw [Config.read, h]

theorem backup_of_char {c : Config V E} {s char : Nat} {a : Action}
    (hs : c.states.head? = some s) (hfinal : s ≠ P.final) (hchar : c.char = some char)
    (ha : P.decision s char = some a) : P.backup c = P.perform c a := by
  have hread : c.read = c := by simp [Config.read, hchar]
  unfold Tables.decision at ha
  rw [backup, hs, Option.bind_eq_bind, Option.bind_some, if_neg hfinal, hread, hchar]
  cases hp : P.pact[s]? with
  | none => simp [hp] at ha
  | some p =>
    by_cases hninf : p = P.pactNinf
    · simp_all
    · simp_all

/-- A state that reduces whatever the next token is does not read it. -/
theorem backup_of_default {c : Config V E} {s : Nat} {a : Action}
    (hs : c.states.head? = some s) (hfinal : s ≠ P.final) (hp : P.pact[s]? = some P.pactNinf)
    (ha : P.default s = some a) : P.backup c = P.perform c a := by
  simp [backup, hs, hfinal, hp, ha]

theorem backup_final {c : Config V E} (hs : c.states.head? = some P.final) :
    P.backup c = some (.halt ⟨.accept, c.output⟩) := by
  simp [backup, hs]

/-- A state that needs the next token reads it. -/
theorem backup_read {c : Config V E} {s : Nat} (hs : c.states.head? = some s)
    (hfinal : s ≠ P.final) (hp : P.pact[s]? ≠ some P.pactNinf) :
    P.backup c = P.backup c.read := by
  cases hp' : P.pact[s]? with
  | none => simp [backup, hs, read_states, hp', hfinal]
  | some p =>
    have hne : p ≠ P.pactNinf := fun h => hp (h ▸ hp')
    simp [backup, hs, read_states, hp', hne, hfinal, read_read]

/-- The stack fits what is allocated for it, which is no more than it may grow to. -/
structure Sized (P : Parser V E) (c : Config V E) : Prop where
  pos : 0 < c.stackSize
  le_maxDepth : c.stackSize ≤ P.maxDepth
  length_le : c.states.length ≤ c.stackSize

/-- The size of the stack once there is room for one more symbol. -/
def grown (P : Parser V E) (c : Config V E) : Nat :=
  if c.states.length < c.stackSize then c.stackSize else min (2 * c.stackSize) P.maxDepth

theorem Sized.length_lt_grown {c : Config V E} (h : P.Sized c)
    (hlt : c.states.length < P.maxDepth) :
    c.states.length < P.grown c ∧ P.grown c ≤ P.maxDepth := by
  have hle := h.length_le
  have hpos := h.pos
  have hmax := h.le_maxDepth
  unfold grown
  split <;> omega

/-- A round where the stack may still grow. -/
theorem Sized.round_eq {c : Config V E} (h : P.Sized c) (hlt : c.states.length < P.maxDepth) :
    P.round c = P.backup { c with stackSize := P.grown c } := by
  have hgrown := h.length_lt_grown hlt
  have hle := h.length_le
  unfold round grown at *
  split
  · rfl
  · next hfull =>
    rw [if_neg hfull] at hgrown
    rw [if_neg (by omega), if_pos hgrown.1]

theorem Sized.round_exhausted {c : Config V E} (h : P.Sized c)
    (hge : P.maxDepth ≤ c.states.length) :
    P.round c = some (.halt ⟨.exhausted, c.output ++ P.error "memory exhausted"⟩) := by
  have hle := h.length_le
  have hmax := h.le_maxDepth
  rw [round, if_neg (by omega), if_pos (by omega)]

/-- The parser does from `c` on what the program does: it makes its events and ends with
its result, or crashes with it. -/
def Does (P : Parser V E) (c : Config V E) (m : Prog Unit E Result) : Prop :=
  Returns P.step c
    ⟨(m.run ()).2.elim .trap Prod.fst, c.output ++ (m.run ()).1⟩

theorem Does.halt {c : Config V E} {r : Result} {es : List E}
    (h : P.round c = some (.halt ⟨r, c.output ++ es⟩)) {m : Prog Unit E Result}
    (hm : m.run () = (es, some (r, ()))) : P.Does c m := by
  refine ⟨0, Halts.now ?_⟩
  rw [step, h, hm]
  rfl

theorem Does.next {c c' : Config V E} (h : P.round c = some (.next c'))
    (hout : c'.output = c.output) {m : Prog Unit E Result} (hm : P.Does c' m) : P.Does c m := by
  unfold Does at hm ⊢
  rw [hout] at hm
  exact Returns.of_reaches (Reaches.one (by rw [step, h]; rfl)) hm

/-- Output made before the first step. -/
def emit : List E → Prog Unit E Unit
  | [] => return
  | e :: es => do
      Prog.observe e
      emit es

theorem emit_run (es : List E) : (emit es).run () = (es, some ((), ())) := by
  induction es with
  | nil => rfl
  | cons e es ih =>
    have hobserve : (Prog.observe e : Prog Unit E Unit).run () = ([e], some ((), ())) := rfl
    rw [emit, Prog.run_bind_of_result hobserve, ih]
    rfl

theorem read_with_stackSize (c : Config V E) (n : Nat) :
    { c with stackSize := n }.read = { c.read with stackSize := n } := by
  obtain ⟨states, values, stackSize, errStatus, _ | char, lval, _ | ⟨l, input⟩, output⟩ := c <;> rfl

theorem Sized.read {c : Config V E} (h : P.Sized c) : P.Sized c.read where
  pos := by rw [read_stackSize]; exact h.pos
  le_maxDepth := by rw [read_stackSize]; exact h.le_maxDepth
  length_le := by rw [read_stackSize, read_states]; exact h.length_le

/-- The next token is read, and what the scanner prints comes first. -/
theorem Does.read {c : Config V E} {s : Nat} (h : P.Sized c) (hlt : c.states.length < P.maxDepth)
    (hs : c.states.head? = some s) (hfinal : s ≠ P.final)
    (hp : P.pact[s]? ≠ some P.pactNinf) {es : List E} (hout : c.read.output = c.output ++ es)
    {m : Prog Unit E Result} (hm : P.Does c.read m) : P.Does c (emit es >>= fun _ => m) := by
  have hgrown : P.grown c.read = P.grown c := by
    rw [grown, grown, read_states, read_stackSize]
  have hback : P.backup { c with stackSize := P.grown c } =
      P.backup { c.read with stackSize := P.grown c } := by
    rw [← read_with_stackSize]
    exact backup_read hs hfinal hp
  have hstep : P.step c = P.step c.read := by
    rw [step, step, h.round_eq hlt, h.read.round_eq (by rwa [read_states]), hgrown, hback]
  unfold Does at hm ⊢
  rw [Prog.run_bind_of_result (emit_run es), ← List.append_assoc, ← hout]
  obtain ⟨n, t, hr, ht⟩ := hm
  cases hr with
  | refl => exact ⟨0, Halts.now (hstep.trans ht)⟩
  | next hs' hr => exact ⟨_, t, .next (hstep.trans hs') hr, ht⟩

/-- A reduction: its action is run, and its rule replaced by its left side. -/
def reduced (c : Config V E) (m : Prog Unit E V) (len s : Nat) :
    Outcome (Config V E) (Answer E) :=
  match m.run () with
  | (es, none) => .halt ⟨.trap, c.output ++ es⟩
  | (es, some (v, _)) => .next { c with
      states := s :: c.states.drop len, values := v :: c.values.drop len, output := c.output ++ es }

theorem reduce_eq {c : Config V E} {r len s t : Nat} {v : V} (hlen : P.r2[r]? = some len)
    (hfirst : ((c.values.take len).reverse).head? = some v)
    (hs : (c.states.drop len).head? = some s) (hgoto : P.goto r s = some t) :
    P.reduce r c = some (reduced c (P.rule r v (c.values.take len).reverse) len t) := by
  unfold reduce reduced
  rcases hrun : (P.rule r v (c.values.take len).reverse).run () with ⟨es, _ | ⟨w, _⟩⟩
  · simp only [hlen, hfirst, hrun, Option.bind_eq_bind, Option.bind_some]
    rfl
  · simp only [hlen, hfirst, hrun, hs, hgoto, Option.bind_eq_bind, Option.bind_some]
    rfl

theorem Does.reduce {c c' : Config V E} {m : Prog Unit E V} {f : V → Prog Unit E Result}
    {len s : Nat} (hround : P.round c = some (reduced c' m len s)) (hout : c'.output = c.output)
    (hdoes : ∀ v es, m.run () = (es, some (v, ())) →
      P.Does { c' with
        states := s :: c'.states.drop len, values := v :: c'.values.drop len
        output := c.output ++ es } (f v)) :
    P.Does c (m >>= f) := by
  unfold Does
  rcases hm : m.run () with ⟨es, _ | ⟨v, _⟩⟩
  · rw [Prog.run_bind_of_crash hm]
    exact ⟨0, Halts.now (by rw [step, hround, reduced, hm, hout]; rfl)⟩
  · have hnext := hdoes v es hm
    unfold Does at hnext
    rw [List.append_assoc] at hnext
    rw [Prog.run_bind_of_result hm]
    exact Returns.of_reaches
      (Reaches.one (by rw [step, hround, reduced, hm, hout]; rfl)) hnext

/-- A reduction that needs no token. -/
theorem Does.default {c : Config V E} {s r len t u : Nat} {v : V} (h : P.Sized c)
    (hroom : c.states.length < P.maxDepth) (hs : c.states.head? = some s) (hfinal : s ≠ P.final)
    (hp : P.pact[s]? = some P.pactNinf) (ha : P.default s = some (.reduce r))
    (hlen : P.r2[r]? = some len) (hfirst : ((c.values.take len).reverse).head? = some v)
    (ht : (c.states.drop len).head? = some t) (hgoto : P.goto r t = some u)
    {f : V → Prog Unit E Result}
    (hdoes : ∀ v' es, (P.rule r v (c.values.take len).reverse).run () = (es, some (v', ())) →
      P.Does { c with
        states := u :: c.states.drop len, values := v' :: c.values.drop len
        stackSize := P.grown c, output := c.output ++ es } (f v')) :
    P.Does c (P.rule r v (c.values.take len).reverse >>= f) := by
  have hreduce := reduce_eq (c := { c with stackSize := P.grown c }) hlen hfirst ht hgoto
  have hback := backup_of_default (c := { c with stackSize := P.grown c }) hs hfinal hp ha
  exact Does.reduce ((h.round_eq hroom).trans (hback.trans hreduce)) rfl hdoes

/-- A shift, and what the next round finds of the stack. -/
theorem Does.shift {c : Config V E} {s t char : Nat} (h : P.Sized c)
    (hroom : c.states.length < P.maxDepth) (hs : c.states.head? = some s) (hfinal : s ≠ P.final)
    (hchar : c.char = some char) (ha : P.decision s char = some (.shift t))
    {m : Prog Unit E Result}
    (hdoes : P.Does { c with
        states := t :: c.states, values := c.lval :: c.values, stackSize := P.grown c, char := none
        errStatus := c.errStatus - 1 } m) :
    P.Does c m :=
  Does.next ((h.round_eq hroom).trans
    (backup_of_char (c := { c with stackSize := P.grown c }) hs hfinal hchar ha)) rfl hdoes

theorem Does.accept {c : Config V E} (h : P.Sized c) (hroom : c.states.length < P.maxDepth)
    (hs : c.states.head? = some P.final) : P.Does c (pure .accept) := by
  refine Does.halt ?_ rfl
  rw [h.round_eq hroom, backup_final (by exact hs), List.append_nil]

theorem recover_eq_none {states : List Nat} (h : ∀ s ∈ states, P.errorShift s = none)
    (values : List V) : P.recover states values = none := by
  induction states generalizing values with
  | nil => rfl
  | cons s states ih =>
    obtain ⟨hs, h⟩ := List.forall_mem_cons.mp h
    rw [recover, hs]
    exact ih h values.tail

/-- A syntax error where no rule has the error token. -/
theorem Does.error {c : Config V E} {s char : Nat} (h : P.Sized c)
    (hroom : c.states.length < P.maxDepth) (hs : c.states.head? = some s) (hfinal : s ≠ P.final)
    (hchar : c.char = some char) (ha : P.decision s char = some .error)
    (herr : c.errStatus = 0) (hrecover : ∀ s ∈ c.states, P.errorShift s = none)
    {m : Prog Unit E Result} (hm : m.run () = (P.error "syntax error", some (.abort, ()))) :
    P.Does c m := by
  refine Does.halt ((h.round_eq hroom).trans
    ((backup_of_char (c := { c with stackSize := P.grown c }) hs hfinal hchar ha).trans ?_)) hm
  simp [perform, onError, herr, recover_eq_none hrecover]

end Parser
end CourseCompilers.Lib.Bison
