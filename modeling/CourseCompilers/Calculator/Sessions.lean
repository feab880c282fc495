import CourseCompilers.Calculator.Parser

/-! The lines that the generated parser of the calculator accepts, and what it prints for
them. -/

namespace CourseCompilers.Calculator.Parser
open Lib Lib.Bison Lib.Precedence Expressions

/-! ## Trees for values -/

abbrev Begun := Frame Binary Unary (BitVec 32)

def evaluate (e : Expr) : Run (BitVec 32) := (eval e).relabel .event

def pending : Begun → Run Pending
  | .paren => return .paren
  | .pre u => return .pre u
  | .bin o l => evaluate l >>= fun x => return .bin o x

/-- The rules begun in the order of the text. -/
def evalStack : List Begun → Run (List Pending)
  | [] => return []
  | f :: K => evalStack K >>= fun K => pending f >>= fun f => return f :: K

/-- What has been read is evaluated, the products at its end too. -/
def enter (s : State Binary Unary (BitVec 32))
    (k : List Pending → Option (BitVec 32) → Run Result) : Run Result :=
  evalStack s.stack >>= fun K =>
    match s.operand with
    | none => k K none
    | some e => evaluate e >>= fun x =>
        closeWhile Pending.isProduct K x >>= fun r => k r.1 (some r.2)

/-- The same rules, by their operators. -/
structure Matches (p : Begun → Bool) (q : Pending → Bool) : Prop where
  paren : q .paren = p .paren
  pre : ∀ u, q (.pre u) = p (.pre u)
  bin : ∀ o l x, q (.bin o x) = p (.bin o l)

theorem matches_isOperator : Matches Frame.isOperator Pending.isOperator where
  paren := rfl
  pre _ := rfl
  bin _ _ _ := rfl

theorem matches_yields (o : Binary) : Matches (resolution.yields o) (Pending.yields o) where
  paren := rfl
  pre _ := rfl
  bin _ _ _ := rfl

theorem evaluate_close (f : Begun) (e : Expr) :
    evaluate (f.close e) =
      pending f >>= fun f => evaluate e >>= fun x => f.close x := by
  cases f with
  | paren =>
    rw [pending, Prog.return_bind]
    refine Prog.eq_of_run fun s => ?_
    rcases hrun : (evaluate e).run s with ⟨es, _ | ⟨x, t⟩⟩
    · rw [Prog.run_bind_of_crash hrun]
      exact hrun
    · rw [Prog.run_bind_of_result hrun]
      exact hrun.trans (Prod.ext (List.append_nil es).symm rfl)
  | pre u =>
    rw [pending, Prog.return_bind]
    exact Prog.relabel_bind ..
  | bin o l =>
    rw [pending, Prog.bind_bind]
    simp only [Prog.return_bind]
    refine (Prog.relabel_bind ..).trans ?_
    congr 1
    funext x
    exact Prog.relabel_bind ..

/-- Rules closed after the evaluation of an operand are closed in the tree. -/
theorem evalStack_closeWhile {p : Begun → Bool} {q : Pending → Bool} (h : Matches p q)
    (K : List Begun) (e : Expr) {α : Type} (k : List Pending × BitVec 32 → Run α) :
    (evalStack K >>= fun K' => evaluate e >>= fun x => closeWhile q K' x >>= k) =
      evalStack (reduceWhile p K e).1 >>= fun K' =>
        evaluate (reduceWhile p K e).2 >>= fun x => k (K', x) := by
  induction K generalizing e with
  | nil => simp only [evalStack, reduceWhile, closeWhile, Prog.return_bind]
  | cons f K ih =>
    have hq : ∀ s, (pending f).Leaves s fun f' _ => q f' = p f := by
      intro s
      cases f with
      | paren => exact Prog.Leaves.pure h.paren
      | pre u => exact Prog.Leaves.pure (h.pre u)
      | bin o l =>
        refine Prog.Leaves.bind (Q := fun _ _ => True) (fun _ _ _ _ => trivial) fun x t _ => ?_
        exact Prog.Leaves.pure (h.bin o l x)
    rw [evalStack, reduceWhile, Prog.bind_bind]
    simp only [Prog.bind_bind, Prog.return_bind, closeWhile]
    by_cases hf : p f = true
    · rw [if_pos hf, ← ih]
      congr 1
      funext K'
      rw [evaluate_close, Prog.bind_bind]
      refine Prog.bind_congr hq fun f' hf' => ?_
      rw [Prog.bind_bind]
      congr 1
      funext x
      rw [if_pos (hf'.trans hf), Prog.bind_bind]
    · rw [if_neg hf, evalStack, Prog.bind_bind]
      congr 1
      funext K'
      rw [Prog.bind_bind]
      refine Prog.bind_congr hq fun f' hf' => ?_
      rw [Prog.return_bind]
      congr 1
      funext x
      rw [if_neg (by rwa [hf']), Prog.return_bind]

/-- Rules closed early are closed anyway. -/
theorem closeWhile_closeWhile {p q : Pending → Bool} (h : ∀ f, p f = true → q f = true)
    (K : List Pending) (x : BitVec 32) {α : Type} (k : List Pending × BitVec 32 → Run α) :
    (closeWhile p K x >>= fun r => closeWhile q r.1 r.2 >>= k) = closeWhile q K x >>= k := by
  induction K generalizing x with
  | nil => simp only [closeWhile, Prog.return_bind]
  | cons f K ih =>
    by_cases hf : p f = true
    · rw [closeWhile, if_pos hf, closeWhile, if_pos (h f hf), Prog.bind_bind, Prog.bind_bind]
      congr 1
      funext z
      exact ih z
    · rw [closeWhile, if_neg hf, Prog.return_bind]

/-! ## The depth of the stack -/

def breadth : List Begun → Nat
  | [] => 0
  | .paren :: K | .pre _ :: K => breadth K + 1
  | .bin _ _ :: K => breadth K + 2

theorem evalStack_leaves (started : Bool) (K : List Begun) :
    ∀ s, (evalStack K).Leaves s fun K' _ =>
      depth started K' = (if started then 2 else 1) + breadth K := by
  induction K with
  | nil => exact fun s => Prog.Leaves.pure rfl
  | cons f K ih =>
    intro s
    have hf : ∀ t, (pending f).Leaves t fun f' _ => breadth (f :: K) = f'.width + breadth K := by
      intro t
      cases f with
      | paren | pre u => exact Prog.Leaves.pure (Nat.add_comm ..)
      | bin o l =>
        refine Prog.Leaves.bind (Q := fun _ _ => True) (fun _ _ _ _ => trivial) fun x t _ => ?_
        exact Prog.Leaves.pure (Nat.add_comm ..)
    refine (ih s).bind fun K' t hK => (hf t).bind fun f' u hf' => Prog.Leaves.pure ?_
    rw [depth_cons, hK, hf']
    omega

theorem breadth_reduceWhile (p : Begun → Bool) (K : List Begun) (e : Expr) :
    breadth (reduceWhile p K e).1 ≤ breadth K := by
  refine reduceWhile_induction (Q := fun K' _ => breadth K' ≤ breadth K) ?_ le_rfl
  intro f K' e' _ h
  cases f <;> simp only [breadth] at h <;> omega

/-- The states on the stack above the line. -/
def size (s : State Binary Unary (BitVec 32)) : Nat :=
  breadth s.stack + if s.operand.isSome then 1 else 0

theorem size_step {s s' : State Binary Unary (BitVec 32)} {t : Token Symbol (BitVec 32)}
    (h : step spelling resolution s t = some s') : size s' ≤ size s + 1 := by
  unfold step at h
  split at h
  · cases h
    simp [size]
  · cases h
    simp [size, breadth]
  · next K c =>
    obtain ⟨u, -, rfl⟩ := Option.map_eq_some_iff.mp h
    simp [size, breadth]
  · next K e c =>
    obtain ⟨o, -, rfl⟩ := Option.map_eq_some_iff.mp h
    have hle := breadth_reduceWhile (resolution.yields o) K e
    simp [size, breadth]
    omega
  · next K e =>
    have hle := breadth_reduceWhile Frame.isOperator K e
    split at h
    · next K' e' hr =>
      cases h
      rw [hr] at hle
      simp [size, breadth] at hle ⊢
      omega
    · cases h
  · cases h

theorem push_eq {size : Nat} (h : size < 10000) (m : Run Result) : push size m = m := if_pos h

/-- Where the stack has room, a push changes nothing. -/
theorem evalStack_push {started : Bool} {K : List Begun} {n : Nat}
    (h : breadth K + n ≤ 9997) (m : List Pending → Run Result) :
    (evalStack K >>= fun K' => push (depth started K' + n) (m K')) = evalStack K >>= m := by
  refine Prog.bind_congr (evalStack_leaves started K) fun K' hK' => push_eq ?_ _
  rw [hK']
  split <;> omega

/-! ## One token -/

/-- The parser does not return 0. -/
def NeverAccepts (m : Run Result) : Prop := m.Leaves () fun r _ => r ≠ .accept

theorem neverAccepts_bind {α : Type} (m : Run α) {f : α → Run Result}
    (h : ∀ a, NeverAccepts (f a)) : NeverAccepts (m >>= f) :=
  Prog.Leaves.bind (m := m) (Q := fun _ _ => True) (fun _ _ _ _ => trivial) fun a _ _ => h a

theorem neverAccepts_syntaxError : NeverAccepts syntaxError := by
  rintro _ _ _ ⟨⟩
  decide

variable {s s' : State Binary Unary (BitVec 32)} {t : Token Symbol (BitVec 32)} {started : Bool}
  {go : Bool → List Pending → Option (BitVec 32) → Run Result}

/-- An operand that the token reads is evaluated, all rules that the token closes with it. -/
theorem enter_operand {p : Begun → Bool} {q : Pending → Bool} (h : Matches p q)
    (hq : ∀ f, f.isProduct = true → q f = true) (K : List Begun) (e : Expr)
    (k : List Pending × BitVec 32 → Run Result)
    {m : List Pending → Option (BitVec 32) → Run Result}
    (hm : ∀ K x, m K (some x) = closeWhile q K x >>= k) :
    enter ⟨K, some e⟩ m =
      evalStack (reduceWhile p K e).1 >>= fun K' =>
        evaluate (reduceWhile p K e).2 >>= fun x => k (K', x) := by
  rw [← evalStack_closeWhile h]
  unfold enter
  simp only [hm, closeWhile_closeWhile hq]

theorem isOperator_of_isProduct (f : Pending) (h : f.isProduct = true) : f.isOperator = true := by
  rcases f with _ | u | ⟨o, x⟩
  · cases h
  · rfl
  · rfl

/-- Every operator closes a product. -/
theorem yields_of_isProduct (o : Binary) (f : Pending) (h : f.isProduct = true) :
    f.yields o = true := by
  rcases f with _ | u | ⟨_ | _ | _ | _, x⟩
  · cases h
  · cases h
  · cases h
  · cases h
  · cases o <;> rfl
  · cases o <;> rfl

theorem enter_operator {K : List Begun} {e : Expr} {o : Binary} (hsize : breadth K + 2 ≤ 9997) :
    enter ⟨K, some e⟩ (fun K o' => onToken go started K o' (.tok (.op (spelling.bin o)))) =
      enter ⟨.bin o (reduceWhile (resolution.yields o) K e).2 ::
        (reduceWhile (resolution.yields o) K e).1, none⟩ (go started) := by
  have hle := breadth_reduceWhile (resolution.yields o) K e
  have hbin : spelling.asBin (spelling.bin o) = some o := spelling.asBin_eq_some.mpr rfl
  rw [enter_operand (matches_yields o) (yields_of_isProduct o) K e
    (fun r => push (depth started r.1 + 2) (go started (.bin o r.2 :: r.1) none)) fun K x => by
      rw [onToken, hbin]]
  unfold enter
  simp only [evalStack, pending, Prog.bind_bind, Prog.return_bind]
  refine Prog.bind_congr (evalStack_leaves started _) fun K' hK' => ?_
  have hdepth : depth started K' + 2 < 10000 := by
    rw [hK']
    split <;> omega
  simp only [push_eq hdepth]

theorem enter_rparen {K K' : List Begun} {e e' : Expr}
    (hr : reduceWhile Frame.isOperator K e = (.paren :: K', e')) (hsize : breadth K + 2 ≤ 9997) :
    enter ⟨K, some e⟩ (fun K o => onToken go started K o (.tok .rparen)) =
      enter ⟨K', some (.paren e')⟩ (go started) := by
  have hle := breadth_reduceWhile Frame.isOperator K e
  rw [hr] at hle
  rw [enter_operand matches_isOperator isOperator_of_isProduct K e _ fun K x => rfl, hr]
  simp only [evalStack, pending, Prog.bind_bind, Prog.return_bind]
  refine Prog.bind_congr (evalStack_leaves started _) fun K'' hK'' => ?_
  have hdepth : depth started (.paren :: K'') + 2 < 10000 := by
    simp only [breadth] at hle
    rw [depth_cons, hK'', Pending.width]
    split <;> omega
  simp only [push_eq hdepth]
  rfl

/-- A token that continues the line. -/
theorem enter_step (h : step spelling resolution s t = some s') (hsize : size s + 1 ≤ 9997) :
    enter s (fun K o => onToken go started K o (.tok t)) = enter s' (go started) := by
  unfold step at h
  split at h
  · next K n =>
    cases h
    have hsize : breadth K + 1 ≤ 9997 := hsize
    exact evalStack_push hsize fun K' => closeWhile Pending.isProduct K' n >>= fun r =>
      go started r.1 (some r.2)
  · next K =>
    cases h
    have hsize : breadth K + 1 ≤ 9997 := hsize
    refine (evalStack_push hsize fun K' => go started (.paren :: K') none).trans ?_
    simp only [enter, evalStack, pending, Prog.bind_bind, Prog.return_bind]
  · next K c =>
    obtain ⟨u, hu, rfl⟩ := Option.map_eq_some_iff.mp h
    have hsize : breadth K + 1 ≤ 9997 := hsize
    have hstep : enter ⟨K, none⟩ (fun K o => onToken go started K o (.tok (.op c))) =
        evalStack K >>= fun K' => push (depth started K' + 1) (go started (.pre u :: K') none) := by
      simp only [enter, onToken, hu]
    rw [hstep, evalStack_push hsize]
    simp only [enter, evalStack, pending, Prog.bind_bind, Prog.return_bind]
  · next K e c =>
    obtain ⟨o, ho, rfl⟩ := Option.map_eq_some_iff.mp h
    obtain rfl := spelling.asBin_eq_some.mp ho
    exact enter_operator hsize
  · next K e =>
    split at h
    · next K' e' hr =>
      cases h
      exact enter_rparen hr hsize
    · cases h
  · cases h

/-- Only a parenthesis is left begun where all operators are closed. -/
theorem eq_paren {K K' : List Begun} {e e' : Expr} {f : Begun}
    (hr : reduceWhile Frame.isOperator K e = (f :: K', e')) : f = .paren := by
  have hhead := reduceWhile_head (p := Frame.isOperator) (K := K) (e := e)
  rw [hr] at hhead
  have hf : f.isOperator = false := hhead f rfl
  cases f with
  | paren => rfl
  | pre u => cases hf
  | bin o l => cases hf

/-- A token that the line cannot continue with. -/
theorem enter_error (h : step spelling resolution s t = none) :
    NeverAccepts (enter s fun K o => onToken go started K o (.tok t)) := by
  obtain ⟨K, _ | e⟩ := s
  · refine neverAccepts_bind _ fun K' => ?_
    cases t with
    | atom n => cases h
    | lparen => cases h
    | rparen => exact neverAccepts_syntaxError
    | op c =>
      have hu : spelling.asPre c = none := Option.map_eq_none_iff.mp h
      simp only [onToken, hu]
      exact neverAccepts_syntaxError
  · cases t with
    | atom n | lparen =>
      exact neverAccepts_bind _ fun K' => neverAccepts_bind _ fun x => neverAccepts_bind _ fun r =>
        neverAccepts_bind _ fun _ => neverAccepts_syntaxError
    | op c =>
      have ho : spelling.asBin c = none := Option.map_eq_none_iff.mp h
      refine neverAccepts_bind _ fun K' => neverAccepts_bind _ fun x =>
        neverAccepts_bind _ fun r => ?_
      simp only [onToken, ho]
      exact neverAccepts_bind _ fun _ => neverAccepts_syntaxError
    | rparen =>
      rw [enter_operand matches_isOperator isOperator_of_isProduct K e _ fun K x => rfl]
      rcases hr : reduceWhile Frame.isOperator K e with ⟨_ | ⟨f, K'⟩, e'⟩
      · simp only [evalStack, Prog.return_bind]
        exact neverAccepts_bind _ fun x => neverAccepts_syntaxError
      · obtain rfl := eq_paren hr
        simp [step, hr] at h

/-- The end of a line with an expression. -/
theorem enter_newline {e : Expr} (h : finish s = some e) :
    enter s (fun K o => onToken go started K o .newline) =
      (line e).relabel .event >>= fun _ => go true [] none := by
  obtain ⟨K, _ | e'⟩ := s
  · cases h
  · rw [enter_operand matches_isOperator isOperator_of_isProduct K e' _ fun K x => rfl]
    rcases hr : reduceWhile Frame.isOperator K e' with ⟨_ | ⟨f, K'⟩, e''⟩
    · simp only [finish, hr, Option.some.injEq] at h
      subst h
      have hpush : depth started [] + 2 < 10000 := by
        cases started <;> decide
      simp only [evalStack, Prog.return_bind, push_eq hpush]
      rw [line, Prog.relabel_bind, Prog.bind_bind]
      rfl
    · simp [finish, hr] at h

theorem enter_newline_error (h : finish s = none) (hs : s ≠ .initial) :
    NeverAccepts (enter s fun K o => onToken go started K o .newline) := by
  obtain ⟨K, _ | e'⟩ := s
  · cases K with
    | nil => exact absurd rfl hs
    | cons f K =>
      simp only [enter, evalStack, Prog.bind_bind, Prog.return_bind]
      exact neverAccepts_bind _ fun K' => neverAccepts_bind _ fun f' => neverAccepts_syntaxError
  · rw [enter_operand matches_isOperator isOperator_of_isProduct K e' _ fun K x => rfl]
    rcases hr : reduceWhile Frame.isOperator K e' with ⟨_ | ⟨f, K'⟩, e''⟩
    · simp [finish, hr] at h
    · obtain rfl := eq_paren hr
      simp only [evalStack, pending, Prog.bind_bind, Prog.return_bind]
      exact neverAccepts_bind _ fun K'' => neverAccepts_bind _ fun x => neverAccepts_syntaxError

/-- The end of the file. -/
theorem enter_end (hs : s = .initial → started = false) :
    NeverAccepts (enter s (onEnd started)) := by
  obtain ⟨K, _ | e⟩ := s
  · cases K with
    | nil =>
      rw [hs rfl]
      exact neverAccepts_syntaxError
    | cons f K =>
      simp only [enter, evalStack, Prog.bind_bind, Prog.return_bind]
      exact neverAccepts_bind _ fun K' => neverAccepts_bind _ fun f' => neverAccepts_syntaxError
  · exact neverAccepts_bind _ fun K' => neverAccepts_bind _ fun x => neverAccepts_bind _ fun r =>
      neverAccepts_bind _ fun _ => neverAccepts_syntaxError

/-! ## Whole lines -/

/-- The tokens without what the scanner copies. -/
def silent (t : Tok) : Read := ([], t)

theorem calculate_cons (t : Tok) (ts : List Tok) (started : Bool) (K : List Pending)
    (o : Option (BitVec 32)) :
    calculate [] ((t :: ts).map silent) started K o =
      onToken (calculate [] (ts.map silent)) started K o t := by
  exact Prog.return_bind ..

theorem enter_run {l : Text} {rest : List Tok} (h : run spelling resolution s l = some s')
    (hsize : size s + l.length ≤ 9997) :
    enter s (calculate [] ((l.map Tok.tok ++ rest).map silent) started) =
      enter s' (calculate [] (rest.map silent) started) := by
  induction l generalizing s with
  | nil =>
    cases h
    rfl
  | cons t l ih =>
    obtain ⟨s₁, hs, hr⟩ := Option.bind_eq_some_iff.mp h
    have hle := size_step hs
    rw [List.length_cons] at hsize
    rw [← ih hr (by omega), ← enter_step hs (by omega)]
    congr 1

theorem enter_run_error {l : Text} {rest : List Tok} (h : run spelling resolution s l = none)
    (hsize : size s + l.length ≤ 9997) :
    NeverAccepts (enter s (calculate [] ((l.map Tok.tok ++ rest).map silent) started)) := by
  induction l generalizing s with
  | nil => cases h
  | cons t l ih =>
    have hcons : calculate [] (((t :: l).map Tok.tok ++ rest).map silent) started =
        fun K o => onToken (calculate [] ((l.map Tok.tok ++ rest).map silent)) started K o
          (.tok t) := by
      funext K o
      exact calculate_cons ..
    rw [hcons]
    cases hs : step spelling resolution s t with
    | none => exact enter_error hs
    | some s₁ =>
      have hle := size_step hs
      rw [List.length_cons] at hsize
      rw [run_cons, hs, Option.bind_some] at h
      rw [enter_step hs (by omega)]
      exact ih h (by omega)

/-- A line is blank or an expression. -/
def lineOf (l : Text) : Option (Option Expr) :=
  if l = [] then some none else (parseExpr l).map some

theorem run_ne_initial {l : Text} (h : run spelling resolution s l = some s') (hl : l ≠ []) :
    s' ≠ .initial := by
  rintro rfl
  have htokens := (run_tokens_eq h).symm
  exact hl (List.append_eq_nil_iff.mp htokens).2

/-! ## Whole inputs -/

theorem enter_initial (m : List Pending → Option (BitVec 32) → Run Result) :
    enter .initial m = m [] none := Prog.return_bind ..

theorem enter_line {l : Text} {o : Option Expr} {rest : List Tok} (h : lineOf l = some o)
    (hlen : l.length ≤ 9997) :
    calculate [] ((l.map Tok.tok ++ .newline :: rest).map silent) started [] none =
      (session [o]).relabel .event >>= fun _ => calculate [] (rest.map silent) true [] none := by
  rw [← enter_initial (calculate [] ((l.map Tok.tok ++ .newline :: rest).map silent) started)]
  have hline (s' : State Binary Unary (BitVec 32)) :
      enter s' (calculate [] ((Tok.newline :: rest).map silent) started) =
        enter s' fun K o => onToken (calculate [] (rest.map silent)) started K o .newline := by
    congr 1
  unfold lineOf at h
  split at h
  · next hl =>
    cases h
    subst hl
    rw [List.map_nil, List.nil_append, hline, enter_initial, onToken, if_pos rfl, push_eq]
    · exact (Prog.return_bind ..).symm
    · cases started <;> decide
  · next hl =>
    obtain ⟨e, he, rfl⟩ := Option.map_eq_some_iff.mp h
    obtain ⟨s', hr, hf⟩ := Option.bind_eq_some_iff.mp he
    have hsize : size .initial + l.length ≤ 9997 := by
      simpa [size, State.initial, breadth] using hlen
    rw [enter_run hr hsize, hline, enter_newline hf, session, session, Prog.bind_return]

theorem enter_line_error {l : Text} {rest : List Tok} (h : lineOf l = none)
    (hlen : l.length ≤ 9997) :
    NeverAccepts
      (calculate [] ((l.map Tok.tok ++ .newline :: rest).map silent) started [] none) := by
  rw [← enter_initial (calculate [] ((l.map Tok.tok ++ .newline :: rest).map silent) started)]
  have hsize : size .initial + l.length ≤ 9997 := by
    simpa [size, State.initial, breadth] using hlen
  unfold lineOf at h
  split at h
  · cases h
  · next hl =>
    have hparse := Option.map_eq_none_iff.mp h
    cases hr : run spelling resolution .initial l with
    | none => exact enter_run_error hr hsize
    | some s' =>
      rw [enter_run hr hsize]
      rw [parseExpr, parse, hr, Option.bind_some] at hparse
      have hline : calculate [] ((Tok.newline :: rest).map silent) started =
          fun K o => onToken (calculate [] (rest.map silent)) started K o .newline := by
        funext K o
        exact calculate_cons ..
      rw [hline]
      exact enter_newline_error hparse (run_ne_initial hr hl)

/-- Lines with their ends. -/
def typed (ls : List Text) : List Tok := ls.flatMap fun l => l.map Tok.tok ++ [.newline]

theorem typed_cons (l : Text) (ls : List Text) (rest : List Tok) :
    typed (l :: ls) ++ rest = l.map Tok.tok ++ .newline :: (typed ls ++ rest) := by
  simp [typed]

theorem calculate_session {ls : List Text} {es : List (Option Expr)}
    (h : ls.mapM lineOf = some es) (hls : ∀ l ∈ ls, l.length ≤ 9997)
    (hne : ls = [] → started = true) :
    calculate [] ((typed ls).map silent) started [] none =
      (session es).relabel .event >>= fun _ => return .accept := by
  induction ls generalizing es started with
  | nil =>
    cases h
    rw [hne rfl]
    exact Prog.return_bind ..
  | cons l ls ih =>
    rw [List.mapM_cons] at h
    obtain ⟨o, ho, h⟩ := Option.bind_eq_some_iff.mp h
    obtain ⟨es, hes, h⟩ := Option.bind_eq_some_iff.mp h
    cases h
    rw [List.forall_mem_cons] at hls
    have htyped := typed_cons l ls []
    rw [List.append_nil, List.append_nil] at htyped
    rw [htyped, enter_line ho hls.1, ih hes hls.2 fun _ => rfl, ← Prog.bind_bind,
      ← Prog.relabel_bind]
    congr 2
    cases o with
    | none => exact Prog.return_bind ..
    | some e => rw [session, session, session, Prog.bind_return]

/-- Any other input is not accepted. -/
theorem calculate_error {ls : List Text} {tail : Text} (hls : ∀ l ∈ ls, l.length ≤ 9997)
    (htail : tail.length ≤ 9997) (h : tail = [] → ls.mapM lineOf = none) :
    NeverAccepts (calculate [] ((typed ls ++ tail.map Tok.tok).map silent) started [] none) := by
  induction ls generalizing started with
  | nil =>
    have hne : tail ≠ [] := fun heq => by cases h heq
    have hsize : size .initial + tail.length ≤ 9997 := by
      simpa [size, State.initial, breadth] using htail
    rw [← enter_initial (calculate [] ((typed [] ++ tail.map Tok.tok).map silent) started),
      show typed [] ++ tail.map Tok.tok = tail.map Tok.tok ++ [] from (List.append_nil _).symm]
    cases hr : run spelling resolution .initial tail with
    | none => exact enter_run_error hr hsize
    | some s' =>
      rw [enter_run hr hsize]
      have hend : calculate [] (([] : List Tok).map silent) started = onEnd started := by
        funext K o
        exact Prog.return_bind ..
      rw [hend]
      exact enter_end fun heq => absurd heq (run_ne_initial hr hne)
  | cons l ls ih =>
    rw [List.forall_mem_cons] at hls
    rw [typed_cons]
    cases ho : lineOf l with
    | none => exact enter_line_error ho hls.1
    | some o =>
      rw [enter_line ho hls.1]
      refine neverAccepts_bind _ fun _ => ih hls.2 fun heq => ?_
      have hnone := h heq
      rw [List.mapM_cons, ho] at hnone
      cases hm : ls.mapM lineOf with
      | none => rfl
      | some es => simp [hm] at hnone

/-! ## What the scanner copies -/

/-- What the actions of the grammar do. -/
def Output.asEvent : Output → Option Event
  | .event e => some e
  | _ => none

theorem emit_seen (echo : List (List (Fin 256))) :
    (Parser.emit (echo.map Output.echo)).seen Output.asEvent = return () := by
  induction echo with
  | nil => rfl
  | cons w echo ih =>
    rw [List.map_cons, Parser.emit, Prog.seen_bind]
    exact (Prog.return_bind () fun _ => _).trans ih

theorem push_seen (n : Nat) {m m' : Run Result}
    (h : m.seen Output.asEvent = m'.seen Output.asEvent) :
    (push n m).seen Output.asEvent = (push n m').seen Output.asEvent := by
  unfold push
  split
  · exact h
  · rfl

theorem bind_seen {α : Type} {m : Run α} {f g : α → Run Result}
    (h : ∀ a, (f a).seen Output.asEvent = (g a).seen Output.asEvent) :
    (m >>= f).seen Output.asEvent = (m >>= g).seen Output.asEvent := by
  rw [Prog.seen_bind, Prog.seen_bind]
  congr 1
  funext a
  exact h a

theorem onToken_seen {go go' : Bool → List Pending → Option (BitVec 32) → Run Result}
    (h : ∀ started K o, (go started K o).seen Output.asEvent =
      (go' started K o).seen Output.asEvent)
    (started : Bool) (K : List Pending) (o : Option (BitVec 32)) (t : Tok) :
    (onToken go started K o t).seen Output.asEvent =
      (onToken go' started K o t).seen Output.asEvent := by
  rcases o with _ | x <;> rcases t with _ | ⟨n⟩ | c | _ | _
  · simp only [onToken]
    split
    · exact push_seen _ (h ..)
    · rfl
  · exact push_seen _ (bind_seen fun r => h ..)
  · simp only [onToken]
    split
    · exact push_seen _ (h ..)
    · rfl
  · exact push_seen _ (h ..)
  · rfl
  · refine bind_seen fun r => ?_
    rcases r with ⟨_ | ⟨f, K'⟩, x'⟩
    · exact push_seen _ (bind_seen fun _ => h ..)
    · rfl
  · rfl
  · simp only [onToken]
    split
    · exact bind_seen fun r => push_seen _ (h ..)
    · rfl
  · rfl
  · refine bind_seen fun r => ?_
    rcases r with ⟨_ | ⟨_ | u | ⟨o, y⟩, K'⟩, x'⟩
    · rfl
    · exact push_seen _ (bind_seen fun r => h ..)
    · rfl
    · rfl

/-- The copies of the scanner are between the results. -/
theorem calculate_seen (rest : List (List (Fin 256))) (rs : List Read) (started : Bool)
    (K : List Pending) (o : Option (BitVec 32)) :
    (calculate rest rs started K o).seen Output.asEvent =
      (calculate [] ((rs.map Prod.snd).map silent) started K o).seen Output.asEvent := by
  induction rs generalizing started K o with
  | nil =>
    rw [calculate, Prog.seen_bind, emit_seen, Prog.return_bind]
    exact congrArg _ (Prog.return_bind ..).symm
  | cons r rs ih =>
    obtain ⟨echo, t⟩ := r
    rw [calculate, Prog.seen_bind, emit_seen, Prog.return_bind, List.map_cons, calculate_cons]
    exact onToken_seen ih started K o t

/-- A session as a run of the parser. -/
theorem session_run (es : List (Option Expr)) :
    let m : Run Result := (session es).relabel .event >>= fun _ => return .accept
    ((m.run ()).2.elim .trap Prod.fst = Result.accept ↔ ∀ e, some e ∈ es → Divides e) ∧
      (m.run ()).1.filterMap Output.asEvent = ((session es).run ()).1 := by
  have hends := (session_meets es).ends
  have hevents (fs : List Event) : (fs.map Output.event).filterMap Output.asEvent = fs := by
    simp [List.filterMap_map, Function.comp_def, Output.asEvent]
  rcases hrun : (session es).run () with ⟨fs, _ | ⟨⟨⟩, ⟨⟩⟩⟩
  · have hrelabel : ((session es).relabel Output.event).run () = (fs.map .event, none) := by
      simp [Prog.relabel, hrun]
    simp only [Prog.run_bind_of_crash hrelabel, hevents]
    simpa [hrun] using hends
  · have hrelabel : ((session es).relabel Output.event).run () =
        (fs.map .event, some ((), ())) := by
      simp [Prog.relabel, hrun]
    simp only [Prog.run_bind_of_result hrelabel]
    refine ⟨iff_of_true rfl (hends.mp (by simp [hrun])), ?_⟩
    exact (congrArg _ (List.append_nil _)).trans (hevents fs)

theorem NeverAccepts.ne_accept {m : Run Result} (h : NeverAccepts m) :
    (m.run ()).2.elim .trap Prod.fst ≠ Result.accept := by
  rcases hrun : m.run () with ⟨es, _ | ⟨r, t⟩⟩
  · show Result.trap ≠ Result.accept
    decide
  · exact h es r t hrun

/-- `yyparse` returns 0 if and only if every line is blank or an expression and no quotient
traps. It prints what the session prints. -/
theorem yyparse_accepts_iff (v : BitVec 32) {rs : List Read} {rest : List (List (Fin 256))}
    {ls : List Text} {tail : Text} (hrs : rs.map Prod.snd = typed ls ++ tail.map Tok.tok)
    (hls : ∀ l ∈ ls, l.length ≤ 9997) (htail : tail.length ≤ 9997) :
    ∃ r out, Returns parser.step (Parser.start parser v (lexemes rs rest)) ⟨r, out⟩ ∧
      (r = .accept ↔ ls ≠ [] ∧ tail = [] ∧
        ∃ es, ls.mapM lineOf = some es ∧ ∀ e, some e ∈ es → Divides e) ∧
      (ls ≠ [] → tail = [] → ∀ es, ls.mapM lineOf = some es →
        out.filterMap Output.asEvent = ((session es).run ()).1) := by
  have hseen := calculate_seen rest rs false [] none
  rw [hrs] at hseen
  have hrun := congrArg (fun m : Prog Unit Event Result => m.run ()) hseen
  obtain ⟨hevents, hresult⟩ := Prod.ext_iff.mp hrun
  refine ⟨_, _, (reads_input rest rs false []).1 _ (start_waits v _) rfl rfl, ?_, ?_⟩
  · have hresult : ((calculate rest rs false [] none).run ()).2 = _ := hresult
    rw [hresult]
    by_cases hform : ls ≠ [] ∧ tail = [] ∧ ∃ es, ls.mapM lineOf = some es
    · obtain ⟨hne, rfl, es, hes⟩ := hform
      rw [List.map_nil, List.append_nil, calculate_session hes hls fun heq => absurd heq hne]
      refine (session_run es).1.trans ?_
      simp [hne, hes]
    · refine iff_of_false ?_ fun h => hform ⟨h.1, h.2.1, h.2.2.imp fun _ h => h.1⟩
      by_cases hempty : ls = [] ∧ tail = []
      · obtain ⟨rfl, rfl⟩ := hempty
        have hnever : NeverAccepts (enter .initial (onEnd false)) := enter_end fun _ => rfl
        exact hnever.ne_accept
      · refine (calculate_error hls htail fun heq => ?_).ne_accept
        exact Option.eq_none_iff_forall_not_mem.mpr fun es hes =>
          hform ⟨fun hnil => hempty ⟨hnil, heq⟩, heq, es, hes⟩
  · rintro hne rfl es hes
    rw [List.map_nil, List.append_nil,
      calculate_session hes hls fun heq => absurd heq hne] at hevents
    refine (congrArg _ (List.nil_append _)).trans (hevents.trans ?_)
    exact (session_run es).2

/-- `6 / 2` after a character that the scanner does not know, and a blank line. -/
def divisionSession : List Read :=
  [([[⟨35, by decide⟩]], .tok (.atom 6)), ([], .tok (.op .divide)), ([], .tok (.atom 2)),
   ([], .newline), ([], .newline)]

theorem yyparse_accepts_iff_division :
    ∃ out, Returns parser.step (Parser.start parser 0 (lexemes divisionSession []))
      ⟨.accept, out⟩ ∧ out.filterMap Output.asEvent = [.divide 6 2, .result 3] := by
  obtain ⟨r, out, hreturns, hr, hout⟩ := @yyparse_accepts_iff 0 divisionSession []
    [[.atom 6, .op .divide, .atom 2], []] [] rfl (by decide) (by decide)
  have hes : ([[.atom 6, .op .divide, .atom 2], []] : List Text).mapM lineOf =
      some [some (.bin .divide (.atom 6) (.atom 2)), none] := by decide
  obtain rfl := hr.mpr ⟨by decide, rfl, _, hes, by
    rintro e he
    simp at he
    subst he
    decide⟩
  exact ⟨out, hreturns, hout (by decide) rfl _ hes⟩

end CourseCompilers.Calculator.Parser
