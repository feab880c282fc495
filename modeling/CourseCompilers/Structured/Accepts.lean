import CourseCompilers.Structured.Derivation

/-! Which token streams the parser of the third tutorial accepts, what it builds of them,
and where it goes wrong. -/

namespace CourseCompilers.Structured
open Lib.Precedence Expressions Ir

/-! ## Texts that can be completed -/

/-- The tokens that may be the read of a variable. -/
def Tok.isId : Tok → Bool
  | .expr (.atom (.id _)) => true
  | _ => false

/-- Only the read of a variable goes wrong. -/
theorem Parser.step_ne_crash (F : Folder) {V : Version} {s : Parser V} {t : Tok}
    (ht : t.isId = false) : s.step F t ≠ .error .crash := by
  have hatom : ∀ t', t = .expr t' → ∀ (P : Parse V) a, t' = .atom a →
      ((exprActions F V).atom a P).isSome := by
    rintro _ rfl P a rfl
    cases a with
    | immediate n => rfl
    | id x => cases ht
  unfold Parser.step
  split
  any_goals simp
  next t bs slot e P =>
    split
    · simp
    · next t' _ =>
      have hne := stepActing_ne_crash (A := exprActions F V) (S := spelling) (R := resolution)
        (r := e) (g := P) (hatom t' rfl P)
      cases hstep : stepActing (exprActions F V) spelling resolution e P t' with
      | ok x => simp [Except.map]
      | error f =>
        cases f with
        | crash => exact absurd hstep hne
        | syntaxError => simp [Except.map]
    · simp

theorem Derivation.isSome_act_step (F : Folder) {V : Version} {d d' : Derivation} {t : Tok}
    (h : d.step t = some d') (ht : t.isId = false) (hd : (d.act F (V := V)).isSome) :
    (d'.act F (V := V)).isSome := by
  obtain ⟨s, hs⟩ := Option.isSome_iff_exists.mp hd
  have hstep := Derivation.step_acts F hs t
  rw [h] at hstep
  cases hact : d'.act F (V := V) with
  | some s' => rfl
  | none =>
    simp only [hact] at hstep
    exact absurd hstep (Parser.step_ne_crash F ht)

/-- What has been read begins a program, none of whose further actions goes wrong. -/
def Derivation.Begins (d : Derivation) : Prop :=
  ∃ p : Program, p.Declared ∧ (∃ w, p.tokens = d.tokens ++ w) ∧
    ∀ (F : Folder) (V : Version), (d.act F (V := V)).isSome → (p.act F V).isSome

theorem Derivation.Begins.of_step {d d' : Derivation} {t : Tok} (h : d.step t = some d')
    (ht : t.isId = false) (hd : d'.Begins) : d.Begins := by
  obtain ⟨p, hp, ⟨w, hw⟩, hact⟩ := hd
  refine ⟨p, hp, ⟨t :: w, ?_⟩, fun F V hsome => hact F V (isSome_act_step F h ht hsome)⟩
  rw [hw, step_tokens h, List.append_assoc]
  rfl

theorem Derivation.begins_done {s : Stmt} {e : Expr} (hs : s.Declared) (he : e.Declared) :
    Begins ⟨[], some s, .done e⟩ := by
  refine ⟨⟨s, e⟩, ⟨hs, he⟩, ⟨[], ?_⟩, fun F V h => ?_⟩
  · simp [tokens, openedTokens, listTokens, Phase.tokens, Program.tokens]
  · obtain ⟨x, hx⟩ := Option.isSome_iff_exists.mp h
    obtain ⟨P, hP, hx⟩ := Option.bind_eq_some_iff.mp hx
    obtain ⟨P', hP', hx⟩ := Option.bind_eq_some_iff.mp hx
    obtain ⟨y, hy, -⟩ := Option.map_eq_some_iff.mp hx
    cases hP
    have hbuild : s.build F (Parser.start V).global = some P' := hP'
    simp [Program.act, hbuild, hy]

theorem Derivation.begins_semi {os : List Opened} {l : Option Stmt} {e : Expr}
    (h : Valid ⟨os, l, .semi e⟩) : Begins ⟨os, l, .semi e⟩ := by
  obtain ⟨he, hos, hl⟩ := h.phase
  obtain ⟨s, rfl⟩ := Option.isSome_iff_exists.mp hl
  cases hos
  exact .of_step (t := .rbrace) rfl rfl (begins_done (h.list s rfl) he)

/-- The rest of an expression: an operand, where one is missing, and parentheses. -/
theorem isId_rest (e : Lib.Precedence.State Expressions.Binary Unary Leaf) :
    ∀ t ∈ (e.rest (Leaf.immediate 0) : List (Token Symbol Leaf)), (Tok.expr t).isId = false := by
  have hparens : ∀ n, ∀ t ∈ List.replicate n (Token.rparen : Token Symbol Leaf),
      (Tok.expr t).isId = false := by
    intro n t ht
    rw [List.eq_of_mem_replicate ht]
    rfl
  obtain ⟨K, operand⟩ := e
  cases operand with
  | none => exact List.forall_mem_cons.mpr ⟨rfl, hparens _⟩
  | some e => exact hparens _

theorem Derivation.begins_expr {os : List Opened} {l : Option Stmt} {slot : Slot Unit}
    {e : Lib.Precedence.State Expressions.Binary Unary Leaf} (hd : Valid ⟨os, l, .expr slot e⟩)
    (h : ∀ t, (complete os l t slot).Valid → (complete os l t slot).Begins) :
    Begins ⟨os, l, .expr slot e⟩ := by
  obtain ⟨t, ht⟩ := exists_finish_rest (S := spelling) (R := resolution) (.immediate 0) e
  have hid := isId_rest e
  generalize e.rest (Leaf.immediate 0) = ts at ht hid
  induction ts generalizing e with
  | nil => exact .of_step (step_expr_stop ht) (by cases slot <;> rfl) (h _ (hd.complete ht))
  | cons t' ts ih =>
    obtain ⟨s, hrun, hfinish⟩ := Option.bind_eq_some_iff.mp ht
    obtain ⟨e', hstep, hrun⟩ := Option.bind_eq_some_iff.mp hrun
    obtain ⟨ht', hid⟩ := List.forall_mem_cons.mp hid
    have hnone : Tok.expr t' = slot.stop → finish e = none := by
      intro hstop
      have hparen : t' = .rparen := by
        cases slot <;> cases hstop <;> rfl
      subst hparen
      exact finish_eq_none_of_rparen hstep
    have hread : step ⟨os, l, .expr slot e⟩ (.expr t') = some ⟨os, l, .expr slot e'⟩ := by
      rw [step_expr hnone, hstep]
      rfl
    have hrest : (run spelling resolution e' ts).bind finish = some t :=
      Option.bind_eq_some_iff.mpr ⟨s, hrun, hfinish⟩
    exact .of_step hread ht' (ih (hd.step hread) hrest hid)

/-- The lists that are open are closed, and something is returned. -/
theorem Derivation.begins_some {os : List Opened} {s : Stmt} (h : Valid ⟨os, some s, .stmtlist⟩) :
    Begins ⟨os, some s, .stmtlist⟩ := by
  induction os generalizing s with
  | nil =>
    refine .of_step (t := .returnKeyword) rfl rfl ?_
    exact begins_expr (h.step (t := .returnKeyword) rfl) fun t ht => begins_semi ht
  | cons o os ih => exact .of_step (t := .rbrace) rfl rfl (ih (h.step (t := .rbrace) rfl))

theorem Derivation.begins_body {os : List Opened} {l : Option Stmt} {r : Rule}
    (h : Valid ⟨os, l, .body r⟩) : Begins ⟨os, l, .body r⟩ := by
  refine .of_step (t := .lbrace) rfl rfl (.of_step (t := .semi) rfl rfl ?_)
  exact begins_some ((h.step (t := .lbrace) rfl).step (t := .semi) rfl)

/-- Whatever has been read begins a program. -/
theorem Derivation.Valid.begins {d : Derivation} (h : d.Valid) : d.Begins := by
  have hcomplete : ∀ (os : List Opened) (l : Option Stmt) (slot : Slot Unit) (t : Expr),
      (Derivation.complete os l t slot).Valid → (Derivation.complete os l t slot).Begins := by
    intro os l slot t ht
    cases slot with
    | assign x => exact begins_some ht
    | ifCond | whileCond u => exact begins_body ht
    | result => exact begins_semi ht
  obtain ⟨os, l, phase⟩ := d
  cases phase with
  | stmtlist => exact .of_step (t := .semi) rfl rfl (begins_some (h.step (t := .semi) rfl))
  | id x =>
    exact .of_step (t := .assign) rfl rfl
      (begins_expr (h.step (t := .assign) rfl) (hcomplete os l (.assign x)))
  | ifKeyword =>
    exact .of_step (t := .expr .lparen) rfl rfl
      (begins_expr (h.step (t := .expr .lparen) rfl) (hcomplete os l .ifCond))
  | whileKeyword =>
    exact .of_step (t := .expr .lparen) rfl rfl
      (begins_expr (h.step (t := .expr .lparen) rfl) (hcomplete os l (.whileCond ())))
  | expr slot e => exact begins_expr h (hcomplete os l slot)
  | body r => exact begins_body h
  | semi e => exact begins_semi h
  | done e =>
    obtain ⟨he, hos, hl⟩ := h.phase
    obtain ⟨s, rfl⟩ := Option.isSome_iff_exists.mp hl
    cases hos
    exact begins_done (h.list s rfl) he

/-! ## What becomes of a token stream -/

section
variable (F : Folder) {V : Version}

/-- What the parser does with the tokens `u`, whatever follows them. -/
inductive Fate (d : Derivation) (s : Parser V) (u : List Tok) : Prop
  | rejects : (∀ v, s.yyparse F (u ++ v) = .error .syntaxError) → Fate d s u
  | crashes {a b : List Tok} {d' : Derivation} : u = a ++ b → d'.Valid →
      d'.tokens = d.tokens ++ a → (∀ v, s.yyparse F (a ++ v) = .error .crash) → Fate d s u
  | accepts {a b : List Tok} {p : Program} {P : Parse V} : u = a ++ b → p.Declared →
      p.tokens = d.tokens ++ a → p.act F V = some P →
      (∀ v, s.yyparse F (a ++ v) = .ok P) → Fate d s u
  | continues {d' : Derivation} {s' : Parser V} : d'.Valid → d'.tokens = d.tokens ++ u →
      d'.act F = some s' → s'.point.isDone = false →
      (∀ v, s.yyparse F (u ++ v) = s'.yyparse F v) → Fate d s u

/-- A derivation whose parser is done is that of a program. -/
theorem Derivation.Valid.isDone {d : Derivation} (h : d.Valid) {s : Parser V}
    (hs : d.act F = some s) (hdone : s.point.isDone = true) :
    ∃ p : Program, p.Declared ∧ p.tokens = d.tokens ∧ p.act F V = some s.global := by
  obtain ⟨os, l, phase⟩ := d
  obtain ⟨⟨bs, P₀⟩, hos, hact⟩ := Option.bind_eq_some_iff.mp hs
  obtain ⟨P, hl, hact⟩ := Option.bind_eq_some_iff.mp hact
  cases phase with
  | done e =>
    obtain ⟨x, hx, rfl⟩ := Option.map_eq_some_iff.mp hact
    obtain ⟨he, hos', hsome⟩ := h.phase
    obtain ⟨b, rfl⟩ := Option.isSome_iff_exists.mp hsome
    cases hos'
    cases hos
    have hbuild : b.build F (Parser.start V).global = some P := hl
    refine ⟨⟨b, e⟩, ⟨h.list b rfl, he⟩, ?_, by simp [Program.act, hbuild, hx]⟩
    simp [Derivation.tokens, openedTokens, listTokens, Phase.tokens, Program.tokens]
  | stmtlist | id x | ifKeyword | whileKeyword =>
    cases hact
    cases hdone
  | expr slot e | body r | semi e =>
    obtain ⟨x, -, rfl⟩ := Option.map_eq_some_iff.mp hact
    cases hdone

theorem Parser.yyparse_done {s : Parser V} (h : s.point.isDone = true) (ts : List Tok) :
    s.yyparse F ts = .ok s.global := by
  cases ts <;> simp [yyparse, h]

theorem Derivation.Valid.fate {d : Derivation} (hd : d.Valid) {s : Parser V}
    (hs : d.act F = some s) (u : List Tok) : Fate F d s u := by
  induction u generalizing d s with
  | nil =>
    cases hdone : s.point.isDone with
    | true =>
      obtain ⟨p, hp, htokens, hact⟩ := hd.isDone F hs hdone
      exact .accepts (a := []) rfl hp (by simp [htokens]) hact (Parser.yyparse_done F hdone)
    | false => exact .continues hd (by simp) hs hdone fun v => rfl
  | cons t u ih =>
    cases hdone : s.point.isDone with
    | true =>
      obtain ⟨p, hp, htokens, hact⟩ := hd.isDone F hs hdone
      exact .accepts (a := []) rfl hp (by simp [htokens]) hact (Parser.yyparse_done F hdone)
    | false =>
      have hread := fun v => Parser.yyparse_cons F hdone t v
      rw [Derivation.step_acts F hs t] at hread
      cases hstep : d.step t with
      | none =>
        simp only [hstep] at hread
        exact .rejects fun v => hread (u ++ v)
      | some d' =>
        have hd' := hd.step hstep
        have htokens := Derivation.step_tokens hstep
        cases hact : d'.act F (V := V) with
        | none =>
          simp only [hstep, hact] at hread
          exact .crashes (a := [t]) rfl hd' htokens hread
        | some s' =>
          simp only [hstep, hact] at hread
          have hnext : ∀ v, s.yyparse F (t :: v) = s'.yyparse F v := hread
          cases ih hd' hact with
          | rejects h => exact .rejects fun v => (hnext _).trans (h v)
          | @crashes u₁ u₂ d'' hu hvalid htokens' h =>
            exact .crashes (a := t :: u₁) (by rw [hu]; rfl) hvalid
              (by rw [htokens', htokens, List.append_assoc]; rfl) fun v => (hnext _).trans (h v)
          | @accepts u₁ u₂ p P hu hp htokens' hP h =>
            exact .accepts (a := t :: u₁) (by rw [hu]; rfl) hp
              (by rw [htokens', htokens, List.append_assoc]; rfl) hP fun v => (hnext _).trans (h v)
          | continues hvalid htokens' hact' hdone' h =>
            exact .continues hvalid (by rw [htokens', htokens, List.append_assoc]; rfl) hact' hdone'
              fun v => (hnext _).trans (h v)

/-- The parser after the first brace. -/
def Parser.opened (V : Version) : Parser V := ⟨[], .stmtlist false, (Parser.start V).global⟩

theorem Parser.yyparse_lbrace (ts : List Tok) :
    (start V).yyparse F (.lbrace :: ts) = (opened V).yyparse F ts := rfl

theorem Parser.yyparse_of_ne_lbrace {t : Tok} (h : t ≠ .lbrace) (ts : List Tok) :
    (start V).yyparse F (t :: ts) = .error .syntaxError := by
  cases t <;> first | exact absurd rfl h | rfl

theorem Derivation.valid_start : start.Valid :=
  ⟨(fun _ h => by cases h), (fun _ h => by cases h), (fun _ h => by cases h), trivial⟩

theorem Derivation.start_fate (u : List Tok) : Fate F start (Parser.opened V) u :=
  valid_start.fate F rfl u

/-- The actions of a program go wrong, or its code is there. -/
theorem Program.compile_eq_none_iff (p : Program) : p.compile F V = none ↔ p.act F V = none := by
  rw [compile_eq, Option.map_eq_none_iff]

end

/-- `yyparse` from the start, and the code that is there in the end. -/
def yyparse (F : Folder) (V : Version) (ts : List Tok) : Except Failure Func :=
  ((Parser.start V).yyparse F ts).map fun P => P.builder.func

section
variable {F : Folder} {V : Version} {ts u v : List Tok} {p : Program}

theorem yyparse_tokens (hp : p.Declared) (rest : List Tok) :
    yyparse F V (p.tokens ++ rest) = outcome (p.compile F V) := by
  rw [yyparse, Program.yyparse_tokens F hp, Program.compile_eq]
  cases p.act F V <;> rfl

/-- The parser reports an error, goes wrong on the beginning of programs without code, or
builds the code of a program. -/
theorem yyparse_cases (F : Folder) (V : Version) (ts : List Tok) :
    yyparse F V ts = .error .syntaxError ∨
    (yyparse F V ts = .error .crash ∧ ∃ u v, ts = u ++ v ∧
      (∃ (p : Program) (w : List Tok), p.Declared ∧ p.tokens = u ++ w) ∧
      ∀ (p : Program) (w : List Tok), p.Declared → p.tokens = u ++ w → p.compile F V = none) ∨
    ∃ f, yyparse F V ts = .ok f ∧ ∃ (p : Program) (rest : List Tok), p.Declared ∧
      ts = p.tokens ++ rest ∧ p.compile F V = some f := by
  cases ts with
  | nil => exact .inl rfl
  | cons t ts =>
    by_cases ht : t = .lbrace
    · subst ht
      rw [yyparse, Parser.yyparse_lbrace]
      have heq : (Parser.opened V).yyparse F (ts ++ []) = (Parser.opened V).yyparse F ts := by
        rw [List.append_nil]
      cases Derivation.start_fate F (V := V) ts with
      | rejects hall =>
        rw [← heq, hall]
        exact .inl rfl
      | @crashes u₁ u₂ d' hu hvalid htokens hall =>
        obtain ⟨p, hp, ⟨w, hw⟩, -⟩ := hvalid.begins
        refine .inr (.inl ⟨by rw [hu, hall]; rfl, .lbrace :: u₁, u₂,
          by rw [hu, List.cons_append], ⟨p, w, hp, ?_⟩, ?_⟩)
        · rw [hw, htokens]
          rfl
        · intro q x hq hx
          have hcrash := yyparse_tokens (F := F) (V := V) hq []
          rw [List.append_nil, hx, List.cons_append, yyparse, Parser.yyparse_lbrace, hall] at hcrash
          cases hcompile : q.compile F V with
          | none => rfl
          | some f =>
            rw [hcompile] at hcrash
            cases hcrash
      | @accepts u₁ u₂ p P hu hp htokens hact hall =>
        have hprogram : p.tokens = .lbrace :: u₁ := htokens
        refine .inr (.inr ⟨P.builder.func, by rw [hu, hall]; rfl, p, u₂, hp, ?_, ?_⟩)
        · rw [hprogram, hu, List.cons_append]
        · rw [Program.compile_eq, hact]
          rfl
      | continues _ _ _ hdone hall =>
        rw [← heq, hall, Parser.yyparse, if_neg (by simp [hdone])]
        exact .inl rfl
    · rw [yyparse, Parser.yyparse_of_ne_lbrace F ht]
      exact .inl rfl

theorem accepts_of_yyparse {f : Func} (h : yyparse F V ts = .ok f) :
    ∃ (p : Program) (rest : List Tok), p.Declared ∧ ts = p.tokens ++ rest ∧
      p.compile F V = some f := by
  rcases yyparse_cases F V ts with herror | ⟨herror, -⟩ | ⟨f', hf', hprogram⟩
  · rw [h] at herror
    cases herror
  · rw [h] at herror
    cases herror
  · rw [h] at hf'
    cases hf'
    exact hprogram

theorem viable_of_crash (h : yyparse F V ts = .error .crash) :
    ∃ u v, ts = u ++ v ∧ (∃ (p : Program) (w : List Tok), p.Declared ∧ p.tokens = u ++ w) ∧
      ∀ (p : Program) (w : List Tok), p.Declared → p.tokens = u ++ w → p.compile F V = none := by
  rcases yyparse_cases F V ts with herror | ⟨-, hviable⟩ | ⟨f, hf, -⟩
  · rw [h] at herror
    cases herror
  · exact hviable
  · rw [h] at hf
    cases hf

theorem crash_of_viable {w : List Tok} (hp : p.Declared) (hw : p.tokens = u ++ w)
    (h : ∀ (p : Program) (w : List Tok), p.Declared → p.tokens = u ++ w → p.compile F V = none)
    (v : List Tok) :
    yyparse F V (u ++ v) = .error .crash := by
  have hcrash : yyparse F V (u ++ w) = .error .crash := by
    have := yyparse_tokens (F := F) (V := V) hp []
    rwa [List.append_nil, hw, h p w hp hw] at this
  cases u with
  | nil =>
    obtain ⟨q, hq, -, hact⟩ := Derivation.valid_start.begins
    have hnone := h q q.tokens hq rfl
    rw [Program.compile_eq_none_iff] at hnone
    have hsome := hact F V rfl
    rw [hnone] at hsome
    cases hsome
  | cons t u =>
    obtain ⟨rfl, -⟩ := List.cons.inj hw
    rw [List.cons_append, yyparse, Parser.yyparse_lbrace] at hcrash ⊢
    cases Derivation.start_fate F (V := V) u with
    | rejects hall =>
      rw [hall] at hcrash
      cases hcrash
    | @crashes u₁ u₂ d' hu _ _ hall =>
      rw [hu, List.append_assoc, hall]
      rfl
    | @accepts u₁ u₂ q P hu _ _ _ hall =>
      rw [hu, List.append_assoc, hall] at hcrash
      cases hcrash
    | @continues d' s' hvalid htokens hact _ _ =>
      obtain ⟨q, hq, ⟨x, hx⟩, hsome⟩ := hvalid.begins
      have hnone := h q x hq (by rw [hx, htokens]; rfl)
      rw [Program.compile_eq_none_iff] at hnone
      have hsome := hsome F V (Option.isSome_iff_exists.mpr ⟨s', hact⟩)
      rw [hnone] at hsome
      cases hsome

/-- The parser builds the code of the program that the tokens begin with, and reads no
further; it goes wrong as soon as no program that begins so has code. Otherwise it reports
an error. -/
theorem yyparse_iff (F : Folder) (V : Version) (ts : List Tok) :
    (∀ f, yyparse F V ts = .ok f ↔
      ∃ (p : Program) (rest : List Tok), p.Declared ∧ ts = p.tokens ++ rest ∧
        p.compile F V = some f) ∧
    (yyparse F V ts = .error .crash ↔
      ∃ u v, ts = u ++ v ∧ (∃ (p : Program) (w : List Tok), p.Declared ∧ p.tokens = u ++ w) ∧
        ∀ (p : Program) (w : List Tok), p.Declared → p.tokens = u ++ w → p.compile F V = none) := by
  refine ⟨fun f => ⟨accepts_of_yyparse, ?_⟩, viable_of_crash, ?_⟩
  · rintro ⟨p, rest, hp, rfl, hf⟩
    rw [yyparse_tokens hp, hf]
    rfl
  · rintro ⟨u, v, rfl, ⟨p, w, hp, hw⟩, h⟩
    exact crash_of_viable hp hw h v

end

end CourseCompilers.Structured
