import CourseCompilers.Lib.FlipStack
import CourseCompilers.Uthash.Table
import CourseCompilers.Uthash.Jenkins

/-! The MiniC symbol table of `symbol.c`: a stack of scopes, each a `uthash`
table from names to values. Against it stands the abstract scope stack, in which
every scope is just the list of its insertions. -/

namespace CourseCompilers.MiniC
open Lib Uthash

variable {V : Type} (hash : String → Nat)

/-- `scope_t`s from `head` downwards; a scope is its `map`. -/
abbrev Scopes (V : Type) := List (Head String V)

def symbolPushScope (s : Scopes V) : Scopes V := none :: s

/-- `symbol_pop_scope`; popping the empty stack dereferences null. -/
def symbolPopScope : Scopes V → Option (Scopes V)
  | [] => none
  | _ :: s => some s

def isGlobalScope (s : Scopes V) : Bool := s.isEmpty

def symbolInsert (s : Scopes V) (name : String) (val : V) : Scopes V :=
  match s with
  | [] => []
  | m :: s => add hash m name val :: s

def getSymbolInScope (name : String) : Scopes V → Option V
  | [] => none
  | m :: s =>
      match find hash m name with
      | some v => some v
      | none => getSymbolInScope name s

/-- `symbol_find`; `namedGlobal` is `LLVMGetNamedGlobal` on the module. -/
def symbolFind (namedGlobal : String → Option V) (s : Scopes V) (name : String) : Option V :=
  match getSymbolInScope hash name s with
  | some v => some v
  | none => namedGlobal name

/-- The calls that change the table. -/
inductive Call (V : Type) where
  | pushScope
  | popScope
  | insert (name : String) (val : V)
  deriving DecidableEq, Repr

def Call.run (s : Scopes V) : Call V → Option (Scopes V)
  | .pushScope => some (symbolPushScope s)
  | .popScope => symbolPopScope s
  | .insert name val => some (symbolInsert hash s name val)

/-- A sequence of calls on a table whose stack is empty at first. -/
def runCalls (calls : List (Call V)) : Option (Scopes V) := calls.foldlM (Call.run hash) []

/-! ## Lexical scoping -/

/-- The live scopes, innermost first, each with its insertions, latest first. -/
abbrev Lexical (V : Type) := List (List (String × V))

def Call.lex (l : Lexical V) : Call V → Option (Lexical V)
  | .pushScope => some ([] :: l)
  | .popScope =>
      match l with
      | [] => none
      | _ :: l => some l
  | .insert name val =>
      match l with
      | [] => some []
      | ins :: l => some (((name, val) :: ins) :: l)

def lexCalls (calls : List (Call V)) : Option (Lexical V) := calls.foldlM Call.lex []

/-- The value of the latest insertion of a name in one scope. -/
def latestIn (name : String) (ins : List (String × V)) : Option V :=
  (ins.find? fun p => p.1 = name).map Prod.snd

/-- The latest insertion of the name in the innermost scope that contains it. -/
def lexFind (namedGlobal : String → Option V) (l : Lexical V) (name : String) : Option V :=
  (l.findSome? (latestIn name)).or (namedGlobal name)

/-! ## The concrete table follows the abstract one -/

/-- The table a scope has after its insertions. -/
def tableAfter : List (String × V) → Head String V
  | [] => none
  | (name, val) :: ins => add hash (tableAfter ins) name val

/-- What happened to the chain of `name`, latest first: its insertions, and the
bucket expansions any insertion of the scope caused. -/
def history (name : String) : List (String × V) → List (Move V)
  | [] => []
  | (n, val) :: ins =>
      let ms := if n = name then .push val :: history name ins else history name ins
      if expands hash (tableAfter hash ins) n then .flip :: ms else ms

variable {hash}

theorem Call.run_eq_lex (l : Lexical V) (c : Call V) :
    c.run hash (l.map (tableAfter hash)) = (c.lex l).map (·.map (tableAfter hash)) := by
  cases c with
  | pushScope => rfl
  | popScope => cases l <;> rfl
  | insert name val => cases l <;> rfl

/-- Every run of the table is the image of a run of the abstract scopes. -/
theorem runCalls_eq_lexCalls (calls : List (Call V)) :
    runCalls hash calls = (lexCalls calls).map (·.map (tableAfter hash)) := by
  have h : ∀ l : Lexical V, calls.foldlM (Call.run hash) (l.map (tableAfter hash)) =
      (calls.foldlM Call.lex l).map (·.map (tableAfter hash)) := by
    induction calls with
    | nil => intro l; rfl
    | cons c calls ih =>
      intro l
      rw [List.foldlM_cons, List.foldlM_cons, Call.run_eq_lex]
      cases c.lex l with
      | none => rfl
      | some l' => exact ih l'
  exact h []

theorem tableAfter_WF (ins : List (String × V)) : (tableAfter hash ins).WF hash := by
  induction ins with
  | nil => exact Head.WF.none
  | cons p ins ih => exact ih.add p.1 p.2

/-- The chain of a name is the stack its history makes. -/
theorem valuesAt_tableAfter (ins : List (String × V)) (name : String) :
    valuesAt hash (tableAfter hash ins) name = stack (history hash name ins) := by
  induction ins with
  | nil => rfl
  | cons p ins ih =>
    obtain ⟨n, val⟩ := p
    rw [tableAfter, (tableAfter_WF ins).valuesAt_add, ih]
    rcases eq_or_ne n name with rfl | hn
    · cases he : expands hash (tableAfter hash ins) n <;>
        simp only [history, he, ↓reduceIte, Bool.false_eq_true, stack, Move.apply]
    · cases he : expands hash (tableAfter hash ins) n <;>
        simp only [history, hn, he, ↓reduceIte, Bool.false_eq_true, stack, Move.apply]

theorem latest_history (ins : List (String × V)) (name : String) :
    latest (history hash name ins) = latestIn name ins := by
  induction ins with
  | nil => rfl
  | cons p ins ih =>
    obtain ⟨n, val⟩ := p
    have hflip : latest (history hash name ((n, val) :: ins)) =
        latest (if n = name then .push val :: history hash name ins
          else history hash name ins) := by
      simp only [history]
      split <;> rfl
    rw [hflip]
    by_cases hn : n = name
    · simp [hn, latest, latestIn]
    · simpa [hn, latestIn] using ih

variable (hash) in
/-- A lookup in one scope answers with the survivor of the name's history. -/
theorem find_tableAfter (ins : List (String × V)) (name : String) :
    find hash (tableAfter hash ins) name = survivor false (history hash name ins) := by
  rw [find_eq_head?, valuesAt_tableAfter, head?_stack]

variable (hash) in
theorem find_eq_none_iff (ins : List (String × V)) (name : String) :
    find hash (tableAfter hash ins) name = none ↔ latestIn name ins = none := by
  rw [find_tableAfter, survivor_eq_none_iff, latest_history]

variable (hash)

/-- In the innermost live scope that contains the name, the insertion a lookup
meets first (the latest one that an even number of bucket expansions follow, or
the first one) gave the same value as the latest insertion. -/
def Settled (l : Lexical V) (name : String) : Prop :=
  match l.find? fun ins => (latestIn name ins).isSome with
  | none => True
  | some ins => survivor false (history hash name ins) = latest (history hash name ins)

variable {hash}

variable (hash) in
theorem getSymbolInScope_eq_none_iff (l : Lexical V) (name : String) :
    getSymbolInScope hash name (l.map (tableAfter hash)) = none ↔
      l.findSome? (latestIn name) = none := by
  induction l with
  | nil => simp [getSymbolInScope]
  | cons ins l ih =>
    cases hl : latestIn name ins with
    | none =>
      have hf := (find_eq_none_iff hash ins name).mpr hl
      simpa [getSymbolInScope, hf, hl] using ih
    | some v =>
      have hf : find hash (tableAfter hash ins) name ≠ none := by
        rw [Ne, find_eq_none_iff, hl]
        simp
      obtain ⟨w, hw⟩ := Option.ne_none_iff_exists'.mp hf
      simp [getSymbolInScope, hw, hl]

theorem getSymbolInScope_eq_iff (l : Lexical V) (name : String) :
    getSymbolInScope hash name (l.map (tableAfter hash)) = l.findSome? (latestIn name) ↔
      Settled hash l name := by
  induction l with
  | nil => simp [getSymbolInScope, Settled]
  | cons ins l ih =>
    cases hl : latestIn name ins with
    | none =>
      have hf := (find_eq_none_iff hash ins name).mpr hl
      simpa [getSymbolInScope, hf, hl, Settled] using ih
    | some v =>
      have hw := find_tableAfter hash ins name
      cases hs : survivor false (history hash name ins) with
      | none =>
        rw [survivor_eq_none_iff, latest_history, hl] at hs
        cases hs
      | some w =>
        rw [hs] at hw
        simp [getSymbolInScope, hw, hl, Settled, hs, latest_history]

/-- `symbol_find` answers as lexical scoping does, after any calls and for any
hash values, exactly when the name is settled. -/
theorem symbolFind_lexical_iff (calls : List (Call V)) (l : Lexical V)
    (h : lexCalls calls = some l) :
    ∃ s, runCalls hash calls = some s ∧ ∀ namedGlobal name,
      symbolFind hash namedGlobal s name = lexFind namedGlobal l name ↔ Settled hash l name := by
  refine ⟨l.map (tableAfter hash), by rw [runCalls_eq_lexCalls, h]; rfl, ?_⟩
  intro namedGlobal name
  rw [← getSymbolInScope_eq_iff, symbolFind, lexFind]
  cases hc : getSymbolInScope hash name (l.map (tableAfter hash)) with
  | none =>
    rw [getSymbolInScope_eq_none_iff] at hc
    simp [hc]
  | some w =>
    cases hl : l.findSome? (latestIn name) with
    | none =>
      rw [← getSymbolInScope_eq_none_iff hash, hc] at hl
      cases hl
    | some v => simp

/-- An inner scope that shadows `x` and has been closed again. -/
def nestedScopes : List (Call Nat) :=
  [.pushScope, .insert "x" 1, .pushScope, .insert "x" 2, .insert "y" 3, .popScope]

theorem symbolFind_lexical_iff_nested :
    lexCalls nestedScopes = some [[("x", 1)]] ∧
      ∃ s, runCalls hashJen nestedScopes = some s ∧ ∀ namedGlobal name,
        symbolFind hashJen namedGlobal s name = lexFind namedGlobal [[("x", 1)]] name ↔
          Settled hashJen [[("x", 1)]] name :=
  ⟨rfl, symbolFind_lexical_iff nestedScopes _ rfl⟩

/-! ## Few insertions -/

variable (hash)

theorem tableAfter_few {ins : List (String × V)} (hlen : ins.length < 10) :
    let t := tableOf (tableAfter hash ins)
    t.noexpand = false ∧
      ∀ b, (t.buckets b).count ≤ ins.length ∧ (t.buckets b).expandMult = 0 := by
  induction ins with
  | nil => exact ⟨rfl, fun b => ⟨Nat.le_refl 0, rfl⟩⟩
  | cons p ins ih =>
    obtain ⟨name, val⟩ := p
    simp only [List.length_cons] at hlen ⊢
    obtain ⟨hno, hb⟩ := ih (by omega)
    have hexp : expands hash (tableAfter hash ins) name = false := by
      obtain ⟨hc, hm⟩ := hb (bktOf hash (tableOf (tableAfter hash ins)) name)
      simp [expands, hno, hm, bktCapacityThresh]
      omega
    simp only [tableAfter, add, tableOf, Option.getD_some, expands_eq_full, hexp,
      Bool.false_eq_true, ↓reduceIte]
    refine ⟨hno, fun b => ?_⟩
    obtain ⟨hc, hm⟩ := hb b
    by_cases hk : b = bktOf hash (tableOf (tableAfter hash ins)) name
    · subst hk
      simpa [linked, Table.link, bktOf] using ⟨hc, hm⟩
    · unfold bktOf at hk
      simp only [linked, Table.link, bktOf, Function.update_of_ne hk]
      exact ⟨by omega, hm⟩

theorem expands_few {ins : List (String × V)} (hlen : ins.length < 9) (name : String) :
    expands hash (tableAfter hash ins) name = false := by
  obtain ⟨hno, hb⟩ := tableAfter_few hash (show ins.length < 10 by omega)
  obtain ⟨hc, hm⟩ := hb (bktOf hash (tableOf (tableAfter hash ins)) name)
  simp [expands, hno, hm, bktCapacityThresh]
  omega

/-- Fewer than ten insertions into a scope are found again as inserted. -/
theorem find_few {ins : List (String × V)} (hlen : ins.length < 10) (name : String) :
    find hash (tableAfter hash ins) name = latestIn name ins := by
  have hflips : flips (history hash name ins) = 0 := by
    induction ins with
    | nil => rfl
    | cons p ins ih =>
      obtain ⟨n, val⟩ := p
      simp only [List.length_cons] at hlen
      have ih := ih (by omega)
      have hexp := expands_few hash (show ins.length < 9 by omega) n
      by_cases hn : n = name
      · subst hn
        simpa [history, hexp, flips] using ih
      · simpa [history, hexp, hn, flips] using ih
  rw [find_tableAfter, survivor_eq_latest (.of_flips_eq_zero hflips), latest_history]

/-! ## A name inserted over and over -/

/-- Nine insertions of one name fill one bucket. -/
theorem tableAfter_same {ins : List (String × V)} {name : String}
    (h : ∀ p ∈ ins, p.1 = name) (hlen : ins.length < 10) :
    let t := tableOf (tableAfter hash ins)
    t.numBuckets = 32 ∧ (t.buckets (toBkt (hash name) 32)).count = ins.length := by
  induction ins with
  | nil => exact ⟨rfl, rfl⟩
  | cons p ins ih =>
    obtain ⟨n, val⟩ := p
    have hn : n = name := h (n, val) (by simp)
    subst hn
    simp only [List.length_cons] at hlen
    obtain ⟨hb, hc⟩ := ih (fun q hq => h q (by simp [hq])) (by omega)
    have hexp := expands_few hash (show ins.length < 9 by omega) n
    simp only [tableAfter, add, tableOf, Option.getD_some, expands_eq_full, hexp]
    simp [linked, Table.link, bktOf, hb, hc]

/-- `HASH_ADD_TO_BKT` expands on the tenth insertion of a name into one scope. -/
theorem expands_same {ins : List (String × V)} {name : String}
    (h : ∀ p ∈ ins, p.1 = name) (hlen : ins.length = 9) :
    expands hash (tableAfter hash ins) name = true := by
  obtain ⟨hno, hm⟩ := tableAfter_few hash (show ins.length < 10 by omega)
  obtain ⟨hb, hc⟩ := tableAfter_same hash h (by omega)
  simp [expands, bktOf, hb, hno, hc, hm, hlen, bktCapacityThresh]

theorem history_same {ins : List (String × V)} {name : String}
    (h : ∀ p ∈ ins, p.1 = name) (hlen : ins.length < 10) :
    history hash name ins = ins.map fun p => .push p.2 := by
  induction ins with
  | nil => rfl
  | cons p ins ih =>
    obtain ⟨n, val⟩ := p
    have hn : n = name := h (n, val) (by simp)
    subst hn
    simp only [List.length_cons] at hlen
    have hexp := expands_few hash (show ins.length < 9 by omega) n
    simp [history, hexp, ih (fun q hq => h q (by simp [hq])) (by omega)]

/-- A scope in which `x` is inserted ten times, with the values 1 to 10. -/
def tenInsertions : List (Call Nat) :=
  .pushScope :: (List.range 10).map fun i => .insert "x" (i + 1)

/-- The scope `tenInsertions` leaves, latest insertion first. -/
def tenScope : List (String × Nat) := (List.range 10).map fun i => ("x", 10 - i)

/-- After ten insertions of `x` the table finds the first one, not the last. -/
theorem symbolFind_tenInsertions :
    ∃ s l, runCalls hashJen tenInsertions = some s ∧ lexCalls tenInsertions = some l ∧
      symbolFind hashJen (fun _ => none) s "x" = some 1 ∧
      lexFind (fun _ => none) l "x" = some 10 := by
  have hlex : lexCalls tenInsertions = some [tenScope] := rfl
  refine ⟨[tableAfter hashJen tenScope], [tenScope], by rw [runCalls_eq_lexCalls, hlex]; rfl,
    hlex, ?_, rfl⟩
  have hnine : ∀ p ∈ tenScope.tail, p.1 = "x" := by decide
  have hexp := expands_same hashJen hnine (by decide)
  have hhist : history hashJen "x" tenScope =
      .flip :: .push 10 :: tenScope.tail.map fun p => .push p.2 := by
    rw [← history_same hashJen hnine (by decide),
      show tenScope = ("x", 10) :: tenScope.tail from rfl, history, if_pos hexp]
    rfl
  simp only [symbolFind, getSymbolInScope, find_tableAfter, hhist]
  rfl

end CourseCompilers.MiniC
