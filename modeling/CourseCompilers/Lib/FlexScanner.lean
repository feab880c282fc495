import CourseCompilers.Lib.Dfa
import CourseCompilers.Lib.Machine

/-! The scanner that `flex` generates: an automaton in compressed tables, run over a
buffer that holds a part of the input at a time. The end of the buffer is a NUL, on
which every state goes to one state of its own. There the scanner finds out whether it
has read a NUL of the text or come to the end of what the buffer holds, and in that case
reads on, and takes up the match where it stood. -/

namespace CourseCompilers.Lib.FlexScanner

abbrev Byte := Fin 256

def byte (c : Char) : Byte := Fin.ofNat 256 c.toNat

/-- The tables of a scanner and the numbers its loops compare with. -/
structure Tables where
  accept : List Nat
  ec : List Nat
  metaEc : List Nat
  base : List Nat
  dflt : List Nat
  nxt : List Nat
  chk : List Nat
  /-- The state without a match to come. Those above it are templates. -/
  jam : Nat
  jamBase : Nat
  endOfBuffer : Nat

/-- `yy_c_buf_p` and the last accepting state, positions counted from `yytext_ptr`. -/
structure Scan where
  state : Nat
  cp : Nat
  lastState : Nat
  lastCp : Nat

/-- The part of the buffer from `yytext_ptr` on, what the reads to come will give, and
whether a read has given nothing. -/
structure Buffer where
  held : List Byte
  input : List (List Byte)
  eofPending : Bool

inductive Label where
  | scan
  | findAction
  deriving DecidableEq

structure Config where
  buffer : Buffer
  scan : Scan
  label : Label

inductive Answer where
  /-- A rule, the text it has matched, and what is left for the next match. -/
  | rule (act : Nat) (yytext : List Byte) (buffer : Buffer) (scan : Scan)
  | endOfFile

inductive EobAct where
  | lastMatch
  | continueScan
  | endOfFile
  deriving DecidableEq

/-- What `YY_INPUT` reads; a read that gives nothing is the end of the file. -/
def Buffer.read (B : Buffer) : List Byte := if B.eofPending then [] else B.input.headD []

/-- `yy_get_next_buffer`. -/
def getNextBuffer (B : Buffer) (numberToMove : Nat) : EobAct × Buffer :=
  let moved := B.held.take numberToMove
  let input := if B.eofPending then B.input else B.input.tail
  if B.read = [] then
    if numberToMove = 0 then (.endOfFile, ⟨moved, input, B.eofPending⟩)
    else (.lastMatch, ⟨moved, input, true⟩)
  else (.continueScan, ⟨moved ++ B.read, input, B.eofPending⟩)

namespace Tables
variable (T : Tables)

/-- The loop over the default states; it visits no state twice. -/
def lookup : Nat → Nat → Nat → Option Nat
  | 0, _, _ => none
  | fuel + 1, s, c => do
      let b ← T.base[s]?
      if (← T.chk[b + c]?) = s then T.nxt[b + c]?
      else
        let s ← T.dflt[s]?
        let c ← if T.jam < s then T.metaEc[c]? else some c
        lookup fuel s c

def transition (s c : Nat) : Option Nat := T.lookup T.base.length s c

/-- Note the state where a match ends. -/
def note (k : Scan) : Option Scan := do
  let a ← T.accept[k.state]?
  return if a = 0 then k else { k with lastState := k.state, lastCp := k.cp }

def advance (k : Scan) (c : Nat) : Option Scan := do
  let k ← T.note k
  let s ← T.transition k.state c
  return { k with state := s, cp := k.cp + 1 }

/-- `yy_match`, over the buffer from `yy_cp` on. -/
def yyMatch : List Byte → Scan → Option Scan
  | [], _ => none
  | b :: rest, k => do
      let c ← T.ec[b.val]?
      let k ← T.advance k c
      if (← T.base[k.state]?) = T.jamBase then return k else yyMatch rest k

/-- The class of a byte that is known to be of the text. -/
def textClass (b : Byte) : Option Nat := if b = 0 then some 1 else T.ec[b.val]?

/-- `yy_get_previous_state`. -/
def getPreviousState : List Byte → Scan → Option Scan
  | [], k => some k
  | b :: rest, k => do
      let c ← T.textClass b
      let k ← T.advance k c
      getPreviousState rest k

/-- `yy_find_action`: the rule, and the position it ends at. -/
def findAction (k : Scan) : Option (Nat × Scan) := do
  let a ← T.accept[k.state]?
  if a ≠ 0 then return (a, k)
  else
    let a ← T.accept[k.lastState]?
    if a ≠ 0 then return (a, { k with state := k.lastState, cp := k.lastCp }) else none

/-- The scan at the start of the buffer. -/
def restart (k : Scan) : Scan := { k with state := 1, cp := 0 }

/-- `YY_END_OF_BUFFER`. -/
def atEndOfBuffer (B : Buffer) (k : Scan) : Option (Outcome Config Answer) := do
  let amount := k.cp - 1
  if k.cp ≤ B.held.length then
    -- the text has a NUL here
    let k ← T.getPreviousState (B.held.take amount) (restart k)
    let n ← T.advance k 1
    if n.state = T.jam then
      return .next ⟨B, { n with state := k.state, cp := amount }, .findAction⟩
    else return .next ⟨B, n, .scan⟩
  else if k.cp ≤ B.held.length + 1 then
    match getNextBuffer B amount with
    | (.endOfFile, _) => return .halt .endOfFile
    | (.continueScan, B) =>
        let k ← T.getPreviousState (B.held.take amount) (restart k)
        return .next ⟨B, k, .scan⟩
    | (.lastMatch, B) =>
        let k ← T.getPreviousState B.held (restart k)
        return .next ⟨B, k, .findAction⟩
  else none

/-- The action of the rule that was found. -/
def act (B : Buffer) (a : Nat) (k : Scan) : Option (Outcome Config Answer) :=
  if a = T.endOfBuffer then T.atEndOfBuffer B k
  else some (.halt (.rule a (B.held.take k.cp) { B with held := B.held.drop k.cp } k))

def step : Config → Outcome Config Answer
  | ⟨B, k, .scan⟩ =>
      match T.yyMatch (B.held.drop k.cp ++ [0, 0]) k with
      | some k => .next ⟨B, k, .findAction⟩
      | none => .stuck
  | ⟨B, k, .findAction⟩ =>
      ((T.findAction k).bind fun r => T.act B r.1 r.2).getD .stuck

/-- One round of the loop of `yylex`. The last accepting state is that of the match before. -/
def start (B : Buffer) (k : Scan) : Config := ⟨B, restart k, .scan⟩

/-! ## The automaton of the tables -/

/-- The class a byte of the text has; the class of the NUL is that of the end of the buffer. -/
def classOf (b : Byte) : Nat := if b = 0 then 1 else (T.ec[b.val]?).getD 0

def dfa : Dfa Nat Nat Nat where
  next s c := (T.transition s c).getD T.jam
  accept s := (T.accept[s]?).filter fun a => a ≠ 0

/-- The tables are those of an automaton with the states `states` over `classes`, the
start state 1, and a state that every NUL leads to. -/
structure Sound (classes states : List Nat) (eob : Nat) : Prop where
  one_mem : 1 ∈ classes
  start_mem : 1 ∈ states
  ec : ∀ b : Byte, if b = 0 then T.ec[b.val]? = some 0 else ∃ c ∈ classes, T.ec[b.val]? = some c
  next : ∀ s ∈ states, ∀ c ∈ classes, ∃ t ∈ states, T.transition s c = some t
  nul : ∀ s ∈ states, T.transition s 0 = some eob
  accept : ∀ s ∈ states, (T.accept[s]?).isSome ∧ T.accept[s]? ≠ some T.endOfBuffer
  base : ∀ s ∈ states, (T.base[s]?).isSome ∧
    (T.base[s]? = some T.jamBase → ∀ c ∈ classes, T.transition s c = some T.jam)
  endOfBuffer_ne : T.endOfBuffer ≠ 0
  eob_accept : T.accept[eob]? = some T.endOfBuffer
  eob_base : (T.base[eob]?).isSome ∧ T.base[eob]? ≠ some T.jamBase
  eob_next : ∀ c ∈ 0 :: classes, T.transition eob c = some T.jam
  jam_mem : T.jam ∈ states
  jam_accept : T.accept[T.jam]? = some 0
  jam_base : T.base[T.jam]? = some T.jamBase

variable {T} {classes states : List Nat} {eob : Nat}

theorem accept_eq_some {s a : Nat} :
    T.dfa.accept s = some a ↔ T.accept[s]? = some a ∧ a ≠ 0 := by
  simp [dfa, Option.filter_eq_some_iff]

theorem Sound.classOf_mem (hT : T.Sound classes states eob) (b : Byte) :
    T.classOf b ∈ classes := by
  have hb := hT.ec b
  unfold classOf
  split at hb
  · next h => rw [if_pos h]; exact hT.one_mem
  · next h =>
    obtain ⟨c, hc, heq⟩ := hb
    rw [if_neg h, heq]
    exact hc

theorem Sound.ec_eq (hT : T.Sound classes states eob) {b : Byte} (hb : b ≠ 0) :
    T.ec[b.val]? = some (T.classOf b) := by
  have h := hT.ec b
  rw [if_neg hb] at h
  obtain ⟨c, -, heq⟩ := h
  rw [classOf, if_neg hb, heq]
  rfl

theorem Sound.textClass_eq (hT : T.Sound classes states eob) (b : Byte) :
    T.textClass b = some (T.classOf b) := by
  unfold textClass
  split
  · next hb => rw [classOf, if_pos hb]
  · next hb => exact hT.ec_eq hb

theorem Sound.ec_nul (hT : T.Sound classes states eob) : T.ec[0]? = some 0 := by
  have h := hT.ec 0
  rwa [if_pos rfl] at h

theorem Sound.transition_eq (hT : T.Sound classes states eob) {s c : Nat} (hs : s ∈ states)
    (hc : c ∈ classes) :
    T.transition s c = some (T.dfa.next s c) ∧ T.dfa.next s c ∈ states := by
  obtain ⟨t, ht, heq⟩ := hT.next s hs c hc
  have hnext : T.dfa.next s c = t := by simp [dfa, heq]
  rw [hnext]
  exact ⟨heq, ht⟩

theorem Sound.after_mem (hT : T.Sound classes states eob) {s : Nat} (hs : s ∈ states)
    {w : List Nat} (hw : ∀ c ∈ w, c ∈ classes) : T.dfa.after s w ∈ states := by
  induction w generalizing s with
  | nil => exact hs
  | cons c w ih =>
    obtain ⟨hc, hw⟩ := List.forall_mem_cons.mp hw
    exact ih (hT.transition_eq hs hc).2 hw

/-- Where the loop of `yy_match` ends, no longer text matches. -/
theorem Sound.not_accept_of_jamBase (hT : T.Sound classes states eob) {s : Nat}
    (hs : s ∈ states) (hbase : T.base[s]? = some T.jamBase) {w : List Nat}
    (hw : ∀ c ∈ w, c ∈ classes) (hne : w ≠ []) : T.dfa.accept (T.dfa.after s w) = none := by
  induction w generalizing s with
  | nil => exact absurd rfl hne
  | cons c w ih =>
    obtain ⟨hc, hw⟩ := List.forall_mem_cons.mp hw
    have hjam : T.dfa.next s c = T.jam := by
      simp [dfa, (hT.base s hs).2 hbase c hc]
    rw [Dfa.after_cons, hjam]
    by_cases hnil : w = []
    · rw [hnil, Dfa.after_nil]
      simp [dfa, hT.jam_accept]
    · exact ih hT.jam_mem hT.jam_base hw hnil

/-! ## What a scan keeps -/

/-- The scan has read `cp` characters of a text with the classes `w`, and its last
accepting state is the last before that. -/
structure Follows (T : Tables) (w : List Nat) (k : Scan) : Prop where
  cp_le : k.cp ≤ w.length
  state_eq : k.state = T.dfa.after 1 (w.take k.cp)
  last : ∀ j ∈ T.dfa.ends 1 w, j < k.cp →
    j ≤ k.lastCp ∧ k.lastCp ∈ T.dfa.ends 1 w ∧ k.lastState = T.dfa.after 1 (w.take k.lastCp)

theorem Follows.restart (w : List Nat) (k : Scan) : T.Follows w (restart k) where
  cp_le := Nat.zero_le _
  state_eq := rfl
  last j _ hj := absurd hj (Nat.not_lt_zero j)

/-- What `note` records. -/
def noted (T : Tables) (k : Scan) : Scan :=
  if (T.dfa.accept k.state).isSome then { k with lastState := k.state, lastCp := k.cp } else k

theorem Sound.note_eq (hT : T.Sound classes states eob) {k : Scan} (hk : k.state ∈ states) :
    T.note k = some (T.noted k) := by
  obtain ⟨a, ha⟩ := Option.isSome_iff_exists.mp (hT.accept _ hk).1
  by_cases h0 : a = 0 <;> simp [note, noted, dfa, ha, h0]

section
variable {w : List Nat} {k : Scan}

theorem Follows.state_mem (h : T.Follows w k) (hT : T.Sound classes states eob)
    (hw : ∀ c ∈ w, c ∈ classes) : k.state ∈ states := by
  rw [h.state_eq]
  exact hT.after_mem hT.start_mem fun c hc => hw c (List.mem_of_mem_take hc)

/-- The state at a position is accepting exactly where a match ends. -/
theorem Follows.mem_ends (h : T.Follows w k) :
    k.cp ∈ T.dfa.ends 1 w ↔ (T.dfa.accept k.state).isSome := by
  rw [h.state_eq]
  exact and_iff_right h.cp_le

@[simp] theorem noted_state (k : Scan) : (T.noted k).state = k.state := by
  unfold noted
  split <;> rfl

@[simp] theorem noted_cp (k : Scan) : (T.noted k).cp = k.cp := by
  unfold noted
  split <;> rfl

/-- With the match that ends here noted, all up to here are. -/
theorem Follows.noted_last (h : T.Follows w k) :
    ∀ j ∈ T.dfa.ends 1 w, j < k.cp + 1 → j ≤ (T.noted k).lastCp ∧
      (T.noted k).lastCp ∈ T.dfa.ends 1 w ∧
      (T.noted k).lastState = T.dfa.after 1 (w.take (T.noted k).lastCp) := by
  intro j hj hlt
  unfold noted
  split
  · next hacc => exact ⟨Nat.le_of_lt_succ hlt, h.mem_ends.mpr hacc, h.state_eq⟩
  · next hacc =>
    have hne : j ≠ k.cp := fun heq => hacc (h.mem_ends.mp (heq ▸ hj))
    exact h.last j hj (by omega)

/-- One character of the text. -/
theorem Follows.advance (h : T.Follows w k) (hT : T.Sound classes states eob)
    (hw : ∀ c ∈ w, c ∈ classes) {c : Nat} {v : List Nat} (hdrop : w.drop k.cp = c :: v) :
    ∃ k', T.advance k c = some k' ∧ T.Follows w k' ∧ k'.cp = k.cp + 1 ∧ w.drop k'.cp = v ∧
      k'.state = T.dfa.next k.state c := by
  have hmem := h.state_mem hT hw
  have hc : c ∈ classes := by
    refine hw c (List.mem_of_mem_drop (i := k.cp) ?_)
    rw [hdrop]
    exact .head v
  have hlt : k.cp < w.length := by
    have := congrArg List.length hdrop
    simp at this
    omega
  have htake : w.take (k.cp + 1) = w.take k.cp ++ [c] := by
    rw [List.take_add, hdrop]
    rfl
  refine ⟨{ T.noted k with state := T.dfa.next k.state c, cp := k.cp + 1 }, ?_, ?_, rfl, ?_, rfl⟩
  · simp [Tables.advance, hT.note_eq hmem, (hT.transition_eq hmem hc).1]
  · refine ⟨hlt, ?_, h.noted_last⟩
    simp only [htake, Dfa.after_append, ← h.state_eq, Dfa.after_cons, Dfa.after_nil]
  · rw [← List.drop_drop, hdrop]
    rfl

/-- Where the loop of `yy_match` ends, all matches have been passed. -/
theorem Follows.ends_le (h : T.Follows w k) (hT : T.Sound classes states eob)
    (hw : ∀ c ∈ w, c ∈ classes) (hbase : T.base[k.state]? = some T.jamBase) :
    ∀ j ∈ T.dfa.ends 1 w, j ≤ k.cp := by
  intro j hj
  by_contra hlt
  have hsplit : w.take j = w.take k.cp ++ (w.drop k.cp).take (j - k.cp) := by
    rw [← List.take_add]
    congr 1
    omega
  have hne : (w.drop k.cp).take (j - k.cp) ≠ [] := by
    intro hnil
    have hlen := congrArg List.length hnil
    have := hj.1
    simp at hlen
    omega
  have hnone := hT.not_accept_of_jamBase (h.state_mem hT hw) hbase
    (fun c hc => hw c (List.mem_of_mem_drop (List.mem_of_mem_take hc))) hne
  rw [h.state_eq, ← Dfa.after_append, ← hsplit] at hnone
  have hsome := hj.2
  rw [hnone] at hsome
  cases hsome

/-- `yy_get_previous_state` takes the scan to where it stood. -/
theorem Follows.getPreviousState (h : T.Follows w k) (hT : T.Sound classes states eob)
    (hw : ∀ c ∈ w, c ∈ classes) {bs : List Byte} {v : List Nat}
    (hdrop : w.drop k.cp = bs.map T.classOf ++ v) :
    ∃ k', T.getPreviousState bs k = some k' ∧ T.Follows w k' ∧ k'.cp = k.cp + bs.length := by
  induction bs generalizing k with
  | nil => exact ⟨k, rfl, h, rfl⟩
  | cons b bs ih =>
    obtain ⟨k₁, hk₁, hf, hcp, hdrop₁, -⟩ := h.advance hT hw hdrop
    obtain ⟨k₂, hk₂, hf₂, hcp₂⟩ := ih hf hdrop₁
    refine ⟨k₂, ?_, hf₂, ?_⟩
    · simp [Tables.getPreviousState, hT.textClass_eq, hk₁, hk₂]
    · rw [hcp₂, hcp, List.length_cons]
      omega

/-- The match found at a position that no longer match follows. -/
theorem Follows.findAction (h : T.Follows w k) (hT : T.Sound classes states eob)
    (hw : ∀ c ∈ w, c ∈ classes) {n a : Nat}
    (hmatch : T.dfa.longest 1 w = some (n, a)) (hmax : ∀ j ∈ T.dfa.ends 1 w, j ≤ k.cp) :
    ∃ k', T.findAction k = some (a, k') ∧ k'.cp = n := by
  obtain ⟨⟨hn, hgreatest⟩, ha⟩ := T.dfa.longest_eq_some_iff.mp hmatch
  by_cases hacc : (T.dfa.accept k.state).isSome
  · have hcp : n = k.cp := le_antisymm (hmax n hn) (hgreatest (h.mem_ends.mpr hacc))
    rw [hcp, ← h.state_eq] at ha
    obtain ⟨heq, hne⟩ := accept_eq_some.mp ha
    exact ⟨k, by simp [Tables.findAction, heq, hne], hcp.symm⟩
  · have hlt : n < k.cp := by
      refine lt_of_le_of_ne (hmax n hn) ?_
      rintro rfl
      exact hacc (h.mem_ends.mp hn)
    obtain ⟨hle, hmem, hlast⟩ := h.last n hn hlt
    have hcp : k.lastCp = n := le_antisymm (hgreatest hmem) hle
    rw [← hcp, ← hlast] at ha
    obtain ⟨heq, hne⟩ := accept_eq_some.mp ha
    have hnone : T.accept[k.state]? = some 0 := by
      obtain ⟨b, hb⟩ := Option.isSome_iff_exists.mp (hT.accept _ (h.state_mem hT hw)).1
      by_cases h0 : b = 0
      · rw [hb, h0]
      · exact absurd (by simp [accept_eq_some.mpr ⟨hb, h0⟩]) hacc
    exact ⟨{ k with state := k.lastState, cp := k.lastCp },
      by simp [Tables.findAction, hnone, heq, hne], hcp⟩

/-- At the NUL that ends the buffer, or one of the text, the loop of `yy_match` stops with
the state of the end of the buffer noted. -/
theorem Sound.match_nul (hT : T.Sound classes states eob) {k : Scan} (hk : k.state ∈ states)
    (b : Byte) (rest : List Byte) :
    ∃ k', T.yyMatch (0 :: b :: rest) k = some k' ∧
      k'.state = T.jam ∧ k'.lastState = eob ∧ k'.lastCp = k.cp + 1 := by
  have hb : ∃ c ∈ 0 :: classes, T.ec[b.val]? = some c := by
    by_cases h0 : b = 0
    · exact ⟨0, .head _, h0 ▸ hT.ec_nul⟩
    · exact ⟨_, .tail _ (hT.classOf_mem b), hT.ec_eq h0⟩
  obtain ⟨c, hc, hec⟩ := hb
  obtain ⟨e, he⟩ := Option.isSome_iff_exists.mp hT.eob_base.1
  have hne : e ≠ T.jamBase := by
    rintro rfl
    exact hT.eob_base.2 he
  have hfirst : T.advance k 0 = some { T.noted k with state := eob, cp := k.cp + 1 } := by
    simp [advance, hT.note_eq hk, hT.nul _ hk]
  have hsecond : T.advance { T.noted k with state := eob, cp := k.cp + 1 } c =
      some ⟨T.jam, k.cp + 2, eob, k.cp + 1⟩ := by
    simp [advance, note, hT.eob_accept, hT.endOfBuffer_ne, hT.eob_next c hc]
  exact ⟨⟨T.jam, k.cp + 2, eob, k.cp + 1⟩,
    by simp [yyMatch, hT.ec_nul, hfirst, he, hne, hec, hsecond, hT.jam_base], rfl, rfl, rfl⟩

/-- `yy_match` stops where no longer text matches, or at a NUL. -/
theorem Follows.yyMatch (h : T.Follows w k) (hT : T.Sound classes states eob)
    (hw : ∀ c ∈ w, c ∈ classes) {bs : List Byte} {v : List Nat}
    (hdrop : w.drop k.cp = bs.map T.classOf ++ v) :
    ∃ k', T.yyMatch (bs ++ [0, 0]) k = some k' ∧
      ((T.Follows w k' ∧ k'.cp ≤ k.cp + bs.length ∧ T.base[k'.state]? = some T.jamBase) ∨
        ∃ j ≤ bs.length, (bs[j]? = some 0 ∨ j = bs.length) ∧
          k'.state = T.jam ∧ k'.lastState = eob ∧ k'.lastCp = k.cp + j + 1) := by
  induction bs generalizing k with
  | nil =>
    obtain ⟨k', hk', hjam⟩ := hT.match_nul (h.state_mem hT hw) 0 []
    exact ⟨k', hk', .inr ⟨0, Nat.le_refl 0, .inr rfl, hjam⟩⟩
  | cons b bs ih =>
    by_cases hb : b = 0
    · subst hb
      have hrest : ∃ b' rest, bs ++ [0, 0] = b' :: rest := by
        cases bs with
        | nil => exact ⟨0, [0], rfl⟩
        | cons b' bs => exact ⟨b', bs ++ [0, 0], rfl⟩
      obtain ⟨b', rest, hrest⟩ := hrest
      obtain ⟨k', hk', hjam⟩ := hT.match_nul (h.state_mem hT hw) b' rest
      refine ⟨k', ?_, .inr ⟨0, Nat.zero_le _, .inl rfl, hjam⟩⟩
      rw [List.cons_append, hrest, hk']
    · obtain ⟨k₁, hk₁, hf, hcp, hdrop₁, -⟩ := h.advance hT hw hdrop
      obtain ⟨e, he⟩ := Option.isSome_iff_exists.mp (hT.base _ (hf.state_mem hT hw)).1
      by_cases hbase : e = T.jamBase
      · refine ⟨k₁, by simp [Tables.yyMatch, hT.ec_eq hb, hk₁, he, hbase], .inl ⟨hf, ?_, ?_⟩⟩
        · rw [hcp, List.length_cons]
          omega
        · rw [he, hbase]
      · obtain ⟨k', hk', hcases⟩ := ih hf hdrop₁
        refine ⟨k', by simp [Tables.yyMatch, hT.ec_eq hb, hk₁, he, hbase, hk'], ?_⟩
        rcases hcases with ⟨hf', hle, hbase'⟩ | ⟨j, hj, hnul, hs, hl, hlast⟩
        · refine .inl ⟨hf', ?_, hbase'⟩
          rw [List.length_cons]
          omega
        · refine .inr ⟨j + 1, Nat.succ_le_succ hj, ?_, hs, hl, by omega⟩
          rcases hnul with hnul | rfl
          · exact .inl hnul
          · exact .inr rfl

end

end Tables

/-! ## A round of the scanner -/

/-- What the reads to come will give before the end of the file. -/
def Buffer.later (B : Buffer) : List Byte :=
  if B.eofPending then [] else (B.input.takeWhile fun c => c ≠ []).flatten

/-- The text from the next match on. -/
def Buffer.text (B : Buffer) : List Byte := B.held ++ B.later

theorem Buffer.later_of_read_nil {B : Buffer} (h : B.read = []) : B.later = [] := by
  obtain ⟨held, input, _ | _⟩ := B
  · cases input with
    | nil => rfl
    | cons c input =>
      obtain rfl : c = [] := h
      rfl
  · rfl

theorem Buffer.later_of_read_ne {B : Buffer} (h : B.read ≠ []) :
    ∃ input, input.length < B.input.length ∧
      getNextBuffer B B.held.length = (.continueScan, ⟨B.held ++ B.read, input, false⟩) ∧
      B.later = B.read ++ Buffer.later ⟨B.held ++ B.read, input, false⟩ := by
  obtain ⟨held, input, _ | _⟩ := B
  · cases input with
    | nil => exact absurd rfl h
    | cons c input =>
      have hc : c ≠ [] := h
      refine ⟨input, Nat.lt_succ_self _, ?_, ?_⟩
      · simp [getNextBuffer, Buffer.read, hc]
      · simp [Buffer.later, Buffer.read, hc]
  · exact absurd rfl h

namespace Tables
variable {T : Tables} {classes states : List Nat} {eob : Nat}

def classes_of (T : Tables) (B : Buffer) : List Nat := B.text.map T.classOf

theorem Sound.mem_classes (hT : T.Sound classes states eob) (B : Buffer) :
    ∀ c ∈ T.classes_of B, c ∈ classes := by
  intro c hc
  obtain ⟨b, -, rfl⟩ := List.mem_map.mp hc
  exact hT.classOf_mem b

/-- With no longer match to come the rule of the longest is run on the text it matches. -/
theorem Follows.returns_rule {B : Buffer} {k : Scan} (h : T.Follows (T.classes_of B) k)
    (hT : T.Sound classes states eob) (hcp : k.cp ≤ B.held.length) {n a : Nat}
    (hmatch : T.dfa.longest 1 (T.classes_of B) = some (n, a))
    (hmax : ∀ j ∈ T.dfa.ends 1 (T.classes_of B), j ≤ k.cp) :
    ∃ B' k', Returns T.step ⟨B, k, .findAction⟩ (.rule a (B.text.take n) B' k') ∧
      B'.text = B.text.drop n := by
  obtain ⟨hn, ha⟩ := T.dfa.mem_ends_of_longest hmatch
  have hle : n ≤ B.held.length := (hmax n hn).trans hcp
  have hne : a ≠ T.endOfBuffer := by
    rintro rfl
    have hmem := hT.after_mem hT.start_mem (w := (T.classes_of B).take n)
      fun c hc => hT.mem_classes B c (List.mem_of_mem_take hc)
    exact (hT.accept _ hmem).2 (accept_eq_some.mp ha).1
  obtain ⟨k', hfind, rfl⟩ := h.findAction hT (hT.mem_classes B) hmatch hmax
  refine ⟨{ B with held := B.held.drop k'.cp }, k', ⟨0, Halts.now ?_⟩, ?_⟩
  · simp [step, hfind, act, hne, Buffer.text, List.take_append_of_le_length hle]
  · simp [Buffer.text, Buffer.later, List.drop_append_of_le_length hle]

/-- The end of the buffer is found once the state of it has been noted. -/
theorem Sound.step_eob (hT : T.Sound classes states eob) {B : Buffer} {k : Scan}
    (hjam : k.state = T.jam) (heob : k.lastState = eob) :
    T.step ⟨B, k, .findAction⟩ =
      (T.atEndOfBuffer B { k with state := eob, cp := k.lastCp }).getD .stuck := by
  simp [step, findAction, hjam, hT.jam_accept, heob, hT.eob_accept, hT.endOfBuffer_ne, act]

/-- After a NUL of the text the scan goes on, or no longer match follows. -/
theorem Sound.atEndOfBuffer_nul (hT : T.Sound classes states eob) {B : Buffer} {k : Scan}
    {j : Nat} (hk : k.cp = j + 1) (hnul : B.held[j]? = some 0) :
    ∃ k', T.Follows (T.classes_of B) k' ∧
      ((T.atEndOfBuffer B k = some (.next ⟨B, k', .scan⟩) ∧ k'.cp = j + 1) ∨
        (T.atEndOfBuffer B k = some (.next ⟨B, k', .findAction⟩) ∧ k'.cp = j ∧
          ∀ i ∈ T.dfa.ends 1 (T.classes_of B), i ≤ j)) := by
  have hw := hT.mem_classes B
  obtain ⟨hlt, hget⟩ := List.getElem?_eq_some_iff.mp hnul
  have hsplit : T.classes_of B = (B.held.take j).map T.classOf ++
      (1 :: (B.held.drop (j + 1) ++ B.later).map T.classOf) := by
    have hheld : B.held = B.held.take j ++ 0 :: B.held.drop (j + 1) := by
      rw [← hget, List.getElem_cons_drop, List.take_append_drop]
    rw [classes_of, Buffer.text]
    conv_lhs => rw [hheld]
    simp [classOf]
  obtain ⟨k₁, hk₁, hf₁, hcp₁⟩ :=
    (Follows.restart (T.classes_of B) k).getPreviousState hT hw hsplit
  have hcp : k₁.cp = j := by
    rw [hcp₁, List.length_take_of_le hlt.le]
    exact Nat.zero_add j
  have hdrop : (T.classes_of B).drop k₁.cp =
      1 :: (B.held.drop (j + 1) ++ B.later).map T.classOf := by
    rw [hsplit, List.drop_left' (by rw [List.length_map, List.length_take_of_le hlt.le, hcp])]
  obtain ⟨k₂, hk₂, hf₂, hcp₂, -, -⟩ := hf₁.advance hT hw hdrop
  have hle : j + 1 ≤ B.held.length := hlt
  rw [atEndOfBuffer, hk, if_pos hle]
  simp only [Nat.add_sub_cancel, hk₁, hk₂, Option.bind_eq_bind, Option.bind_some]
  by_cases hend : k₂.state = T.jam
  · refine ⟨{ k₂ with state := k₁.state, cp := j }, ⟨?_, ?_, ?_⟩, .inr ⟨?_, rfl, ?_⟩⟩
    · exact hcp ▸ hf₁.cp_le
    · exact hcp ▸ hf₁.state_eq
    · exact fun i hi hij => hf₂.last i hi (by simp at hij; omega)
    · rw [if_pos hend]
      rfl
    · intro i hi
      have hi' := hf₂.ends_le hT hw (by rw [hend, hT.jam_base]) i hi
      rw [hcp₂, hcp] at hi'
      rcases hi'.lt_or_eq with hlt | rfl
      · omega
      · have hacc := hf₂.mem_ends.mp (by rw [hcp₂, hcp]; exact hi)
        rw [hend] at hacc
        simp [dfa, hT.jam_accept] at hacc
  · refine ⟨k₂, hf₂, .inl ⟨?_, by rw [hcp₂, hcp]⟩⟩
    rw [if_neg hend]
    rfl

/-- Where the buffer ends and more of the text is read, the scan goes on where it stood. -/
theorem Sound.atEndOfBuffer_read (hT : T.Sound classes states eob) {B : Buffer} {k : Scan}
    (hk : k.cp = B.held.length + 1) (hread : B.read ≠ []) :
    ∃ B' k', T.atEndOfBuffer B k = some (.next ⟨B', k', .scan⟩) ∧ B'.text = B.text ∧
      T.Follows (T.classes_of B') k' ∧ k'.cp = B.held.length ∧
      k'.cp ≤ B'.held.length ∧ B'.input.length < B.input.length := by
  obtain ⟨input, hlen, hnext, hlater⟩ := Buffer.later_of_read_ne hread
  have htext : (⟨B.held ++ B.read, input, false⟩ : Buffer).text = B.text := by
    rw [Buffer.text, Buffer.text, hlater, List.append_assoc]
  have hsplit : T.classes_of ⟨B.held ++ B.read, input, false⟩ =
      B.held.map T.classOf ++ B.later.map T.classOf := by
    rw [classes_of, htext, Buffer.text, List.map_append]
  obtain ⟨k', hk', hf, hcp⟩ :=
    (Follows.restart _ k).getPreviousState hT (hT.mem_classes _) hsplit
  have hcp : k'.cp = B.held.length := hcp.trans (Nat.zero_add _)
  refine ⟨_, k', ?_, htext, hf, hcp, by simp [hcp], hlen⟩
  simp [atEndOfBuffer, hk, hnext, hk']

/-- Where the text ends the match is that of what the buffer holds. -/
theorem Sound.atEndOfBuffer_last (hT : T.Sound classes states eob) {B : Buffer} {k : Scan}
    (hk : k.cp = B.held.length + 1) (hread : B.read = []) (hne : B.held ≠ []) :
    ∃ B' k', T.atEndOfBuffer B k = some (.next ⟨B', k', .findAction⟩) ∧ B'.text = B.text ∧
      T.Follows (T.classes_of B') k' ∧ k'.cp = B.text.length ∧ k'.cp ≤ B'.held.length := by
  have hlater := Buffer.later_of_read_nil hread
  have hlen : B.held.length ≠ 0 := fun h => hne (List.length_eq_zero_iff.mp h)
  obtain ⟨input, hnext⟩ : ∃ input,
      getNextBuffer B B.held.length = (.lastMatch, ⟨B.held, input, true⟩) :=
    ⟨if B.eofPending then B.input else B.input.tail,
      by simp only [getNextBuffer, hread, if_true, if_neg hlen, List.take_length]⟩
  have htext : (⟨B.held, input, true⟩ : Buffer).text = B.text := by
    rw [Buffer.text, Buffer.text, hlater]
    rfl
  have hsplit : T.classes_of ⟨B.held, input, true⟩ = B.held.map T.classOf ++ [] := by
    rw [classes_of, htext, Buffer.text, hlater, List.append_nil, List.append_nil]
  obtain ⟨k', hk', hf, hcp⟩ :=
    (Follows.restart _ k).getPreviousState hT (hT.mem_classes _) hsplit
  have hcp : k'.cp = B.held.length := hcp.trans (Nat.zero_add _)
  refine ⟨_, k', ?_, htext, hf, ?_, hcp.le⟩
  · simp [atEndOfBuffer, hk, hnext, hk']
  · rw [hcp, Buffer.text, hlater, List.append_nil]

/-- Every round finds the longest match of the text, however the text is read. -/
theorem Follows.returns {B : Buffer} {k : Scan} (h : T.Follows (T.classes_of B) k)
    (hT : T.Sound classes states eob) (hcp : k.cp ≤ B.held.length) (hne : B.text ≠ [])
    {n a : Nat} (hmatch : T.dfa.longest 1 (T.classes_of B) = some (n, a)) :
    ∃ B' k', Returns T.step ⟨B, k, .scan⟩ (.rule a (B.text.take n) B' k') ∧
      B'.text = B.text.drop n := by
  -- a NUL of the text is passed, or a part of the input is read
  induction hm : B.text.length - k.cp + B.input.length using Nat.strong_induction_on
    generalizing B k with
  | _ m ih =>
    have hw := hT.mem_classes B
    have hdrop : (T.classes_of B).drop k.cp =
        (B.held.drop k.cp).map T.classOf ++ B.later.map T.classOf := by
      rw [classes_of, Buffer.text, ← List.map_drop, List.drop_append_of_le_length hcp,
        List.map_append]
    obtain ⟨k₁, hk₁, hcases⟩ := h.yyMatch hT hw hdrop
    have hstep : Reaches T.step ⟨B, k, .scan⟩ 1 ⟨B, k₁, .findAction⟩ :=
      Reaches.one (by simp only [step, hk₁])
    rcases hcases with ⟨hf, hle, hbase⟩ | ⟨j, hj, hnul, hjam, heob, hlast⟩
    · have hle : k₁.cp ≤ B.held.length := by
        rw [List.length_drop] at hle
        omega
      obtain ⟨B', k', hret, htext⟩ :=
        hf.returns_rule hT hle hmatch (hf.ends_le hT hw hbase)
      exact ⟨B', k', Returns.of_reaches hstep hret, htext⟩
    · have hstep₁ := hT.step_eob (B := B) hjam heob
      have hK : (⟨eob, k₁.lastCp, k₁.lastState, k₁.lastCp⟩ : Scan).cp = k.cp + j + 1 := hlast
      have hlen := List.length_drop (i := k.cp) (l := B.held)
      rcases hnul with hnul | hend
      · rw [List.getElem?_drop] at hnul
        have hlt := (List.getElem?_eq_some_iff.mp hnul).1
        have htext : B.held.length ≤ B.text.length := by simp [Buffer.text]
        obtain ⟨k₂, hf, ⟨hact, hcp₂⟩ | ⟨hact, hcp₂, hmax⟩⟩ := hT.atEndOfBuffer_nul hK hnul
        · rw [hact, Option.getD_some] at hstep₁
          obtain ⟨B', k', hret, htext'⟩ :=
            ih _ (by omega) hf (by omega) hne hmatch rfl
          exact ⟨B', k', Returns.of_reaches (hstep.snoc hstep₁) hret, htext'⟩
        · rw [hact, Option.getD_some] at hstep₁
          obtain ⟨B', k', hret, htext'⟩ :=
            hf.returns_rule hT (by omega) hmatch (hcp₂ ▸ hmax)
          exact ⟨B', k', Returns.of_reaches (hstep.snoc hstep₁) hret, htext'⟩
      · have hK : (⟨eob, k₁.lastCp, k₁.lastState, k₁.lastCp⟩ : Scan).cp = B.held.length + 1 := by
          rw [hK]
          omega
        by_cases hread : B.read = []
        · have hheld : B.held ≠ [] := by
            rintro hnil
            rw [Buffer.text, hnil, Buffer.later_of_read_nil hread] at hne
            exact hne rfl
          obtain ⟨B₂, k₂, hact, htext, hf, hcp₂, hle⟩ := hT.atEndOfBuffer_last hK hread hheld
          rw [hact, Option.getD_some] at hstep₁
          rw [classes_of, ← htext] at hmatch
          obtain ⟨B', k', hret, htext'⟩ := hf.returns_rule hT hle hmatch fun i hi => by
            rw [hcp₂, ← htext]
            simpa [classes_of] using hi.1
          rw [htext] at hret htext'
          exact ⟨B', k', Returns.of_reaches (hstep.snoc hstep₁) hret, htext'⟩
        · obtain ⟨B₂, k₂, hact, htext, hf, hcp₂, hle, hinput⟩ := hT.atEndOfBuffer_read hK hread
          rw [hact, Option.getD_some] at hstep₁
          rw [classes_of, ← htext] at hmatch
          obtain ⟨B', k', hret, htext'⟩ :=
            ih _ (by rw [htext, hcp₂]; omega) hf hle (htext ▸ hne) hmatch rfl
          rw [htext] at hret htext'
          exact ⟨B', k', Returns.of_reaches (hstep.snoc hstep₁) hret, htext'⟩

/-- A round at the end of the text. -/
theorem Sound.returns_endOfFile (hT : T.Sound classes states eob) {B : Buffer} (k : Scan)
    (hB : B.text = []) : Returns T.step (start B k) .endOfFile := by
  obtain ⟨hheld, hlater⟩ := List.append_eq_nil_iff.mp hB
  obtain ⟨k₁, hk₁, hjam, heob, hlast⟩ :=
    hT.match_nul (k := restart k) hT.start_mem 0 []
  have hread : B.read = [] := by
    by_contra hne
    obtain ⟨input, -, -, heq⟩ := Buffer.later_of_read_ne hne
    rw [hlater] at heq
    exact hne (List.append_eq_nil_iff.mp heq.symm).1
  have hstep : Reaches T.step (start B k) 1 ⟨B, k₁, .findAction⟩ := by
    refine Reaches.one ?_
    simp only [start, step, hheld, List.drop_nil, List.nil_append, hk₁]
  refine Returns.of_reaches hstep ⟨0, Halts.now ?_⟩
  rw [hT.step_eob hjam heob]
  simp [atEndOfBuffer, hlast, restart, hheld, getNextBuffer, hread]

/-! ## The whole text -/

/-- The loop of `yylex` over the rounds, with the rule and the text of each match. -/
inductive Scans (T : Tables) : Buffer → Scan → List (Nat × List Byte) → Prop
  | endOfFile {B : Buffer} {k : Scan} :
      Returns T.step (start B k) .endOfFile → Scans T B k []
  | rule {B B' : Buffer} {k k' : Scan} {a : Nat} {yytext : List Byte}
      {rest : List (Nat × List Byte)} :
      Returns T.step (start B k) (.rule a yytext B' k') → Scans T B' k' rest →
      Scans T B k ((a, yytext) :: rest)

theorem Scans.unique {B : Buffer} {k : Scan} {l l' : List (Nat × List Byte)}
    (h : T.Scans B k l) (h' : T.Scans B k l') : l = l' := by
  induction h generalizing l' with
  | endOfFile hr =>
    cases h' with
    | endOfFile _ => rfl
    | rule hr' _ => cases hr.unique hr'
  | rule hr _ ih =>
    cases h' with
    | endOfFile hr' => cases hr.unique hr'
    | rule hr' h' =>
      cases hr.unique hr'
      rw [ih h']

/-- The tables stand for `rules`: their automaton finds the match of the rules. -/
def Implements (T : Tables) (rules : List (Pattern Byte × Nat)) : Prop :=
  ∀ cs : List Byte, T.dfa.longest 1 (cs.map T.classOf) = Pattern.firstLongest cs rules

variable {rules : List (Pattern Byte × Nat)}

theorem Implements.of_tracks {residual : Nat → List (Pattern Nat × Nat)}
    (hT : T.Sound classes states eob) (h : T.dfa.Tracks classes states residual)
    (hrules : rules = Pattern.comapRules T.classOf (residual 1)) : T.Implements rules := by
  intro cs
  have hw : ∀ c ∈ cs.map T.classOf, c ∈ classes := by
    intro c hc
    obtain ⟨b, -, rfl⟩ := List.mem_map.mp hc
    exact hT.classOf_mem b
  rw [h.longest hT.start_mem hw, hrules, Pattern.firstLongest_comap]

/-- The generated scanner finds the matches of its rules, in whatever parts it reads the
text. -/
theorem Implements.scans (h : T.Implements rules) (hT : T.Sound classes states eob)
    {B : Buffer} {ls : List (Nat × List Byte)} (hls : Pattern.Lexes rules B.text ls) (k : Scan) :
    T.Scans B k ls := by
  generalize htext : B.text = cs at hls
  induction hls generalizing B k with
  | nil => exact .endOfFile (hT.returns_endOfFile k htext)
  | @cons cs n b rest hn hpos _ ih =>
    subst htext
    have hne : B.text ≠ [] := by
      intro hnil
      have hle := (T.dfa.mem_ends_of_longest ((h B.text).trans hn)).1.1
      rw [hnil] at hle
      simp at hle
      omega
    obtain ⟨B', k', hret, htext'⟩ :=
      (Follows.restart _ k).returns hT (Nat.zero_le _) hne ((h B.text).trans hn)
    exact .rule hret (ih k' htext')

theorem Implements.scans_iff (h : T.Implements rules) (hT : T.Sound classes states eob)
    (htotal : ∀ c, Pattern.firstNullable (Pattern.derivRules c rules) ≠ none)
    {B : Buffer} {k : Scan} {ls : List (Nat × List Byte)} :
    T.Scans B k ls ↔ Pattern.Lexes rules B.text ls := by
  constructor
  · intro hscan
    obtain ⟨ls', hls'⟩ := Pattern.exists_lexes htotal B.text
    rwa [hscan.unique (h.scans hT hls' k)]
  · exact fun hls => h.scans hT hls k

end Tables

end CourseCompilers.Lib.FlexScanner
