import Mathlib.Data.Char
import Mathlib.Data.List.AList
import Mathlib.Data.List.DropRight
import Mathlib.Data.List.Lex

/-! The statistics file: the counters as `print_csv_file` of the summary pass writes
them, and the reading loop of `fullstats.py`. -/

namespace CourseCompilers.Statistics

abbrev Text := List Char

/-! ## Decimal numbers -/

/-- `%d`. -/
def decimal (n : Int) : Text :=
  if n < 0 then '-' :: Nat.toDigits 10 n.natAbs else Nat.toDigits 10 n.natAbs

def readNat (ds : Text) : Option Nat :=
  if ds ≠ [] ∧ ds.all Char.isDigit then some (Nat.ofDigitChars 10 ds 0) else none

/-- The number that a decimal integer string spells. -/
def readInt : Text → Option Int
  | '-' :: ds => (readNat ds).map fun n : Nat => -(n : Int)
  | ds => (readNat ds).map fun n : Nat => (n : Int)

theorem readNat_toDigits (n : Nat) : readNat (Nat.toDigits 10 n) = some n := by
  have hall : (Nat.toDigits 10 n).all Char.isDigit := by
    rw [List.all_eq_true]
    exact fun c hc => Nat.isDigit_of_mem_toDigits (by decide) (by decide) hc
  rw [readNat, if_pos ⟨Nat.toDigits_ne_nil, hall⟩, Nat.ofDigitChars_ten_toDigits]

theorem readInt_decimal (n : Int) : readInt (decimal n) = some n := by
  unfold decimal
  split
  · next hn =>
    simp only [readInt, readNat_toDigits, Option.map_some, Option.some.injEq]
    omega
  · next hn =>
    have hhead : ∀ ds, Nat.toDigits 10 n.natAbs ≠ '-' :: ds := by
      intro ds h
      have := Nat.isDigit_of_mem_toDigits (b := 10) (n := n.natAbs) (c := '-') (by decide)
        (by decide) (by simp [h])
      exact absurd this (by decide)
    have hread : readInt (Nat.toDigits 10 n.natAbs) =
        (readNat (Nat.toDigits 10 n.natAbs)).map fun n : Nat => (n : Int) := by
      unfold readInt
      split
      · next ds h => exact absurd h (hhead ds)
      · rfl
    rw [hread, readNat_toDigits, Option.map_some, Option.some.injEq]
    omega

theorem decimal_injective {n m : Int} (h : decimal n = decimal m) : n = m := by
  have := readInt_decimal n
  rw [h, readInt_decimal] at this
  exact (Option.some.inj this).symm

/-! ## The reader -/

/-- The lines of a file, each with its end. -/
def readLines : Text → List Text
  | [] => []
  | c :: cs =>
      if c = '\n' then [c] :: readLines cs
      else match readLines cs with
        | [] => [[c]]
        | l :: ls => (c :: l) :: ls

/-- White space of Python: blank, tab, line feed, vertical tab, form feed, return. -/
def isSpace (c : Char) : Bool := c = ' ' || (9 ≤ c.toNat && c.toNat ≤ 13)

def rstrip (t : Text) : Text := t.rdropWhile isSpace

/-- A line of two fields. -/
def readEntry (line : Text) : Option (Text × Text) :=
  match line.splitOn ',' with
  | [key, v] => some (key, rstrip v)
  | _ => none

/-- The entries of a file in the order in which they are stored. -/
def readEntries (file : Text) : List (Text × Text) := (readLines file).filterMap readEntry

abbrev Entries := AList fun _ : Text => Text

def store (d : Entries) (es : List (Text × Text)) : Entries :=
  es.foldl (fun d e => d.insert e.1 e.2) d

def readStats (file : Text) : Entries := store ∅ (readEntries file)

/-- The last entry of a key wins. -/
theorem lookup_store (es : List (Text × Text)) (d : Entries) (k : Text) :
    (store d es).lookup k = (es.reverse.lookup k).or (d.lookup k) := by
  induction es generalizing d with
  | nil => rfl
  | cons e es ih =>
    obtain ⟨k', v⟩ := e
    have hcons : store d ((k', v) :: es) = store (d.insert k' v) es := rfl
    rw [hcons, ih, List.reverse_cons, List.lookup_append, Option.or_assoc]
    congr 1
    by_cases hk : k = k'
    · subst hk
      simp
    · have hbeq : (k == k') = false := beq_false_of_ne hk
      simp [AList.lookup_insert_ne hk, List.lookup_cons, hbeq]

theorem readLines_ne_nil {t : Text} (h : t ≠ []) : readLines t ≠ [] := by
  cases t with
  | nil => exact absurd rfl h
  | cons c t =>
    unfold readLines
    split
    · simp
    · split <;> simp

/-- What follows a line end is read as if it stood alone. -/
theorem readLines_append (a rest : Text) :
    readLines (a ++ '\n' :: rest) = readLines (a ++ ['\n']) ++ readLines rest := by
  induction a with
  | nil => simp [readLines]
  | cons c a ih =>
    simp only [List.cons_append, readLines]
    split
    · rw [ih, List.cons_append]
    · rw [ih]
      cases h : readLines (a ++ ['\n']) with
      | nil => exact absurd h (readLines_ne_nil (by simp))
      | cons l ls => rfl

theorem readLines_line {l : Text} (h : '\n' ∉ l) : readLines (l ++ ['\n']) = [l ++ ['\n']] := by
  induction l with
  | nil => rfl
  | cons c l ih =>
    have hc : c ≠ '\n' := fun hc => h (by simp [hc])
    have hl : '\n' ∉ l := fun hl => h (List.mem_cons_of_mem _ hl)
    simp [readLines, hc, ih hl]

/-! ## The writer -/

/-- A decimal number has no separator and no white space in it. -/
theorem mem_decimal {n : Int} {c : Char} (h : c ∈ decimal n) : c ≠ ',' ∧ isSpace c = false := by
  have hdigit : c ∈ Nat.toDigits 10 n.natAbs → c ≠ ',' ∧ isSpace c = false := by
    intro hc
    have hd := Nat.isDigit_of_mem_toDigits (by decide) (by decide) hc
    have h48 : 48 ≤ c.toNat := by
      simp only [Char.isDigit, Bool.and_eq_true, decide_eq_true_eq] at hd
      exact UInt32.le_iff_toNat_le.mp hd.1
    constructor
    · rintro rfl
      exact absurd h48 (by decide)
    · have hne : c ≠ ' ' := by
        rintro rfl
        exact absurd h48 (by decide)
      simp only [isSpace, hne, decide_false, Bool.false_or, Bool.and_eq_false_iff,
        decide_eq_false_iff_not]
      omega
  unfold decimal at h
  split at h
  · rcases List.mem_cons.mp h with rfl | h
    · decide
    · exact hdigit h
  · exact hdigit h

def csvLine (key v : Text) : Text := key ++ ',' :: (v ++ ['\n'])

theorem readEntries_append (key v rest : Text) :
    readEntries (csvLine key v ++ rest) = readEntries (csvLine key v) ++ readEntries rest := by
  have h := readLines_append (key ++ ',' :: v) rest
  simp only [List.append_assoc, List.cons_append] at h
  rw [readEntries, readEntries, readEntries, ← List.filterMap_append]
  congr 1
  simpa [csvLine] using h

theorem splitOn_csvLine {key : Text} (hk : ',' ∉ key) (v : Text) :
    (csvLine key v).splitOn ',' = key :: (v ++ ['\n']).splitOn ',' := by
  have hkey : ∀ c ∈ key, (c == ',') = false := by
    intro c hc
    refine beq_false_of_ne ?_
    rintro rfl
    exact hk hc
  rw [csvLine, List.splitOn, List.splitOn,
    List.splitOnP_append_cons_of_forall_mem hkey _ (by decide)]

theorem splitOn_line {v : Text} (hv : ',' ∉ v) : (v ++ ['\n']).splitOn ',' = [v ++ ['\n']] := by
  refine List.splitOnP_eq_singleton fun c hc => ?_
  rcases List.mem_append.mp hc with hc | hc
  · refine beq_false_of_ne ?_
    rintro rfl
    exact hv hc
  · rw [List.mem_singleton.mp hc]
    decide

theorem rstrip_line {v : Text} (hv : ∀ c ∈ v, isSpace c = false) : rstrip (v ++ ['\n']) = v := by
  rw [rstrip, List.rdropWhile_concat_pos _ _ _ (by decide), List.rdropWhile_eq_self_iff]
  intro hne
  rw [hv _ (List.getLast_mem hne)]
  decide

theorem readLines_csvLine {key v : Text} (hk : '\n' ∉ key) (hv : '\n' ∉ v) (rest : Text) :
    readLines (csvLine key v ++ rest) = csvLine key v :: readLines rest := by
  have hend : '\n' ∉ key ++ ',' :: v := by
    intro h
    rcases List.mem_append.mp h with h | h
    · exact hk h
    · rcases List.mem_cons.mp h with h | h
      · exact absurd h (by decide)
      · exact hv h
  have happend := readLines_append (key ++ ',' :: v) rest
  rw [readLines_line hend] at happend
  simpa [csvLine] using happend

/-- A line of a key and a value without separators and blanks is read back. -/
theorem readEntries_csvLine {key v : Text} (hk : ∀ c ∈ key, c ≠ ',' ∧ c ≠ '\n')
    (hv : ∀ c ∈ v, c ≠ ',' ∧ isSpace c = false) :
    readEntries (csvLine key v) = [(key, v)] := by
  have hcomma : ',' ∉ v := fun h => (hv _ h).1 rfl
  have hend : '\n' ∉ v := fun h => absurd (hv _ h).2 (by decide)
  have hlines : readLines (csvLine key v) = [csvLine key v] := by
    simpa [readLines] using readLines_csvLine (fun h => (hk _ h).2 rfl) hend []
  have hsplit : (csvLine key v).splitOn ',' = [key, v ++ ['\n']] := by
    rw [splitOn_csvLine (fun h => (hk _ h).1 rfl), splitOn_line hcomma]
  simp [readEntries, hlines, readEntry, hsplit, rstrip_line fun c hc => (hv c hc).2]

/-! ## The counters -/

/-- The counters of the summary pass, each an `int`. -/
structure Stats where
  functions : BitVec 32
  globals : BitVec 32
  bbs : BitVec 32
  insns : BitVec 32
  insnsNearbyDep : BitVec 32
  allocas : BitVec 32
  loads : BitVec 32
  loadsAlloca : BitVec 32
  loadsGlobals : BitVec 32
  stores : BitVec 32
  storesAlloca : BitVec 32
  storesGlobals : BitVec 32
  conditionalBranches : BitVec 32
  calls : BitVec 32
  gep : BitVec 32
  gepLoad : BitVec 32
  gepAlloca : BitVec 32
  gepGlobals : BitVec 32
  gepGep : BitVec 32
  loops : BitVec 32
  floats : BitVec 32
  deriving DecidableEq, Repr

/-- The members of `Stats`. -/
inductive Counter where
  | functions
  | globals
  | bbs
  | insns
  | insnsNearbyDep
  | allocas
  | loads
  | loadsAlloca
  | loadsGlobals
  | stores
  | storesAlloca
  | storesGlobals
  | conditionalBranches
  | calls
  | gep
  | gepLoad
  | gepAlloca
  | gepGlobals
  | gepGep
  | loops
  | floats
  deriving DecidableEq, Repr

def Stats.get (s : Stats) : Counter → BitVec 32
  | .functions => s.functions
  | .globals => s.globals
  | .bbs => s.bbs
  | .insns => s.insns
  | .insnsNearbyDep => s.insnsNearbyDep
  | .allocas => s.allocas
  | .loads => s.loads
  | .loadsAlloca => s.loadsAlloca
  | .loadsGlobals => s.loadsGlobals
  | .stores => s.stores
  | .storesAlloca => s.storesAlloca
  | .storesGlobals => s.storesGlobals
  | .conditionalBranches => s.conditionalBranches
  | .calls => s.calls
  | .gep => s.gep
  | .gepLoad => s.gepLoad
  | .gepAlloca => s.gepAlloca
  | .gepGlobals => s.gepGlobals
  | .gepGep => s.gepGep
  | .loops => s.loops
  | .floats => s.floats

/-- The lines that `print_csv_file` writes after the first one: key and counter. -/
def rows : List (Text × Counter) :=
  [("functions".toList, .functions),
   ("globals".toList, .globals),
   ("bbs".toList, .bbs),
   ("insns".toList, .insns),
   ("insns_nearby_dep".toList, .insnsNearbyDep),
   ("allocas".toList, .allocas),
   ("branches".toList, .conditionalBranches),
   ("calls".toList, .calls),
   ("loads".toList, .loads),
   ("loads_alloca".toList, .loadsAlloca),
   ("loads_globals".toList, .loadsGlobals),
   ("stores".toList, .stores),
   ("stores_alloca".toList, .storesAlloca),
   ("stores_global".toList, .storesGlobals),
   ("gep".toList, .gep),
   ("gep_alloca".toList, .gepLoad),
   ("gep_alloca".toList, .gepAlloca),
   ("gep_globals".toList, .gepGlobals),
   ("gep_gep".toList, .gepGep),
   ("loops".toList, .loops),
   ("floats".toList, .floats)]

/-- `print_csv_file`. -/
def printCsvFile (s : Stats) (id : Text) : Text :=
  csvLine "id".toList id ++ rows.flatMap fun r => csvLine r.1 (decimal (s.get r.2).toInt)

/-- The key that a counter is written under. -/
def key (c : Counter) : Text := ((rows.find? fun r => r.2 = c).map fun r => r.1).getD []

theorem readEntries_rows (s : Stats) (rs : List (Text × Counter))
    (h : ∀ r ∈ rs, ∀ c ∈ r.1, c ≠ ',' ∧ c ≠ '\n') :
    readEntries (rs.flatMap fun r => csvLine r.1 (decimal (s.get r.2).toInt)) =
      rs.map fun r => (r.1, decimal (s.get r.2).toInt) := by
  induction rs with
  | nil => rfl
  | cons r rs ih =>
    obtain ⟨hr, hrs⟩ := List.forall_mem_cons.mp h
    have hline := readEntries_csvLine hr (v := decimal (s.get r.2).toInt) fun _ => mem_decimal
    rw [List.flatMap_cons, readEntries_append, hline, ih hrs]
    rfl

/-- No key breaks its line. -/
theorem rows_plain : (rows.all fun r => r.1.all fun c => c != ',' && c != '\n') = true := by
  decide

/-- The counter whose line comes last under the key of `c`. -/
def Counter.kept : Counter → Counter
  | .gepLoad => .gepAlloca
  | c => c

theorem lookup_map_get (s : Stats) (rs : List (Text × Counter)) (k : Text) :
    (rs.map fun r => (r.1, decimal (s.get r.2).toInt)).lookup k =
      (rs.lookup k).map fun c => decimal (s.get c).toInt := by
  induction rs with
  | nil => rfl
  | cons r rs ih =>
    obtain ⟨k', c⟩ := r
    simp only [List.map_cons, List.lookup_cons]
    split
    · rfl
    · exact ih

/-- What the reader finds: the counter written last under the key, or what the id left. -/
theorem lookup_printCsvFile (s : Stats) (id k : Text) :
    (readStats (printCsvFile s id)).lookup k =
      ((rows.reverse.lookup k).map fun c => decimal (s.get c).toInt).or
        ((readEntries (csvLine "id".toList id)).reverse.lookup k) := by
  have hkeys := rows_plain
  simp only [List.all_eq_true, Bool.and_eq_true, bne_iff_ne] at hkeys
  rw [readStats, lookup_store, printCsvFile, readEntries_append, readEntries_rows s rows hkeys,
    List.reverse_append, List.lookup_append, ← List.map_reverse, lookup_map_get]
  simp

theorem lookup_key (c : Counter) : rows.reverse.lookup (key c) = some c.kept := by
  cases c <;> decide

/-- Whatever the id, a counter's key holds the value that was written last under it. -/
theorem readStats_printCsvFile (s : Stats) (id : Text) (c : Counter) :
    (readStats (printCsvFile s id)).lookup (key c) = some (decimal (s.get c.kept).toInt) := by
  rw [lookup_printCsvFile, lookup_key]
  rfl

theorem kept_of_lookup {k : Text} {c : Counter} (h : rows.reverse.lookup k = some c) :
    c ≠ .gepLoad := by
  rintro rfl
  obtain ⟨as, bs, hrows, -⟩ := List.lookup_eq_some_iff.mp h
  have hmem : (k, Counter.gepLoad) ∈ rows := by
    rw [← List.mem_reverse, hrows]
    simp
  have hk : ∀ r ∈ rows, r.2 = .gepLoad → r.1 = key .gepLoad := by decide
  have hkey : k = key .gepLoad := hk _ hmem rfl
  rw [hkey, lookup_key] at h
  exact absurd h (by decide)

/-- Nothing that is read from the file depends on `gep_load`. -/
theorem lookup_printCsvFile_gepLoad (s : Stats) (n : BitVec 32) (id k : Text) :
    (readStats (printCsvFile { s with gepLoad := n } id)).lookup k =
      (readStats (printCsvFile s id)).lookup k := by
  rw [lookup_printCsvFile, lookup_printCsvFile]
  cases h : rows.reverse.lookup k with
  | none => simp
  | some c =>
    have hget : Stats.get { s with gepLoad := n } c = s.get c := by
      cases c with
      | gepLoad => exact absurd rfl (kept_of_lookup h)
      | _ => rfl
    simp [hget]

/-- The file never keeps the counters apart: `gep_load` is written under the key of
`gep_alloca`, and its value is found there only if the two are equal. Every other
counter is found under its key. -/
theorem printCsvFile_loses_gepLoad (s : Stats) (id : Text) :
    ¬ ((∀ c c', key c = key c' → c = c') ∧
      ∀ c, (readStats (printCsvFile s id)).lookup (key c) = some (decimal (s.get c).toInt)) ∧
    ∀ c, (readStats (printCsvFile s id)).lookup (key c) = some (decimal (s.get c).toInt) ↔
      (c = .gepLoad → s.gepLoad = s.gepAlloca) := by
  constructor
  · rintro ⟨hinj, -⟩
    exact absurd (hinj .gepLoad .gepAlloca (by decide)) (by decide)
  · intro c
    rw [readStats_printCsvFile, Option.some.injEq]
    constructor
    · rintro h rfl
      exact (BitVec.eq_of_toInt_eq (decimal_injective h)).symm
    · intro h
      cases c <;> first | rfl | exact congrArg (fun n => decimal (BitVec.toInt n)) (h rfl).symm

/-- One load through a `getelementptr`, and nothing else. -/
theorem printCsvFile_not_recoverable :
    ¬ ∀ (s : Stats) (id : Text), (∀ c c', key c = key c' → c = c') ∧
      ∀ c, (readStats (printCsvFile s id)).lookup (key c) = some (decimal (s.get c).toInt) := by
  intro h
  have hload := (h ⟨1, 0, 1, 3, 0, 0, 0, 0, 0, 0, 0, 0, 0, 0, 1, 1, 0, 0, 0, 0, 0⟩ "main".toList).2
    .gepLoad
  rw [readStats_printCsvFile, Option.some.injEq] at hload
  exact absurd (decimal_injective hload) (by decide)

end CourseCompilers.Statistics
