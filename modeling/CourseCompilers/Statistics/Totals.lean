import CourseCompilers.Statistics.Csv
import Mathlib.Algebra.Ring.Int.Defs

/-! The totals that `stats.py` prints: a row for each category and a column for each
optimisation, the sum over its files. -/

namespace CourseCompilers.Statistics.Totals

inductive Error where
  | index
  | value
  | key
  deriving DecidableEq, Repr

abbrev Counts := AList fun _ : Text => Int

/-- `int` of a string: blanks around it, and perhaps a sign. -/
def int (t : Text) : Except Error Int :=
  let number := match rstrip (t.dropWhile isSpace) with
    | '+' :: ds => (readNat ds).map fun n : Nat => (n : Int)
    | t => readInt t
  match number with
  | some n => .ok n
  | none => .error .value

/-- `int(s[1])`. -/
def second (fields : List Text) : Except Error Int :=
  match fields[1]? with
  | some t => int t
  | none => .error .index

/-- A line of a file, on `stats` and `Ids`. -/
def addLine (d ids : Counts) (line : Text) : Except Error (Counts × Counts) := do
  let fields := line.splitOn ','
  let key := fields.headD []
  match d.lookup key with
  | some n =>
      let v ← second fields
      return (d.insert key (n + v), ids)
  | none =>
      if key = "id".toList then return (d, ids)
      else
        let v ← second fields
        return (d.insert key v, ids.insert key 0)

def addLines (d ids : Counts) : List Text → Except Error (Counts × Counts)
  | [] => return (d, ids)
  | line :: lines => do
      let (d, ids) ← addLine d ids line
      addLines d ids lines

/-- `Stats[opt][k] += n`, or the first of it. -/
def bump (d : Counts) (k : Text) (n : Int) : Counts :=
  match d.lookup k with
  | some m => d.insert k (m + n)
  | none => d.insert k n

/-- The loop over the keys of `stats`. -/
def merge (d : Counts) (es : List (Sigma fun _ : Text => Int)) : Counts :=
  es.foldl (fun d e => bump d e.1 e.2) d

/-- A statistics file, its name matched by the pattern of the names. -/
structure File where
  opt : Text
  text : Text

/-- `Stats` and `Ids`. -/
structure Table where
  stats : AList fun _ : Text => Counts
  ids : Counts

def Table.add (T : Table) (f : File) : Except Error Table := do
  let (d, ids) ← addLines ∅ T.ids (readLines f.text)
  return ⟨T.stats.insert f.opt (merge ((T.stats.lookup f.opt).getD ∅) d.entries), ids⟩

def Table.ofFiles (T : Table) : List File → Except Error Table
  | [] => return T
  | f :: fs => do
      let T ← T.add f
      T.ofFiles fs

/-- `Stats[k][i]`. -/
def Table.index (T : Table) (k i : Text) : Except Error Int :=
  match (T.stats.lookup k).bind fun d => d.lookup i with
  | some n => .ok n
  | none => .error .key

/-- The rows, the keys of `Ids` and of `Stats` in the orders of the two dictionaries. -/
def Table.report (T : Table) (is ks : List Text) : Except Error (List (Text × List Int)) :=
  is.mapM fun i => do
    let row ← ks.mapM fun k => T.index k i
    return (i, row)

/-! ## Sums -/

/-- The number under a key. -/
def value (d : Counts) (k : Text) : Int := (d.lookup k).getD 0

theorem mem_bump {d : Counts} {k i : Text} {n : Int} : i ∈ bump d k n ↔ i = k ∨ i ∈ d := by
  rw [bump]
  split <;> exact AList.mem_insert _

theorem value_bump (d : Counts) (k i : Text) (n : Int) :
    value (bump d k n) i = value d i + if i = k then n else 0 := by
  rw [bump]
  by_cases hik : i = k
  · subst hik
    cases h : d.lookup i <;> simp [value, h]
  · cases d.lookup k <;> simp [value, AList.lookup_insert_ne hik, hik]

/-- What the entries of a key add up to. -/
def sum (es : List (Text × Int)) (i : Text) : Int :=
  (es.map fun e => if i = e.1 then e.2 else 0).sum

def bumps (d : Counts) (es : List (Text × Int)) : Counts := es.foldl (fun d e => bump d e.1 e.2) d

theorem mem_bumps {d : Counts} {es : List (Text × Int)} {i : Text} :
    i ∈ bumps d es ↔ i ∈ es.map Prod.fst ∨ i ∈ d := by
  induction es generalizing d with
  | nil => simp [bumps]
  | cons e es ih =>
    have hcons : bumps d (e :: es) = bumps (bump d e.1 e.2) es := rfl
    rw [hcons, ih, mem_bump, List.map_cons, List.mem_cons]
    tauto

theorem value_bumps (d : Counts) (es : List (Text × Int)) (i : Text) :
    value (bumps d es) i = value d i + sum es i := by
  induction es generalizing d with
  | nil => simp [bumps, sum]
  | cons e es ih =>
    have hcons : bumps d (e :: es) = bumps (bump d e.1 e.2) es := rfl
    rw [hcons, ih, value_bump, sum, sum, List.map_cons, List.sum_cons, Int.add_assoc]

theorem merge_eq (d : Counts) (es : List (Sigma fun _ : Text => Int)) :
    merge d es = bumps d (es.map fun e => (e.1, e.2)) := by
  rw [merge, bumps, List.foldl_map]

/-- The entries of a dictionary have each key once. -/
theorem sum_entries {es : List (Sigma fun _ : Text => Int)} (h : es.NodupKeys) (i : Text) :
    sum (es.map fun e => (e.1, e.2)) i = (es.dlookup i).getD 0 := by
  induction es with
  | nil => rfl
  | cons e es ih =>
    obtain ⟨k, n⟩ := e
    obtain ⟨hk, hes⟩ := List.nodupKeys_cons.mp h
    have hcons : sum ((⟨k, n⟩ :: es).map fun e => (e.1, e.2)) i =
        (if i = k then n else 0) + sum (es.map fun e => (e.1, e.2)) i := rfl
    rw [hcons, ih hes]
    by_cases hik : i = k
    · subst hik
      rw [List.dlookup_eq_none.mpr hk, List.dlookup_cons_eq, if_pos rfl]
      simp
    · rw [if_neg hik, List.dlookup_cons_ne _ _ hik, Int.zero_add]

theorem value_merge (d d' : Counts) (i : Text) :
    value (merge d d'.entries) i = value d i + value d' i := by
  rw [merge_eq, value_bumps, sum_entries d'.nodupKeys]
  rfl

theorem mem_merge {d d' : Counts} {i : Text} : i ∈ merge d d'.entries ↔ i ∈ d' ∨ i ∈ d := by
  rw [merge_eq, mem_bumps, List.map_map]
  rfl

/-! ## The lines of `print_csv_file` -/

theorem int_decimal (n : Int) : int (decimal n ++ ['\n']) = .ok n := by
  have hspace : ∀ c ∈ decimal n, isSpace c = false := fun c hc => (mem_decimal hc).2
  have hne : decimal n ≠ [] := by
    intro h
    have hread := readInt_decimal n
    rw [h] at hread
    cases hread
  have hdrop : (decimal n ++ ['\n']).dropWhile isSpace = decimal n ++ ['\n'] := by
    obtain ⟨c, cs, hc⟩ := List.exists_cons_of_ne_nil hne
    rw [hc, List.cons_append, List.dropWhile_cons_of_neg]
    rw [hspace c (by simp [hc])]
    decide
  have hplus : ∀ ds, decimal n ≠ '+' :: ds := by
    intro ds h
    have hread := readInt_decimal n
    rw [h] at hread
    simp [readInt, readNat] at hread
  rw [int, hdrop, rstrip_line hspace]
  split
  · next m hm =>
    split at hm
    · next ds hds => exact absurd hds (hplus ds)
    · rw [readInt_decimal] at hm
      cases hm
      rfl
  · next hm =>
    split at hm
    · next ds hds => exact absurd hds (hplus ds)
    · rw [readInt_decimal] at hm
      cases hm

theorem addLine_header (ids : Counts) (id : Text) :
    addLine ∅ ids (csvLine "id".toList id) = .ok (∅, ids) := by
  rw [addLine, splitOn_csvLine (by decide)]
  rfl

theorem addLines_header {ids ids' d : Counts} {id : Text} {lines : List Text}
    (h : addLines ∅ ids lines = .ok (d, ids')) :
    addLines ∅ ids (csvLine "id".toList id :: lines) = .ok (d, ids') := by
  rw [addLines, addLine_header]
  exact h

/-- A line of a category adds its number. -/
theorem addLine_csvLine {key : Text} (hk : ',' ∉ key) (hid : key ≠ "id".toList) (n : Int)
    {d ids : Counts} (h : ∀ k ∈ d, k ∈ ids) :
    ∃ ids', addLine d ids (csvLine key (decimal n)) = .ok (bump d key n, ids') ∧
      ∀ i, i ∈ ids' ↔ i = key ∨ i ∈ ids := by
  have hcomma : ',' ∉ decimal n := fun hc => (mem_decimal hc).1 rfl
  have hfields : (csvLine key (decimal n)).splitOn ',' = [key, decimal n ++ ['\n']] := by
    rw [splitOn_csvLine hk, splitOn_line hcomma]
  have hsecond : second [key, decimal n ++ ['\n']] = .ok n := int_decimal n
  cases hd : d.lookup key with
  | some m =>
    have hkey : key ∈ ids := h key (AList.lookup_isSome.mp (by simp [hd]))
    refine ⟨ids, ?_, fun i => ⟨.inr, ?_⟩⟩
    · rw [addLine, hfields]
      simp only [List.headD_cons, hd, hsecond, bump]
      rfl
    · rintro (rfl | hi)
      · exact hkey
      · exact hi
  | none =>
    refine ⟨ids.insert key 0, ?_, fun i => AList.mem_insert _⟩
    rw [addLine, hfields]
    simp only [List.headD_cons, hd, hsecond, bump, if_neg hid]
    rfl

theorem addLines_csvLines {es : List (Text × Int)}
    (hes : ∀ e ∈ es, ',' ∉ e.1 ∧ e.1 ≠ "id".toList) {d ids : Counts} (h : ∀ k ∈ d, k ∈ ids) :
    ∃ ids', addLines d ids (es.map fun e => csvLine e.1 (decimal e.2)) = .ok (bumps d es, ids') ∧
      ∀ i, i ∈ ids' ↔ i ∈ es.map Prod.fst ∨ i ∈ ids := by
  induction es generalizing d ids with
  | nil => exact ⟨ids, rfl, by simp⟩
  | cons e es ih =>
    obtain ⟨⟨hcomma, hid⟩, hes⟩ := List.forall_mem_cons.mp hes
    obtain ⟨ids₁, hline, hids₁⟩ := addLine_csvLine hcomma hid e.2 h
    have hsub : ∀ k ∈ bump d e.1 e.2, k ∈ ids₁ := by
      intro k hk
      rw [hids₁]
      exact (mem_bump.mp hk).imp_right (h k)
    obtain ⟨ids₂, hlines, hids₂⟩ := ih hes hsub
    refine ⟨ids₂, ?_, fun i => ?_⟩
    · rw [List.map_cons, addLines, hline]
      exact hlines
    · rw [hids₂, hids₁, List.map_cons, List.mem_cons]
      tauto

theorem Table.add_eq {T : Table} {f : File} {d ids : Counts}
    (h : addLines ∅ T.ids (readLines f.text) = .ok (d, ids)) :
    T.add f =
      .ok ⟨T.stats.insert f.opt (merge ((T.stats.lookup f.opt).getD ∅) d.entries), ids⟩ := by
  rw [Table.add, h]
  rfl

/-! ## The totals of modules -/

/-- A module that was compiled with an optimisation, and its counters. -/
structure Run where
  opt : Text
  id : Text
  stats : Stats
  line : '\n' ∉ id

/-- The statistics file of a run. -/
def Run.file (r : Run) : File := ⟨r.opt, printCsvFile r.stats r.id⟩

/-- What is written under each key, in order; one key is written twice. -/
def counts (s : Stats) : List (Text × Int) := rows.map fun r => (r.1, (s.get r.2).toInt)

/-- The sum of what the files of an optimisation hold under a key. -/
def total (rs : List Run) (k i : Text) : Int :=
  (rs.map fun r => if k = r.opt then sum (counts r.stats) i else 0).sum

theorem rows_keys : ∀ r ∈ rows, ',' ∉ r.1 ∧ r.1 ≠ "id".toList ∧ '\n' ∉ r.1 := by
  decide

theorem counts_keys (s : Stats) :
    ∀ e ∈ counts s, ',' ∉ e.1 ∧ e.1 ≠ "id".toList ∧ '\n' ∉ e.1 := by
  intro e he
  obtain ⟨r, hr, rfl⟩ := List.mem_map.mp he
  exact rows_keys r hr

theorem map_fst_counts (s : Stats) : (counts s).map Prod.fst = rows.map Prod.fst := by
  rw [counts, List.map_map]
  rfl

theorem readLines_counts {es : List (Text × Int)} (hes : ∀ e ∈ es, '\n' ∉ e.1) :
    readLines (es.flatMap fun e => csvLine e.1 (decimal e.2)) =
      es.map fun e => csvLine e.1 (decimal e.2) := by
  induction es with
  | nil => rfl
  | cons e es ih =>
    obtain ⟨he, hes⟩ := List.forall_mem_cons.mp hes
    have hv : '\n' ∉ decimal e.2 := fun h => absurd (mem_decimal h).2 (by decide)
    rw [List.flatMap_cons, readLines_csvLine he hv, ih hes, List.map_cons]

theorem Run.readLines_file (r : Run) : readLines r.file.text =
    csvLine "id".toList r.id :: (counts r.stats).map fun e => csvLine e.1 (decimal e.2) := by
  have hcounts : (rows.flatMap fun x => csvLine x.1 (decimal (r.stats.get x.2).toInt)) =
      (counts r.stats).flatMap fun e => csvLine e.1 (decimal e.2) := by
    rw [counts, List.flatMap_map]
  rw [file, printCsvFile, readLines_csvLine (by decide) r.line, hcounts,
    readLines_counts fun e he => (counts_keys _ e he).2.2]

theorem Run.addLines_file (r : Run) (ids : Counts) :
    ∃ ids', addLines ∅ ids (readLines r.file.text) = .ok (bumps ∅ (counts r.stats), ids') ∧
      ∀ i, i ∈ ids' ↔ i ∈ rows.map Prod.fst ∨ i ∈ ids := by
  have hkeys : ∀ e ∈ counts r.stats, ',' ∉ e.1 ∧ e.1 ≠ "id".toList :=
    fun e he => ⟨(counts_keys _ e he).1, (counts_keys _ e he).2.1⟩
  have hempty : ∀ k ∈ (∅ : Counts), k ∈ ids := fun k hk => absurd hk (AList.notMem_empty k)
  obtain ⟨ids', hlines, hids⟩ := addLines_csvLines hkeys hempty
  rw [map_fst_counts] at hids
  refine ⟨ids', ?_, hids⟩
  rw [r.readLines_file]
  exact addLines_header hlines

/-- What the table holds after the files of the runs. -/
structure Table.Sums (T : Table) (rs : List Run) : Prop where
  opts : ∀ k, k ∈ T.stats ↔ ∃ r ∈ rs, r.opt = k
  ids : ∀ i, i ∈ T.ids ↔ rs ≠ [] ∧ i ∈ rows.map Prod.fst
  keys : ∀ k d, T.stats.lookup k = some d → ∀ i ∈ rows.map Prod.fst, i ∈ d
  values : ∀ k i, value ((T.stats.lookup k).getD ∅) i = total rs k i

theorem total_snoc (rs : List Run) (r : Run) (k i : Text) :
    total (rs ++ [r]) k i = total rs k i + if k = r.opt then sum (counts r.stats) i else 0 := by
  simp [total]

theorem Table.Sums.add {T : Table} {rs : List Run} (h : T.Sums rs) (r : Run) :
    ∃ T', T.add r.file = .ok T' ∧ T'.Sums (rs ++ [r]) := by
  obtain ⟨ids, hread, hids⟩ := r.addLines_file T.ids
  refine ⟨⟨T.stats.insert r.opt (merge ((T.stats.lookup r.opt).getD ∅)
    (bumps ∅ (counts r.stats)).entries), ids⟩, Table.add_eq hread, ?_, ?_, ?_, ?_⟩
  · intro k
    rw [AList.mem_insert, h.opts]
    simp only [List.mem_append, List.mem_singleton]
    constructor
    · rintro (rfl | ⟨r', hr', rfl⟩)
      · exact ⟨r, .inr rfl, rfl⟩
      · exact ⟨r', .inl hr', rfl⟩
    · rintro ⟨r', hr' | rfl, rfl⟩
      · exact .inr ⟨r', hr', rfl⟩
      · exact .inl rfl
  · intro i
    rw [hids, h.ids]
    simp only [ne_eq, List.append_eq_nil_iff, List.cons_ne_nil, and_false, not_false_eq_true,
      true_and]
    tauto
  · intro k d hd i hi
    by_cases hk : k = r.opt
    · subst hk
      rw [AList.lookup_insert, Option.some.injEq] at hd
      rw [← hd, mem_merge, mem_bumps, map_fst_counts]
      exact .inl (.inl hi)
    · rw [AList.lookup_insert_ne hk] at hd
      exact h.keys k d hd i hi
  · intro k i
    rw [total_snoc, ← h.values]
    by_cases hk : k = r.opt
    · subst hk
      rw [AList.lookup_insert, Option.getD_some, value_merge, value_bumps, if_pos rfl]
      simp [value]
    · rw [AList.lookup_insert_ne hk, if_neg hk, Int.add_zero]

theorem Table.Sums.ofFiles {T : Table} {rs : List Run} (h : T.Sums rs) (rs' : List Run) :
    ∃ T', T.ofFiles (rs'.map Run.file) = .ok T' ∧ T'.Sums (rs ++ rs') := by
  induction rs' generalizing T rs with
  | nil => exact ⟨T, rfl, by simpa using h⟩
  | cons r rs' ih =>
    obtain ⟨T₁, hadd, hT₁⟩ := h.add r
    obtain ⟨T₂, hfiles, hT₂⟩ := ih hT₁
    refine ⟨T₂, ?_, by simpa using hT₂⟩
    rw [List.map_cons, Table.ofFiles, hadd]
    exact hfiles

theorem Table.Sums.empty : Table.Sums ⟨∅, ∅⟩ [] where
  opts k := by simp
  ids i := by simp
  keys k d hd := by simp at hd
  values k i := by simp [value, total]

theorem mapM_ok {α β : Type} {f : α → Except Error β} {g : α → β} {l : List α}
    (h : ∀ a ∈ l, f a = .ok (g a)) : l.mapM f = .ok (l.map g) := by
  induction l with
  | nil => rfl
  | cons a l ih =>
    obtain ⟨ha, hl⟩ := List.forall_mem_cons.mp h
    rw [List.mapM_cons, ha, ih hl]
    rfl

theorem Table.Sums.index {T : Table} {rs : List Run} (h : T.Sums rs) {k i : Text}
    (hk : k ∈ T.stats) (hi : i ∈ T.ids) : T.index k i = .ok (total rs k i) := by
  obtain ⟨d, hd⟩ := Option.isSome_iff_exists.mp (AList.lookup_isSome.mpr hk)
  have hmem : i ∈ d := h.keys k d hd i ((h.ids i).mp hi).2
  obtain ⟨n, hn⟩ := Option.isSome_iff_exists.mp (AList.lookup_isSome.mpr hmem)
  rw [← h.values, hd, Option.getD_some, value, Table.index, hd]
  simp [hn]

/-- On files of the summary pass `stats.py` prints a table, whatever the order of its
dictionaries: in each row and column the sum of what the optimisation's files hold. -/
theorem report_totals (rs : List Run) :
    ∃ T, Table.ofFiles ⟨∅, ∅⟩ (rs.map Run.file) = .ok T ∧
      (∀ k, k ∈ T.stats ↔ ∃ r ∈ rs, r.opt = k) ∧
      (∀ i, i ∈ T.ids ↔ rs ≠ [] ∧ i ∈ rows.map Prod.fst) ∧
      ∀ is ks : List Text, is.Perm T.ids.keys → ks.Perm T.stats.keys →
        T.report is ks = .ok (is.map fun i => (i, ks.map fun k => total rs k i)) := by
  obtain ⟨T, hfiles, hT⟩ := Table.Sums.empty.ofFiles rs
  rw [List.nil_append] at hT
  refine ⟨T, hfiles, hT.opts, hT.ids, fun is ks his hks => mapM_ok fun i hi => ?_⟩
  have hrow : ks.mapM (fun k => T.index k i) = .ok (ks.map fun k => total rs k i) :=
    mapM_ok fun k hk => hT.index (AList.mem_keys.mpr (hks.mem_iff.mp hk))
      (AList.mem_keys.mpr (his.mem_iff.mp hi))
  rw [hrow]
  rfl

end CourseCompilers.Statistics.Totals
