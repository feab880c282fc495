import CourseCompilers.Statistics.Csv

/-! The table that `fullstats.py` prints: a row for each benchmark and a column for each
optimisation, with `-N` divided by the column `None`. The values are the strings of the
files; in Python 2 a string is greater than any number. -/

namespace CourseCompilers.Statistics

/-- A statistics file, its values decimal integers. -/
structure File where
  name : Text
  opt : Text
  text : Text
  decimal : ∀ e ∈ readEntries text, (readInt e.2).isSome

/-- One optimisation: the benchmarks that were run with it. -/
abbrev Column := AList fun _ : Text => Entries

/-- `Stats` and `Ids`. -/
structure Table where
  stats : AList fun _ : Text => Column
  ids : AList fun _ : Text => Nat

namespace Table

/-- Read one file. -/
def add (T : Table) (f : File) : Table :=
  let column := (T.stats.lookup f.opt).getD ∅
  let entries := (column.lookup f.name).getD ∅
  { stats := T.stats.insert f.opt (column.insert f.name (store entries (readEntries f.text)))
    ids := T.ids.insert f.name 1 }

def ofFiles (fs : List File) : Table := fs.foldl add ⟨∅, ∅⟩

/-- `keys`. -/
def columns (T : Table) : List Text := T.stats.keys.mergeSort fun a b => decide (a ≤ b)

def benchs (T : Table) : List Text := T.ids.keys.mergeSort fun a b => decide (a ≤ b)

end Table

/-! ## The reporting loop -/

inductive Error where
  | key
  | zeroDivision
  | value
  deriving DecidableEq, Repr

inductive Obj where
  | int (n : Int)
  | str (t : Text)
  deriving DecidableEq, Repr

/-- `>` of Python 2: objects of different types compare by the names of the types. -/
def Obj.gt : Obj → Obj → Bool
  | .int n, .int m => m < n
  | .str s, .str t => t < s
  | .str _, .int _ => true
  | .int _, .str _ => false

def index {α : Type} (d : AList fun _ : Text => α) (k : Text) : Except Error α :=
  match d.lookup k with
  | some a => .ok a
  | none => .error .key

/-- `float` of a decimal integer string. Rounding makes no number zero. -/
def float (t : Text) : Except Error Int :=
  match readInt t with
  | some n => .ok n
  | none => .error .value

inductive Cell where
  | missing
  | raw (t : Text)
  | x
  | ratio (n m : Int)
  deriving DecidableEq, Repr

def baseline : Text := "None".toList

/-- A cell of the table with `-N`. -/
def normalized (T : Table) (field i v : Text) : Except Error Cell := do
  let column ← index T.stats baseline
  let entries ← index column i
  let base ← index entries field
  if Obj.gt (.str base) (.int 0) then
    let n ← float v
    let m ← float base
    if m = 0 then .error .zeroDivision else return .ratio n m
  else return .x

def cell (T : Table) (normalize : Bool) (field i k : Text) : Except Error Cell := do
  let column ← index T.stats k
  match column.lookup i with
  | none => return .missing
  | some entries =>
      match entries.lookup field with
      | none => return .missing
      | some v =>
          if normalize && (T.stats.lookup baseline).isSome then normalized T field i v
          else return .raw v

/-- The rows that are printed, or the exception that ends the script. -/
def report (T : Table) (normalize : Bool) (field : Text) :
    Except Error (List (Text × List Cell)) :=
  T.benchs.mapM fun i => do
    let row ← T.columns.mapM (cell T normalize field i)
    return (i, row)

/-! ## When the table is printed -/

/-- `Stats[k][i][field]`. -/
def Table.value (T : Table) (k i field : Text) : Option Text := do
  let column ← T.stats.lookup k
  let entries ← column.lookup i
  entries.lookup field

/-- What reading the files establishes. -/
structure Table.Valid (T : Table) : Prop where
  listed : ∀ {k i field v}, T.value k i field = some v → i ∈ T.ids
  decimal : ∀ {k i field v}, T.value k i field = some v → (readInt v).isSome

theorem Table.mem_of_value {T : Table} {k i field v : Text} (h : T.value k i field = some v) :
    k ∈ T.stats := by
  obtain ⟨column, hcolumn, -⟩ := Option.bind_eq_some_iff.mp h
  exact AList.lookup_isSome.mp (by simp [hcolumn])

theorem Table.value_add (T : Table) (f : File) (k i field : Text) :
    (T.add f).value k i field =
      if k = f.opt ∧ i = f.name then
        ((readEntries f.text).reverse.lookup field).or (T.value k i field)
      else T.value k i field := by
  by_cases hk : k = f.opt
  · subst hk
    have hold : T.value f.opt i field =
        (((T.stats.lookup f.opt).getD ∅).lookup i).bind fun entries => entries.lookup field := by
      cases h : T.stats.lookup f.opt <;> simp [value, h]
    by_cases hi : i = f.name
    · subst hi
      rw [if_pos ⟨rfl, rfl⟩, hold]
      cases h : ((T.stats.lookup f.opt).getD ∅).lookup f.name <;>
        simp [value, add, lookup_store, h]
    · rw [if_neg fun h => hi h.2, hold]
      simp [value, add, AList.lookup_insert_ne hi]
  · rw [if_neg fun h => hk h.1]
    simp [value, add, AList.lookup_insert_ne hk]

theorem Table.Valid.add {T : Table} (h : T.Valid) (f : File) : (T.add f).Valid where
  listed := by
    intro k i field v hv
    rw [Table.value_add] at hv
    refine (AList.mem_insert _).mpr ?_
    split at hv
    · next hki => exact .inl hki.2
    · exact .inr (h.listed hv)
  decimal := by
    intro k i field v hv
    rw [Table.value_add] at hv
    split at hv
    · rcases Option.or_eq_some_iff.mp hv with hv | ⟨-, hv⟩
      · obtain ⟨as, bs, hes, -⟩ := List.lookup_eq_some_iff.mp hv
        refine f.decimal (field, v) ?_
        rw [← List.mem_reverse, hes]
        simp
      · exact h.decimal hv
    · exact h.decimal hv

theorem Table.valid_ofFiles (fs : List File) : (Table.ofFiles fs).Valid := by
  have hempty : (⟨∅, ∅⟩ : Table).Valid :=
    ⟨fun h => by simp [Table.value] at h, fun h => by simp [Table.value] at h⟩
  have hrun : ∀ (fs : List File) (T : Table), T.Valid → (fs.foldl Table.add T).Valid := by
    intro fs
    induction fs with
    | nil => exact fun T h => h
    | cons f fs ih => exact fun T h => ih (T.add f) (h.add f)
  exact hrun fs _ hempty

/-- Where a benchmark has the field, the column `None` has it too, and not zero. -/
def Printable (T : Table) (field : Text) : Prop :=
  baseline ∈ T.stats → ∀ k i v, T.value k i field = some v →
    ∃ b, T.value baseline i field = some b ∧ readInt b ≠ some 0

section
variable {α β : Type}

@[simp] theorem ok_bind (a : α) (f : α → Except Error β) : (Except.ok a >>= f) = f a := rfl

@[simp] theorem error_bind (e : Error) (f : α → Except Error β) :
    (Except.error e >>= f) = .error e := rfl

@[simp] theorem pure_eq_ok (a : α) : (pure a : Except Error α) = .ok a := rfl

theorem mapM_ok_iff {f : α → Except Error β} (xs : List α) :
    (∃ ys, xs.mapM f = .ok ys) ↔ ∀ x ∈ xs, ∃ y, f x = .ok y := by
  induction xs with
  | nil => simp
  | cons x xs ih =>
    rw [List.forall_mem_cons, ← ih, List.mapM_cons]
    cases hx : f x with
    | error e => simp
    | ok y => cases xs.mapM f <;> simp

end

variable {T : Table} {field i k v : Text}

theorem normalized_of_none (h : T.value baseline i field = none) :
    normalized T field i v = .error .key := by
  unfold Table.value at h
  unfold normalized index
  cases hc : T.stats.lookup baseline with
  | none => simp
  | some column =>
    cases he : column.lookup i with
    | none => simp [he]
    | some entries =>
      have hf : entries.lookup field = none := by simpa [hc, he] using h
      simp [he, hf]

theorem normalized_of_value {b : Text} {n m : Int} (h : T.value baseline i field = some b)
    (hn : readInt v = some n) (hm : readInt b = some m) :
    normalized T field i v = if m = 0 then .error .zeroDivision else .ok (.ratio n m) := by
  obtain ⟨column, hc, h⟩ := Option.bind_eq_some_iff.mp h
  obtain ⟨entries, he, h⟩ := Option.bind_eq_some_iff.mp h
  simp [normalized, index, float, hc, he, h, hn, hm, Obj.gt]

/-- A quotient is printed if and only if the baseline has the field, and not zero. -/
theorem normalized_ok_iff (hT : T.Valid) (hv : (readInt v).isSome) :
    (∃ c, normalized T field i v = .ok c) ↔
      ∃ b, T.value baseline i field = some b ∧ readInt b ≠ some 0 := by
  cases hb : T.value baseline i field with
  | none => simp [normalized_of_none hb]
  | some b =>
    obtain ⟨n, hn⟩ := Option.isSome_iff_exists.mp hv
    obtain ⟨m, hm⟩ := Option.isSome_iff_exists.mp (hT.decimal hb)
    rw [normalized_of_value hb hn hm]
    by_cases h0 : m = 0
    · simp [h0, hm]
    · simp [h0, hm]

theorem cell_ok_iff (hT : T.Valid) (hk : k ∈ T.stats) :
    (∃ c, cell T true field i k = .ok c) ↔ (baseline ∈ T.stats → ∀ v, T.value k i field = some v →
      ∃ b, T.value baseline i field = some b ∧ readInt b ≠ some 0) := by
  obtain ⟨column, hc⟩ := Option.isSome_iff_exists.mp (AList.lookup_isSome.mpr hk)
  cases he : column.lookup i with
  | none => simp [cell, index, hc, he, Table.value]
  | some entries =>
    have hvalue : T.value k i field = entries.lookup field := by simp [Table.value, hc, he]
    cases hf : entries.lookup field with
    | none => simp [cell, index, hc, he, hf, hvalue]
    | some v =>
      rw [hf] at hvalue
      have hn : (∃ c, normalized T field i v = .ok c) ↔ _ :=
        normalized_ok_iff hT (hT.decimal hvalue)
      by_cases hb : baseline ∈ T.stats
      · have hsome := AList.lookup_isSome.mpr hb
        simp [cell, index, hc, he, hf, hvalue, hsome, hb, hn]
      · have hnone := AList.lookup_eq_none.mpr hb
        simp [cell, index, hc, he, hf, hnone, hb]

theorem report_ok_iff (T : Table) (normalize : Bool) (field : Text) :
    (∃ rows, report T normalize field = .ok rows) ↔
      ∀ i ∈ T.ids, ∀ k ∈ T.stats, ∃ c, cell T normalize field i k = .ok c := by
  have hrow : ∀ i, (∃ r, (do
      let row ← T.columns.mapM (cell T normalize field i)
      return (i, row) : Except Error (Text × List Cell)) = .ok r) ↔
        ∀ k ∈ T.stats, ∃ c, cell T normalize field i k = .ok c := by
    intro i
    have hcells := mapM_ok_iff (f := cell T normalize field i) T.columns
    simp only [Table.columns, List.mem_mergeSort, AList.mem_keys] at hcells ⊢
    rw [← hcells]
    cases (T.stats.keys.mergeSort fun a b => decide (a ≤ b)).mapM (cell T normalize field i) <;>
      simp
  rw [report, mapM_ok_iff]
  simp only [hrow, Table.benchs, List.mem_mergeSort, ← AList.mem_keys]

/-- With `-N` the whole table is printed if and only if no file is a baseline or the
baseline has, and has not as zero, every field that is divided by it. -/
theorem report_normalized_ok_iff (fs : List File) (field : Text) :
    (∃ rows, report (.ofFiles fs) true field = .ok rows) ↔ Printable (.ofFiles fs) field := by
  have hT := Table.valid_ofFiles fs
  rw [report_ok_iff]
  constructor
  · intro h hb k i v hv
    exact (cell_ok_iff hT (Table.mem_of_value hv)).mp (h i (hT.listed hv) k (Table.mem_of_value hv))
      hb v hv
  · intro h i _ k hk
    exact (cell_ok_iff hT hk).mpr fun hb v hv => h hb k i v hv

/-- A baseline that counts no floats. -/
def zeroBaseline : File where
  name := "bzip2".toList
  opt := baseline
  text := "insns,120\nfloats,0\n".toList
  decimal := by decide

/-- The string `"0"` passes for greater than zero, and the quotient is by zero. -/
theorem report_divides_by_zero :
    ¬ ∀ fs : List File, fs ≠ [] → ∀ field, ∃ rows, report (.ofFiles fs) true field = .ok rows := by
  intro h
  have hcells := (report_ok_iff _ _ _).mp (h [zeroBaseline] (by simp) "floats".toList)
  obtain ⟨c, hc⟩ := hcells "bzip2".toList (by decide) baseline (by decide)
  have herror : cell (.ofFiles [zeroBaseline]) true "floats".toList "bzip2".toList baseline =
      .error .zeroDivision := by decide
  rw [herror] at hc
  cases hc

end CourseCompilers.Statistics
