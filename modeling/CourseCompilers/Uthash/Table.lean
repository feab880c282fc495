import Mathlib.Data.Nat.Bitwise
import Mathlib.Data.List.Basic
import Mathlib.Logic.Function.Basic

/-! The hash table of `uthash.h`: `HASH_ADD_KEYPTR`, `HASH_FIND` and the bucket
expansion they trigger. Elements are chained at the front of their bucket, a
bucket that grows past its threshold doubles the number of buckets, and the
chains are re-threaded while they are walked from the front. The
application-order list (`prev`, `next`, `tail`) is never read by a lookup and is
left out; `malloc` does not fail. -/

namespace CourseCompilers.Uthash

/-- A user element with its hash handle. -/
structure Elt (K V : Type) where
  key : K
  hashv : Nat
  val : V
  deriving DecidableEq, Repr

/-- `UT_hash_bucket`; `chain` lists the elements from `hh_head` on. -/
structure Bucket (K V : Type) where
  chain : List (Elt K V)
  count : Nat
  expandMult : Nat

/-- `UT_hash_table`. The bucket array is zeroed when it is allocated. -/
structure Table (K V : Type) where
  buckets : Nat → Bucket K V
  numBuckets : Nat
  log2NumBuckets : Nat
  numItems : Nat
  idealChainMaxlen : Nat
  nonidealItems : Nat
  ineffExpands : Nat
  noexpand : Bool

variable {K V : Type}

def Bucket.empty : Bucket K V := ⟨[], 0, 0⟩

/-- `HASH_BKT_CAPACITY_THRESH`. -/
def bktCapacityThresh : Nat := 10

/-- `HASH_MAKE_TABLE`. -/
def Table.make : Table K V := ⟨fun _ => .empty, 32, 5, 0, 0, 0, 0, false⟩

/-- `HASH_TO_BKT`. -/
def toBkt (hashv numBkts : Nat) : Nat := hashv &&& (numBkts - 1)

/-- The body of the loop of `HASH_EXPAND_BUCKETS`: move one element to the front
of its new bucket. The second component counts the items past the ideal length. -/
def rehash (ideal numBkts : Nat) (acc : (Nat → Bucket K V) × Nat) (e : Elt K V) :
    (Nat → Bucket K V) × Nat :=
  let b := toBkt e.hashv numBkts
  let bkt := acc.1 b
  let count := bkt.count + 1
  if count > ideal then
    (Function.update acc.1 b ⟨e :: bkt.chain, count, count / ideal⟩, acc.2 + 1)
  else
    (Function.update acc.1 b ⟨e :: bkt.chain, count, bkt.expandMult⟩, acc.2)

/-- The elements in the order `HASH_EXPAND_BUCKETS` walks over them. -/
def Table.elements (t : Table K V) : List (Elt K V) :=
  (List.range t.numBuckets).flatMap fun i => (t.buckets i).chain

/-- `HASH_EXPAND_BUCKETS`. -/
def Table.expandBuckets (t : Table K V) : Table K V :=
  let ideal := (t.numItems >>> (t.log2NumBuckets + 1)) +
    (if t.numItems &&& (t.numBuckets * 2 - 1) ≠ 0 then 1 else 0)
  let (newBuckets, nonideal) :=
    t.elements.foldl (rehash ideal (t.numBuckets * 2)) (fun _ => .empty, 0)
  let ineff := if nonideal > t.numItems >>> 1 then t.ineffExpands + 1 else 0
  { buckets := newBuckets
    numBuckets := t.numBuckets * 2
    log2NumBuckets := t.log2NumBuckets + 1
    numItems := t.numItems
    idealChainMaxlen := ideal
    nonidealItems := nonideal
    ineffExpands := ineff
    noexpand := t.noexpand || decide (ineff > 1) }

/-- `HASH_ADD_TO_BKT` up to its test: the element is at the front of bucket `b`. -/
def Table.link (t : Table K V) (b : Nat) (e : Elt K V) : Table K V :=
  let bkt := t.buckets b
  let bkt' : Bucket K V := ⟨e :: bkt.chain, bkt.count + 1, bkt.expandMult⟩
  { t with buckets := Function.update t.buckets b bkt' }

/-- The test of `HASH_ADD_TO_BKT`. -/
def Table.full (t : Table K V) (b : Nat) : Bool :=
  decide ((t.buckets b).count ≥ ((t.buckets b).expandMult + 1) * bktCapacityThresh) && !t.noexpand

/-- A `head` pointer; `none` is the null pointer of an empty table. -/
abbrev Head (K V : Type) := Option (Table K V)

/-- The table of `head`, made by `HASH_ADD_KEYPTR` if there is none yet. -/
def tableOf (head : Head K V) : Table K V := head.getD .make

variable (hash : K → Nat)

def bktOf (t : Table K V) (k : K) : Nat := toBkt (hash k) t.numBuckets

/-- `HASH_ADD_KEYPTR` before the test that may expand the buckets. -/
def linked (head : Head K V) (k : K) (v : V) : Table K V :=
  let t := tableOf head
  { t with numItems := t.numItems + 1 }.link (bktOf hash t k) ⟨k, hash k, v⟩

/-- Adding `k` to this table expands its buckets. The test reads counters only. -/
def expands (head : Head K V) (k : K) : Bool :=
  let t := tableOf head
  let bkt := t.buckets (bktOf hash t k)
  decide (bkt.count + 1 ≥ (bkt.expandMult + 1) * bktCapacityThresh) && !t.noexpand

/-- `HASH_ADD_KEYPTR`. -/
def add (head : Head K V) (k : K) (v : V) : Head K V :=
  let t := linked hash head k v
  some (if t.full (bktOf hash t k) then t.expandBuckets else t)

/-- `HASH_FIND`: the first element of the bucket's chain with an equal key. -/
def find [DecidableEq K] (head : Head K V) (k : K) : Option V :=
  match head with
  | none => none
  | some t => ((t.buckets (bktOf hash t k)).chain.find? fun e => e.key = k).map Elt.val

theorem expands_eq_full (head : Head K V) (k : K) (v : V) :
    (linked hash head k v).full (bktOf hash (linked hash head k v) k) = expands hash head k := by
  simp [linked, Table.full, Table.link, expands, bktOf]

/-! ## The values stored under a key -/

/-- Every element sits in the bucket its hash value selects. -/
structure Table.WF (t : Table K V) : Prop where
  numBuckets : t.numBuckets = 2 ^ t.log2NumBuckets
  hashv : ∀ b, ∀ e ∈ (t.buckets b).chain, e.hashv = hash e.key
  bkt : ∀ b, ∀ e ∈ (t.buckets b).chain, toBkt e.hashv t.numBuckets = b

theorem Table.make_WF : (Table.make : Table K V).WF hash := by
  refine ⟨rfl, ?_, ?_⟩ <;> simp [make, Bucket.empty]

/-- The values under `k` in the order a lookup meets them. -/
def Table.valuesAt [DecidableEq K] (t : Table K V) (k : K) : List V :=
  ((t.buckets (bktOf hash t k)).chain.filter fun e => e.key = k).map Elt.val

def valuesAt [DecidableEq K] (head : Head K V) (k : K) : List V := (tableOf head).valuesAt hash k

theorem toBkt_lt {hashv n k : Nat} (h : n = 2 ^ k) : toBkt hashv n < n := by
  rw [h, toBkt, Nat.and_two_pow_sub_one_eq_mod]
  exact Nat.mod_lt _ (Nat.two_pow_pos k)

theorem rehash_chain (ideal n : Nat) (acc : (Nat → Bucket K V) × Nat) (e : Elt K V) (b : Nat) :
    ((rehash ideal n acc e).1 b).chain =
      if toBkt e.hashv n = b then e :: (acc.1 b).chain else (acc.1 b).chain := by
  by_cases h : toBkt e.hashv n = b
  · subst h
    simp only [rehash, ↓reduceIte]
    split <;> simp
  · simp only [rehash, h, ↓reduceIte]
    split <;> simp [Function.update_of_ne (Ne.symm h)]

/-- Re-threading a list of elements reverses what it puts into each bucket. -/
theorem foldl_rehash_chain (ideal n : Nat) (es : List (Elt K V))
    (acc : (Nat → Bucket K V) × Nat) (b : Nat) :
    ((es.foldl (rehash ideal n) acc).1 b).chain =
      (es.filter fun e => toBkt e.hashv n = b).reverse ++ (acc.1 b).chain := by
  induction es generalizing acc with
  | nil => rfl
  | cons e es ih =>
    rw [List.foldl_cons, ih, rehash_chain]
    by_cases h : toBkt e.hashv n = b <;> simp [h]

theorem expandBuckets_chain (t : Table K V) (b : Nat) :
    (t.expandBuckets.buckets b).chain =
      (t.elements.filter fun e => toBkt e.hashv (t.numBuckets * 2) = b).reverse := by
  have h := foldl_rehash_chain
    ((t.numItems >>> (t.log2NumBuckets + 1)) +
      (if t.numItems &&& (t.numBuckets * 2 - 1) ≠ 0 then 1 else 0))
    (t.numBuckets * 2) t.elements (fun _ => Bucket.empty, 0) b
  rw [show ((fun _ => Bucket.empty, 0) : (Nat → Bucket K V) × Nat).1 b = Bucket.empty from rfl,
    Bucket.empty, List.append_nil] at h
  exact h

theorem mem_elements {t : Table K V} {e : Elt K V} :
    e ∈ t.elements ↔ ∃ b < t.numBuckets, e ∈ (t.buckets b).chain := by
  simp [Table.elements]

variable {hash}

theorem Table.WF.expandBuckets {t : Table K V} (h : t.WF hash) : t.expandBuckets.WF hash := by
  refine ⟨?_, ?_, ?_⟩
  · simp [Table.expandBuckets, h.numBuckets, Nat.pow_succ]
  · intro b e he
    rw [expandBuckets_chain, List.mem_reverse, List.mem_filter, mem_elements] at he
    obtain ⟨⟨b', _, he⟩, _⟩ := he
    exact h.hashv b' e he
  · intro b e he
    rw [expandBuckets_chain, List.mem_reverse, List.mem_filter] at he
    simpa [Table.expandBuckets] using he.2

theorem Table.WF.linked {head : Head K V} (h : (tableOf head).WF hash) (k : K) (v : V) :
    (linked hash head k v).WF hash := by
  refine ⟨h.numBuckets, ?_, ?_⟩
  · intro b e he
    by_cases hb : b = bktOf hash (tableOf head) k
    · subst hb
      simp only [Uthash.linked, Table.link, Function.update_self, List.mem_cons] at he
      rcases he with rfl | he
      · rfl
      · exact h.hashv _ e he
    · simp only [Uthash.linked, Table.link, Function.update_of_ne hb] at he
      exact h.hashv b e he
  · intro b e he
    by_cases hb : b = bktOf hash (tableOf head) k
    · subst hb
      simp only [Uthash.linked, Table.link, Function.update_self, List.mem_cons] at he
      rcases he with rfl | he
      · rfl
      · exact h.bkt _ e he
    · simp only [Uthash.linked, Table.link, Function.update_of_ne hb] at he
      exact h.bkt b e he

/-- Tables reachable by additions; the null head counts as one. -/
def Head.WF (hash : K → Nat) (head : Head K V) : Prop := (tableOf head).WF hash

theorem Head.WF.none : Head.WF hash (none : Head K V) := Table.make_WF hash

theorem Head.WF.add {head : Head K V} (h : head.WF hash) (k : K) (v : V) :
    (add hash head k v).WF hash := by
  have hl := Table.WF.linked h k v
  simp only [Head.WF, Uthash.add, tableOf, Option.getD_some]
  split
  · exact hl.expandBuckets
  · exact hl

variable [DecidableEq K]

/-- The elements under `k` all lie in the one bucket a lookup of `k` searches. -/
theorem Table.WF.filter_elements {t : Table K V} (h : t.WF hash) (k : K) :
    t.elements.filter (fun e => e.key = k) =
      (t.buckets (bktOf hash t k)).chain.filter fun e => e.key = k := by
  have hother : ∀ i, i ≠ bktOf hash t k → (t.buckets i).chain.filter (fun e => e.key = k) = [] := by
    intro i hi
    rw [List.filter_eq_nil_iff]
    intro e he hk
    apply hi
    rw [← h.bkt i e he, h.hashv i e he, of_decide_eq_true hk]
    rfl
  have hlt : bktOf hash t k < t.numBuckets := toBkt_lt h.numBuckets
  rw [Table.elements, List.filter_flatMap]
  have hsplit : List.range t.numBuckets = List.range (bktOf hash t k) ++
      bktOf hash t k :: List.range' (bktOf hash t k + 1) (t.numBuckets - bktOf hash t k - 1) := by
    have happ := List.range'_append_1 (s := 0) (m := bktOf hash t k)
      (n := t.numBuckets - bktOf hash t k - 1 + 1)
    rw [Nat.zero_add, List.range'_succ, Nat.sub_add_cancel (by omega),
      Nat.add_sub_cancel' (Nat.le_of_lt hlt)] at happ
    rw [List.range_eq_range', List.range_eq_range', happ]
  rw [hsplit, List.flatMap_append, List.flatMap_cons]
  have hl : (List.range (bktOf hash t k)).flatMap
      (fun i => (t.buckets i).chain.filter fun e => e.key = k) = [] := by
    rw [List.flatMap_eq_nil_iff]
    intro i hi
    exact hother i (by simp at hi; omega)
  have hr : (List.range' (bktOf hash t k + 1) (t.numBuckets - bktOf hash t k - 1)).flatMap
      (fun i => (t.buckets i).chain.filter fun e => e.key = k) = [] := by
    rw [List.flatMap_eq_nil_iff]
    intro i hi
    exact hother i (by simp at hi; omega)
  rw [hl, hr, List.nil_append, List.append_nil]

/-- An expansion reverses the values under every key. -/
theorem Table.WF.valuesAt_expandBuckets {t : Table K V} (h : t.WF hash) (k : K) :
    t.expandBuckets.valuesAt hash k = (t.valuesAt hash k).reverse := by
  have hkey : ∀ e ∈ t.elements, e.key = k →
      toBkt e.hashv (t.numBuckets * 2) = bktOf hash t.expandBuckets k := by
    intro e he hk
    obtain ⟨b, _, hb⟩ := mem_elements.mp he
    rw [h.hashv b e hb, hk]
    rfl
  unfold Table.valuesAt
  rw [expandBuckets_chain, ← List.map_reverse, List.filter_reverse, List.filter_filter,
    ← h.filter_elements k]
  congr 2
  apply List.filter_congr
  intro e he
  by_cases hk : e.key = k
  · simp [hk, hkey e he hk]
  · simp [hk]

theorem valuesAt_linked (head : Head K V) (k k' : K) (v : V) :
    (linked hash head k v).valuesAt hash k' =
      if k = k' then v :: valuesAt hash head k' else valuesAt hash head k' := by
  by_cases hb : bktOf hash (tableOf head) k' = bktOf hash (tableOf head) k
  · have hself : (linked hash head k v).valuesAt hash k' =
        ((⟨k, hash k, v⟩ :: ((tableOf head).buckets (bktOf hash (tableOf head) k)).chain).filter
          fun e => e.key = k').map Elt.val := by
      unfold bktOf at hb
      simp [linked, Table.link, Table.valuesAt, bktOf, hb]
    rw [hself, List.filter_cons, valuesAt, Table.valuesAt, hb]
    by_cases hk : k = k' <;> simp [hk]
  · have hk : k ≠ k' := fun h => hb (by rw [h])
    unfold bktOf at hb
    simp [linked, Table.link, Table.valuesAt, valuesAt, bktOf, hk, Function.update_of_ne hb]

/-- `HASH_ADD_KEYPTR` on the values under a key: push, then reverse if it expands. -/
theorem Head.WF.valuesAt_add {head : Head K V} (h : head.WF hash) (k k' : K) (v : V) :
    valuesAt hash (Uthash.add hash head k v) k' =
      let l := if k = k' then v :: valuesAt hash head k' else valuesAt hash head k'
      if expands hash head k then l.reverse else l := by
  have hl := Table.WF.linked h k v
  simp only [valuesAt, Uthash.add, tableOf, Option.getD_some, expands_eq_full]
  split
  · rw [hl.valuesAt_expandBuckets, valuesAt_linked]
    rfl
  · exact valuesAt_linked head k k' v

/-- `HASH_FIND` answers with the first of the values under the key. -/
theorem find_eq_head? (head : Head K V) (k : K) :
    find hash head k = (valuesAt hash head k).head? := by
  cases head with
  | none => simp [find, valuesAt, Table.valuesAt, tableOf, Table.make, Bucket.empty]
  | some t => simp [find, valuesAt, Table.valuesAt, tableOf, List.head?_filter, List.head?_map]

end CourseCompilers.Uthash
