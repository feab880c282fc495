import Mathlib.Algebra.Group.Int.Defs
import Mathlib.Algebra.Group.Nat.Defs
import Mathlib.Data.List.Basic

/-! How the command-line scanner gets its input: `myinput` copies the arguments into
the buffer of the scanner, with a space after each. -/

namespace CourseCompilers.CommandLine

def nul : Char := Char.ofNat 0

/-- A string of `argv`: the characters before its terminator. -/
structure Argument where
  chars : List Char
  no_nul : nul ∉ chars

/-- A value of the parameter `max`, an `int`. -/
structure BufferSize where
  max : Nat
  two_le : 2 ≤ max
  lt : max < 2 ^ 31

/-- The static variables: the arguments from `targv` to `arglim`, and `offset`. -/
structure Reader where
  targv : List Argument
  offset : Nat

/-- A call of `myinput`: what it has stored in the buffer, and its result. -/
structure Fill where
  buf : List Char
  ret : Int
  deriving DecidableEq

/-- The conversions to `int` and to `unsigned int`. -/
def toInt (n : Int) : Int := (n + 2 ^ 31) % 2 ^ 32 - 2 ^ 31
def toUnsigned (n : Int) : Nat := (n % 2 ^ 32).toNat

/-- What is left of the argument at hand, as an `int`. -/
def Reader.len (arg : Argument) (offset : Nat) : Int := toInt (arg.chars.length - offset)

def copylen (len max : Int) : Int := if len ≥ max then max - 1 else len

/-- `none`: an access outside an array. -/
def myinput (max : Int) (r : Reader) : Option (Fill × Reader) :=
  match r.targv with
  | [] => some (⟨[], 0⟩, r)
  | arg :: targv => do
      let len := Reader.len arg r.offset
      let copylen := copylen len max
      let buf := if len > 0 then (arg.chars.drop r.offset).take copylen.toNat else []
      let c ← (arg.chars ++ [nul])[toUnsigned (r.offset + copylen)]?
      if c = nul then
        -- a negative index is in front of the buffer
        if copylen < 0 then none
        else some (⟨buf ++ [' '], copylen + 1⟩, ⟨targv, 0⟩)
      else some (⟨buf, copylen⟩, r)

/-- The first calls, for a buffer of another size each time. -/
def inputs (sizes : Nat → BufferSize) : Nat → Reader → Option (List Fill × Reader)
  | 0, r => some ([], r)
  | n + 1, r => do
      let (fill, r) ← myinput (sizes 0).max r
      let (fills, r) ← inputs (fun k => sizes (k + 1)) n r
      return (fill :: fills, r)

/-- What the scanner is to read. -/
def stream (args : List Argument) : List Char := args.flatMap fun arg => arg.chars ++ [' ']

/-- The calls come to the end of the arguments, where the next call returns `0` for the
first time; what they have stored is the stream, and none has stored more than `max`
characters. -/
def Delivers (args : List Argument) (sizes : Nat → BufferSize) : Prop :=
  ∃ n fills r, inputs sizes n ⟨args, 0⟩ = some (fills, r) ∧ r.targv = [] ∧
    myinput (sizes n).max r = some (⟨[], 0⟩, r) ∧ (∀ f ∈ fills, f.ret ≠ 0) ∧
    fills.flatMap Fill.buf = stream args ∧
    ∀ i (h : i < fills.length), fills[i].buf.length ≤ (sizes i).max

/-! ## One call -/

theorem toInt_of_lt {n : Nat} (h : n < 2 ^ 31) : toInt n = n := by
  unfold toInt
  omega

theorem toUnsigned_of_lt {n : Nat} (h : n < 2 ^ 32) : toUnsigned n = n := by
  unfold toUnsigned
  omega

theorem Argument.getElem_ne_nul (arg : Argument) {i : Nat} (h : i < arg.chars.length) :
    arg.chars[i] ≠ nul := fun heq => arg.no_nul (heq ▸ List.getElem_mem h)

/-- What a call may do with an argument: it passes the argument if it has copied all
up to the terminator. -/
theorem myinput_cons {max : Int} {arg : Argument} {targv : List Argument} {offset : Nat}
    {fill : Fill} {r : Reader} (h : myinput max ⟨arg :: targv, offset⟩ = some (fill, r)) :
    ∃ n buf, n = copylen (Reader.len arg offset) max ∧ buf.length ≤ n.toNat ∧
      (0 ≤ n ∧ (arg.chars ++ [nul])[toUnsigned (offset + n)]? = some nul ∧
          fill = ⟨buf ++ [' '], n + 1⟩ ∧ r = ⟨targv, 0⟩ ∨
        fill = ⟨buf, n⟩ ∧ r = ⟨arg :: targv, offset⟩) := by
  refine ⟨_, if Reader.len arg offset > 0
    then (arg.chars.drop offset).take (copylen (Reader.len arg offset) max).toNat else [], rfl,
    ?_, ?_⟩
  · split
    · rw [List.length_take]
      exact Nat.min_le_left _ _
    · exact Nat.zero_le _
  · simp only [myinput, Option.bind_eq_bind, Option.bind_eq_some_iff] at h
    obtain ⟨c, hc, h⟩ := h
    by_cases hnul : c = nul
    · by_cases hneg : copylen (Reader.len arg offset) max < 0
      · rw [if_pos hnul, if_pos hneg] at h
        cases h
      · rw [if_pos hnul, if_neg hneg] at h
        cases h
        exact .inl ⟨Int.not_lt.mp hneg, hnul ▸ hc, rfl, rfl⟩
    · rw [if_neg hnul] at h
      cases h
      exact .inr ⟨rfl, rfl⟩

/-- No call stores more than `max` characters. -/
theorem myinput_writes_le {max : BufferSize} {r r' : Reader} {fill : Fill}
    (h : myinput max.max r = some (fill, r')) : fill.buf.length ≤ max.max := by
  have htwo := max.two_le
  obtain ⟨targv, offset⟩ := r
  cases targv with
  | nil =>
    cases h
    exact Nat.zero_le _
  | cons arg targv =>
    obtain ⟨n, buf, hn, hbuf, h⟩ := myinput_cons h
    have hle : n + 1 ≤ max.max := by
      rw [hn, copylen]
      split <;> omega
    rcases h with ⟨_, _, rfl, _⟩ | ⟨rfl, _⟩
    · rw [List.length_append, List.length_singleton]
      omega
    · dsimp only
      omega

theorem Reader.len_zero {arg : Argument} (h : arg.chars.length < 2 ^ 31) :
    Reader.len arg 0 = arg.chars.length := by
  rw [Reader.len, Int.natCast_zero, Int.sub_zero]
  exact toInt_of_lt h

/-- An argument that fits is delivered with its space. -/
theorem myinput_short {arg : Argument} {max : BufferSize} (h : arg.chars.length < max.max)
    (targv : List Argument) :
    myinput max.max ⟨arg :: targv, 0⟩ =
      some (⟨arg.chars ++ [' '], arg.chars.length + 1⟩, ⟨targv, 0⟩) := by
  have hlt := max.lt
  have hlen : Reader.len arg 0 = arg.chars.length := Reader.len_zero (by omega)
  have hcopy : copylen arg.chars.length max.max = arg.chars.length := if_neg (by omega)
  have hindex : toUnsigned ((0 : Nat) + arg.chars.length) = arg.chars.length := by
    rw [Int.natCast_zero, Int.zero_add]
    exact toUnsigned_of_lt (by omega)
  have hbuf : (if (arg.chars.length : Int) > 0
      then (arg.chars.drop 0).take (arg.chars.length : Int).toNat else []) = arg.chars := by
    cases harg : arg.chars <;> simp
  simp only [myinput, hlen, hcopy, hindex, hbuf]
  simp

/-- Of an argument that does not fit the first part is delivered, again and again:
`offset` stays where it is. -/
theorem myinput_long {arg : Argument} {max : BufferSize} (h : max.max ≤ arg.chars.length)
    (hlt : arg.chars.length < 2 ^ 31) (targv : List Argument) :
    myinput max.max ⟨arg :: targv, 0⟩ =
      some (⟨arg.chars.take (max.max - 1), (max.max - 1 : Nat)⟩, ⟨arg :: targv, 0⟩) := by
  have htwo := max.two_le
  have hcopy : copylen arg.chars.length max.max = (max.max - 1 : Nat) := by
    rw [copylen, if_pos (by omega)]
    omega
  have hpos : (arg.chars.length : Int) > 0 := by omega
  have hindex : max.max - 1 < arg.chars.length := by omega
  have hnul := arg.getElem_ne_nul hindex
  simp only [myinput, Reader.len_zero hlt, hcopy, if_pos hpos, Int.natCast_zero, Int.zero_add]
  rw [toUnsigned_of_lt (by omega), List.getElem?_append_left hindex,
    List.getElem?_eq_getElem hindex]
  simp [hnul]

/-- An argument whose length is no `int` is never passed: its terminator is behind
every index. -/
theorem myinput_huge {arg : Argument} {max : BufferSize} (h : 2 ^ 31 ≤ arg.chars.length)
    {targv : List Argument} {fill : Fill} {r : Reader}
    (hcall : myinput max.max ⟨arg :: targv, 0⟩ = some (fill, r)) : r = ⟨arg :: targv, 0⟩ := by
  have hlt := max.lt
  obtain ⟨n, buf, hn, _, ⟨hpos, hnul, _⟩ | ⟨_, hr⟩⟩ := myinput_cons hcall
  · have hindex : toUnsigned ((0 : Nat) + n) < arg.chars.length := by
      have hle : n < 2 ^ 31 := by
        rw [hn, copylen, Reader.len, toInt]
        split <;> omega
      unfold toUnsigned
      omega
    rw [List.getElem?_append_left hindex, List.getElem?_eq_getElem hindex] at hnul
    exact absurd (Option.some.inj hnul) (arg.getElem_ne_nul hindex)
  · exact hr

/-! ## All calls -/

theorem inputs_succ {sizes : Nat → BufferSize} {n : Nat} {r r' r'' : Reader} {fill : Fill}
    {fills : List Fill} (h : myinput (sizes 0).max r = some (fill, r'))
    (hrest : inputs (fun k => sizes (k + 1)) n r' = some (fills, r'')) :
    inputs sizes (n + 1) r = some (fill :: fills, r'') := by
  simp [inputs, h, hrest]

/-- If every argument fits, each call delivers one. -/
theorem inputs_short {args : List Argument} {sizes : Nat → BufferSize}
    (h : ∀ i (hi : i < args.length), args[i].chars.length < (sizes i).max) :
    inputs sizes args.length ⟨args, 0⟩ =
      some (args.map fun arg => ⟨arg.chars ++ [' '], arg.chars.length + 1⟩, ⟨[], 0⟩) := by
  induction args generalizing sizes with
  | nil => rfl
  | cons arg args ih =>
    have hfirst : arg.chars.length < (sizes 0).max := h 0 (Nat.zero_lt_succ _)
    have hrest := @ih (fun k => sizes (k + 1)) fun i hi => h (i + 1) (Nat.succ_lt_succ hi)
    exact inputs_succ (myinput_short hfirst args) hrest

theorem inputs_huge {arg : Argument} (h : 2 ^ 31 ≤ arg.chars.length) {args : List Argument}
    {sizes : Nat → BufferSize} {n : Nat} {fills : List Fill} {r : Reader}
    (hcalls : inputs sizes n ⟨arg :: args, 0⟩ = some (fills, r)) : r.targv = arg :: args := by
  induction n generalizing sizes fills with
  | zero =>
    cases hcalls
    rfl
  | succ n ih =>
    simp only [inputs, Option.bind_eq_bind, Option.bind_eq_some_iff] at hcalls
    obtain ⟨⟨fill, r'⟩, hcall, ⟨fills', r''⟩, hcalls, heq⟩ := hcalls
    obtain rfl := myinput_huge h hcall
    cases heq
    exact ih hcalls

/-- Calls that pass all arguments store at least the stream, and more unless every
argument fits. -/
theorem inputs_length {args : List Argument} {sizes : Nat → BufferSize} {n : Nat}
    {fills : List Fill} {r : Reader} (hcalls : inputs sizes n ⟨args, 0⟩ = some (fills, r))
    (hend : r.targv = []) :
    (stream args).length ≤ (fills.flatMap Fill.buf).length ∧
      ((fills.flatMap Fill.buf).length = (stream args).length →
        ∀ i (hi : i < args.length), args[i].chars.length < (sizes i).max) := by
  induction n generalizing args sizes fills with
  | zero =>
    cases hcalls
    obtain rfl : args = [] := hend
    exact ⟨Nat.le_refl _, fun _ i hi => absurd hi (Nat.not_lt_zero i)⟩
  | succ n ih =>
    cases args with
    | nil => exact ⟨Nat.zero_le _, fun _ i hi => absurd hi (Nat.not_lt_zero i)⟩
    | cons arg args =>
      by_cases hhuge : 2 ^ 31 ≤ arg.chars.length
      · rw [inputs_huge hhuge hcalls] at hend
        cases hend
      · have hsize := (sizes 0).two_le
        simp only [inputs, Option.bind_eq_bind, Option.bind_eq_some_iff] at hcalls
        obtain ⟨⟨fill, r'⟩, hcall, ⟨fills', r''⟩, hcalls, heq⟩ := hcalls
        cases heq
        by_cases hfit : arg.chars.length < (sizes 0).max
        · rw [myinput_short hfit] at hcall
          cases hcall
          obtain ⟨hle, hiff⟩ := ih hcalls
          simp only [stream, List.flatMap_cons, List.length_append] at hle hiff ⊢
          refine ⟨by omega, fun hlen => ?_⟩
          have hrest := hiff (by omega)
          intro i hi
          cases i with
          | zero => exact hfit
          | succ i => exact hrest i (Nat.lt_of_succ_lt_succ hi)
        · rw [myinput_long (Nat.le_of_not_lt hfit) (Nat.lt_of_not_le hhuge)] at hcall
          cases hcall
          have hle := (ih hcalls).1
          simp only [List.flatMap_cons, List.length_append, List.length_take] at hle ⊢
          omega

theorem inputs_writes_le {sizes : Nat → BufferSize} {n : Nat} {r r' : Reader}
    {fills : List Fill} (hcalls : inputs sizes n r = some (fills, r')) :
    ∀ i (h : i < fills.length), fills[i].buf.length ≤ (sizes i).max := by
  induction n generalizing sizes r fills with
  | zero =>
    cases hcalls
    exact fun i hi => absurd hi (Nat.not_lt_zero i)
  | succ n ih =>
    simp only [inputs, Option.bind_eq_bind, Option.bind_eq_some_iff] at hcalls
    obtain ⟨⟨fill, r₁⟩, hcall, ⟨fills', r₂⟩, hcalls, heq⟩ := hcalls
    cases heq
    intro i hi
    cases i with
    | zero => exact myinput_writes_le hcall
    | succ i => exact ih hcalls i (Nat.lt_of_succ_lt_succ hi)

/-- The arguments are delivered if each is shorter than the buffer of the call that
finds it at hand. -/
theorem delivers_iff (args : List Argument) (sizes : Nat → BufferSize) :
    Delivers args sizes ↔
      ∀ i (hi : i < args.length), args[i].chars.length < (sizes i).max := by
  constructor
  · rintro ⟨n, fills, r, hcalls, hend, _, _, htext, _⟩
    exact (inputs_length hcalls hend).2 (by rw [htext])
  · intro h
    have hcalls := inputs_short h
    refine ⟨args.length, _, _, hcalls, rfl, rfl, ?_, ?_, inputs_writes_le hcalls⟩
    · intro f hf
      obtain ⟨arg, _, rfl⟩ := List.mem_map.mp hf
      dsimp only
      omega
    · rw [stream, List.flatMap_map]

/-- The argument `ab` and buffers of size two: all calls return the `a`. -/
theorem not_delivers_ab :
    ∃ (ab : Argument) (two : BufferSize), ab.chars = ['a', 'b'] ∧ two.max = 2 ∧
      (∀ n, inputs (fun _ => two) n ⟨[ab], 0⟩ =
        some (List.replicate n ⟨['a'], 1⟩, ⟨[ab], 0⟩)) ∧
      ¬ Delivers [ab] fun _ => two := by
  let ab : Argument := ⟨['a', 'b'], by decide⟩
  let two : BufferSize := ⟨2, by decide, by decide⟩
  have hcalls : ∀ n, inputs (fun _ => two) n ⟨[ab], 0⟩ =
      some (List.replicate n ⟨['a'], 1⟩, ⟨[ab], 0⟩) := by
    intro n
    induction n with
    | zero => rfl
    | succ n ih => exact inputs_succ (myinput_long (by decide) (by decide) []) ih
  refine ⟨ab, two, rfl, rfl, hcalls, ?_⟩
  rintro ⟨n, fills, r, hn, hend, _⟩
  rw [hcalls] at hn
  cases hn
  cases hend

end CourseCompilers.CommandLine
