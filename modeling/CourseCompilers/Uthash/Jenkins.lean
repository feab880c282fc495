import Mathlib.Data.UInt

/-! `HASH_JEN`, the hash function `uthash.h` uses unless told otherwise, on the
bytes of a C string. Nothing proved about the tables depends on it. -/

namespace CourseCompilers.Uthash

/-- `HASH_JEN_MIX`. -/
def hashJenMix (a b c : UInt32) : UInt32 × UInt32 × UInt32 :=
  let a := (a - b - c) ^^^ (c >>> 13)
  let b := (b - c - a) ^^^ (a <<< 8)
  let c := (c - a - b) ^^^ (b >>> 13)
  let a := (a - b - c) ^^^ (c >>> 12)
  let b := (b - c - a) ^^^ (a <<< 16)
  let c := (c - a - b) ^^^ (b >>> 5)
  let a := (a - b - c) ^^^ (c >>> 3)
  let b := (b - c - a) ^^^ (a <<< 10)
  let c := (c - a - b) ^^^ (b >>> 15)
  (a, b, c)

/-- Four key bytes from position `i` on; a byte past the end adds nothing. -/
def keyWord (key : List UInt8) (i : Nat) : UInt32 :=
  (key.getD i 0).toUInt32 + ((key.getD (i + 1) 0).toUInt32 <<< 8) +
    ((key.getD (i + 2) 0).toUInt32 <<< 16) + ((key.getD (i + 3) 0).toUInt32 <<< 24)

/-- The loop over twelve bytes at a time, then the fall-through `switch`. -/
def hashJenLoop (keylen : UInt32) : Nat → List UInt8 → UInt32 → UInt32 → UInt32 → UInt32
  | 0, _, _, _, hashv => hashv
  | fuel + 1, key, i, j, hashv =>
      if key.length ≥ 12 then
        let (i, j, hashv) :=
          hashJenMix (i + keyWord key 0) (j + keyWord key 4) (hashv + keyWord key 8)
        hashJenLoop keylen fuel (key.drop 12) i j hashv
      else
        let tail := ((key.getD 8 0).toUInt32 <<< 8) + ((key.getD 9 0).toUInt32 <<< 16) +
          ((key.getD 10 0).toUInt32 <<< 24)
        (hashJenMix (i + keyWord key 0) (j + keyWord key 4) (hashv + keylen + tail)).2.2

/-- `HASH_JEN` of a name. -/
def hashJen (name : String) : Nat :=
  let key := name.toUTF8.toList
  (hashJenLoop key.length.toUInt32 (key.length + 1) key 0x9e3779b9 0x9e3779b9 0xfeedbeef).toNat

end CourseCompilers.Uthash
