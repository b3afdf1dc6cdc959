import Mathlib

/-!
# Where a key may be: hashes, bucket indices and locks

The index arithmetic of `cuckoohash_map`. A key has a first bucket, given by the low bits of
its hash, and an alternate bucket, given by the first one and the partial key; both grow by one
bit at the top when the table is doubled (`indexHash_succ_mod`, `altIndex_succ_mod`), and the
alternate of the alternate is the first again (`altIndex_altIndex`).
-/

namespace Jakilid.Cuckoo

/-! ## The source's functions -/

/-- `hash_value`: a hash and its partial key. -/
structure HashValue where
  hash : UInt64
  partialTag : UInt8
deriving DecidableEq, Repr

/-- `hashsize`: the number of buckets at a hashpower. -/
def hashsize (hp : ℕ) : ℕ := 1 <<< hp

/-- `hashmask` -/
def hashmask (hp : ℕ) : ℕ := hashsize hp - 1

/-- `partial_key`: the hash folded to eight bits. -/
def partialKey (hash : UInt64) : UInt8 :=
  let hash32bit : UInt32 := hash.toUInt32 ^^^ (hash >>> 32).toUInt32
  let hash16bit : UInt16 := hash32bit.toUInt16 ^^^ (hash32bit >>> 16).toUInt16
  hash16bit.toUInt8 ^^^ (hash16bit >>> 8).toUInt8

/-- `index_hash`: the first bucket of a hash. -/
def indexHash (hp : ℕ) (hv : UInt64) : ℕ := hv.toNat &&& hashmask hp

/-- The offset `alt_index` flips an index by: the partial key, made nonzero, times the hash
constant of 64-bit MurmurHash2, as a `size_type`. -/
def altOffset (tag : UInt8) : ℕ := (tag.toNat + 1) * 0xc6a4a7935bd1e995 % 2 ^ 64

/-- `alt_index`: the other bucket of a partial key one of whose buckets is `index`. -/
def altIndex (hp : ℕ) (tag : UInt8) (index : ℕ) : ℕ :=
  (index ^^^ altOffset tag) &&& hashmask hp

/-- `locks_t::max_size()`, with all of the sixteen index bits used as the offset within the
one segment. -/
def maxNumLocks : ℕ := 1 <<< 16

/-- `locks_.size()` once `resize(target)` has run: whole segments are allocated. -/
def locksSize (target : ℕ) : ℕ :=
  if min target maxNumLocks = 0 then 0
  else ((min target maxNumLocks - 1) >>> 16 + 1) * maxNumLocks

/-- `lock_ind`: the lock of a bucket. -/
def lockInd (bucketInd : ℕ) : ℕ := bucketInd &&& (maxNumLocks - 1)

/-! ## Arithmetic forms -/

lemma hashsize_eq (hp : ℕ) : hashsize hp = 2 ^ hp := by
  rw [hashsize, Nat.one_shiftLeft]

lemma hashsize_pos (hp : ℕ) : 0 < hashsize hp := by
  rw [hashsize_eq]
  exact Nat.two_pow_pos hp

lemma hashsize_succ (hp : ℕ) : hashsize (hp + 1) = hashsize hp + hashsize hp := by
  rw [hashsize_eq, hashsize_eq, pow_succ]
  ring

lemma maxNumLocks_eq : maxNumLocks = 2 ^ 16 := rfl

/-- There is one segment of locks, whatever the size of the table. -/
lemma locksSize_eq {target : ℕ} (h : 0 < target) : locksSize target = maxNumLocks := by
  have hmin : min target maxNumLocks ≤ 2 ^ 16 := Nat.min_le_right _ _
  have hpos : min target maxNumLocks ≠ 0 := by
    rw [maxNumLocks_eq]
    omega
  have hsegment : (min target maxNumLocks - 1) >>> 16 = 0 := by
    rw [Nat.shiftRight_eq_div_pow]
    exact Nat.div_eq_of_lt (by omega)
  rw [locksSize, if_neg hpos, hsegment, Nat.zero_add, Nat.one_mul]

lemma lockInd_eq (b : ℕ) : lockInd b = b % 2 ^ 16 := by
  rw [lockInd, maxNumLocks_eq, Nat.and_two_pow_sub_one_eq_mod]

lemma lockInd_lt (b : ℕ) : lockInd b < maxNumLocks := by
  rw [lockInd_eq]
  exact Nat.mod_lt _ (by decide)

/-- From hashpower 16 on, the two halves of a doubled table share their locks. -/
lemma lockInd_add_hashsize {hp : ℕ} (h : 16 ≤ hp) (b : ℕ) :
    lockInd (b + hashsize hp) = lockInd b := by
  obtain ⟨k, rfl⟩ := Nat.exists_eq_add_of_le h
  rw [lockInd_eq, lockInd_eq, hashsize_eq, pow_add, Nat.add_mul_mod_self_left]

lemma indexHash_eq (hp : ℕ) (hv : UInt64) : indexHash hp hv = hv.toNat % hashsize hp := by
  rw [indexHash, hashmask, hashsize_eq, Nat.and_two_pow_sub_one_eq_mod]

lemma altIndex_eq (hp : ℕ) (tag : UInt8) (index : ℕ) :
    altIndex hp tag index = (index ^^^ altOffset tag) % hashsize hp := by
  rw [altIndex, hashmask, hashsize_eq, Nat.and_two_pow_sub_one_eq_mod]

lemma indexHash_lt (hp : ℕ) (hv : UInt64) : indexHash hp hv < hashsize hp := by
  rw [indexHash_eq]
  exact Nat.mod_lt _ (hashsize_pos hp)

lemma altIndex_lt (hp : ℕ) (tag : UInt8) (index : ℕ) : altIndex hp tag index < hashsize hp := by
  rw [altIndex_eq]
  exact Nat.mod_lt _ (hashsize_pos hp)

/-- The alternate bucket of the alternate bucket is the bucket itself. -/
lemma altIndex_altIndex {hp : ℕ} (tag : UInt8) {index : ℕ} (h : index < hashsize hp) :
    altIndex hp tag (altIndex hp tag index) = index := by
  rw [altIndex_eq, altIndex_eq, hashsize_eq, Nat.xor_mod_two_pow, Nat.mod_mod,
    Nat.xor_mod_two_pow, Nat.xor_assoc, Nat.xor_self, Nat.xor_zero]
  exact Nat.mod_eq_of_lt (by rwa [hashsize_eq] at h)

/-! ## Doubling -/

/-- Doubling the table adds one bit at the top of the first bucket. -/
lemma indexHash_succ_mod (hp : ℕ) (hv : UInt64) :
    indexHash (hp + 1) hv % hashsize hp = indexHash hp hv := by
  rw [indexHash_eq, indexHash_eq, hashsize_eq, hashsize_eq]
  exact Nat.mod_mod_of_dvd _ (pow_dvd_pow 2 (Nat.le_succ hp))

/-- Doubling the table adds one bit at the top of the alternate bucket. -/
lemma altIndex_succ_mod (hp : ℕ) (tag : UInt8) (index : ℕ) :
    altIndex (hp + 1) tag index % hashsize hp = altIndex hp tag (index % hashsize hp) := by
  rw [altIndex_eq, altIndex_eq, hashsize_eq, hashsize_eq,
    Nat.mod_mod_of_dvd _ (pow_dvd_pow 2 (Nat.le_succ hp)), Nat.xor_mod_two_pow,
    Nat.xor_mod_two_pow, Nat.mod_mod]

/-- An index of the doubled table is its remainder or lies one table size above it. -/
lemma eq_or_eq_add_of_mod {hp i b : ℕ} (hi : i < hashsize (hp + 1))
    (hmod : i % hashsize hp = b) : i = b ∨ i = b + hashsize hp := by
  rw [hashsize_succ] at hi
  rcases Nat.lt_or_ge i (hashsize hp) with hlt | hge
  · exact Or.inl (by rw [← hmod, Nat.mod_eq_of_lt hlt])
  · have hsub : i % hashsize hp = i - hashsize hp := by
      rw [Nat.mod_eq_sub_mod hge, Nat.mod_eq_of_lt (by omega)]
    exact Or.inr (by omega)

/-! ## Candidate buckets -/

/-- The two buckets a hash may be stored in. -/
def Candidate (hp : ℕ) (hv : HashValue) (b : ℕ) : Prop :=
  b = indexHash hp hv.hash ∨ b = altIndex hp hv.partialTag (indexHash hp hv.hash)

lemma Candidate.lt {hp : ℕ} {hv : HashValue} {b : ℕ} (h : Candidate hp hv b) :
    b < hashsize hp := by
  rcases h with rfl | rfl
  · exact indexHash_lt hp hv.hash
  · exact altIndex_lt hp hv.partialTag _

/-- The alternate of a candidate is the other candidate. -/
lemma Candidate.altIndex {hp : ℕ} {hv : HashValue} {b : ℕ} (h : Candidate hp hv b) :
    Candidate hp hv (altIndex hp hv.partialTag b) := by
  rcases h with rfl | rfl
  · exact Or.inr rfl
  · exact Or.inl (altIndex_altIndex _ (indexHash_lt hp hv.hash))

end Jakilid.Cuckoo
