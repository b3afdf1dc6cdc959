import Jakilid.Cuckoo.Hashing

/-!
# The hash table

`cuckoohash_map` as one thread sees it: the buckets, the element counters of the locks, the
lookup, and the doubling of the table. The locks themselves only matter between threads and
are left out; a lock is the index of its counter.

A slot holds an entry or is free. The source keeps the partial keys and the occupied bits in
arrays beside the entries and never looks at the former where the latter is off.
-/

namespace Jakilid.Cuckoo

/-! ## Data -/

/-- `slot_per_bucket()` -/
abbrev slotPerBucket : ℕ := 4

instance neZero_slotPerBucket : NeZero slotPerBucket := ⟨by decide⟩

abbrev Slot := Fin slotPerBucket

/-- The slots in the order every loop over a bucket takes them. -/
def slots : List Slot := [0, 1, 2, 3]

lemma mem_slots (s : Slot) : s ∈ slots := by
  revert s
  decide

/-- What one occupied slot holds. -/
structure Entry (Key T : Type) where
  partialTag : UInt8
  key : Key
  val : T

/-- `Bucket` -/
abbrev Bucket (Key T : Type) := Slot → Option (Entry Key T)

/-- A bucket index and a slot. -/
abbrev Position := ℕ × Slot

/-- `cuckoohash_map`: the hashpower, the bucket array and the element counter of every lock. -/
structure Table (Key T : Type) where
  hashpower : ℕ
  buckets : ℕ → Bucket Key T
  elemCounter : ℕ → BitVec 64

/-- The ways a table operation or a dictionary call ends without returning. -/
inductive Exn
  /-- `std::bad_alloc`, `boost::interprocess::bad_alloc` -/
  | badAlloc
  /-- `libcuckoo_load_factor_too_low` -/
  | loadFactorTooLow
  /-- `libcuckoo_maximum_hashpower_exceeded` -/
  | maximumHashpowerExceeded (hp : ℕ)
  /-- a loop of the source goes on beyond the bound the model gives it -/
  | diverges
deriving DecidableEq, Repr

/-- `kSegmentSize` -/
def segmentSize : ℕ := (1 <<< 20) * 500

/-- Which bucket arrays the allocator of the segment grants. A bucket takes at least one byte,
so an array with more buckets than the segment has bytes is never granted. -/
structure Allocator where
  grants : ℕ → Bool
  bounded : ∀ n, grants n = true → n ≤ segmentSize

/-- `LIBCUCKOO_DEFAULT_SIZE` -/
def defaultSize : ℕ := (1 <<< 16) * slotPerBucket

/-- `LIBCUCKOO_NO_MAXIMUM_HASHPOWER`, which `maximum_hashpower_` is for every table. -/
def noMaximumHashpower : ℕ := 0

/-- The loop of `reserve_calc`. A `size_type` has 64 bits, so it goes round less than 64
times. -/
def reserveLoop (buckets : ℕ) : ℕ → ℕ → ℕ
  | 0, blog2 => blog2
  | fuel + 1, blog2 =>
    if hashsize blog2 < buckets then reserveLoop buckets fuel (blog2 + 1) else blog2

/-- `reserve_calc(n)`: the smallest hashpower from 1 on whose buckets hold `n` elements. -/
def reserveCalc (n : ℕ) : ℕ :=
  reserveLoop ((n + slotPerBucket - 1) / slotPerBucket) 64 1

namespace Table

variable {Key T : Type}

/-- The constructor: a table with room for `n` elements. -/
def create (n : ℕ) : Table Key T where
  hashpower := reserveCalc n
  buckets := fun _ _ => none
  elemCounter := fun _ => 0

/-- The table as a store of entries in numbered places. -/
def cells (t : Table Key T) (p : Position) : Option (Entry Key T) := t.buckets p.1 p.2

/-- The number of locks. -/
def numLocks (t : Table Key T) : ℕ := locksSize (hashsize t.hashpower)

/-- `setKV` and `eraseKV`: what a slot holds is replaced. -/
def setSlot (t : Table Key T) (p : Position) (o : Option (Entry Key T)) : Table Key T :=
  { t with
    buckets := Function.update t.buckets p.1 (Function.update (t.buckets p.1) p.2 o) }

/-- `++locks_[l].elem_counter()` -/
def incCounter (t : Table Key T) (l : ℕ) : Table Key T :=
  { t with elemCounter := Function.update t.elemCounter l (t.elemCounter l + 1) }

/-- `--locks_[l].elem_counter()` -/
def decCounter (t : Table Key T) (l : ℕ) : Table Key T :=
  { t with elemCounter := Function.update t.elemCounter l (t.elemCounter l - 1) }

/-- `move_to_bucket`: the entry at `p` is moved into the free slot `q`. -/
def moveToBucket (t : Table Key T) (p q : Position) : Table Key T :=
  (t.setSlot q (t.cells p)).setSlot p none

/-! ## Size -/

/-- `empty()`: no counter is greater than zero. -/
def empty (t : Table Key T) : Bool :=
  (List.range t.numLocks).all fun i => !decide (0 < t.elemCounter i)

/-- `size()`: the sum of all counters, as a `size_type`. -/
def size (t : Table Key T) : BitVec 64 :=
  (List.range t.numLocks).foldl (fun s i => s + t.elemCounter i) 0

/-- `capacity()` -/
def capacity (t : Table Key T) : ℕ := hashsize t.hashpower * slotPerBucket

/-- `load_factor() < minimum_load_factor()`. Both sides are doubles: the left one is a quotient
by a power of two, which is exact, and `0.05` is `3602879701896397 / 2 ^ 56`. -/
def loadFactorTooLow (t : Table Key T) : Bool :=
  decide (2 ^ 56 * t.size.toNat < 3602879701896397 * t.capacity)

/-! ## Lookup -/

section Lookup

variable [DecidableEq Key] (hash : Key → UInt64)

/-- `hashed_key` -/
def hashedKey (key : Key) : HashValue := ⟨hash key, partialKey (hash key)⟩

/-- The bucket indices of `snapshot_and_lock_two`. -/
def bucketIndices (t : Table Key T) (hv : HashValue) : ℕ × ℕ :=
  let i1 := indexHash t.hashpower hv.hash
  (i1, altIndex t.hashpower hv.partialTag i1)

/-- `try_read_from_bucket`: the slot of the key, if it is in the bucket. -/
def tryReadFromBucket (b : Bucket Key T) (tag : UInt8) (key : Key) : Option Slot :=
  slots.find? fun i =>
    match b i with
    | none => false
    | some e => decide (tag = e.partialTag) && decide (e.key = key)

/-- `cuckoo_find`: the position of the key in one of two buckets. -/
def cuckooFind (t : Table Key T) (key : Key) (tag : UInt8) (i1 i2 : ℕ) : Option Position :=
  match tryReadFromBucket (t.buckets i1) tag key with
  | some s => some (i1, s)
  | none =>
    match tryReadFromBucket (t.buckets i2) tag key with
    | some s => some (i2, s)
    | none => none

/-- The position `find_fn`, `update_fn` and `erase_fn` work on. -/
def locate (t : Table Key T) (key : Key) : Option Position :=
  let hv := hashedKey hash key
  let b := t.bucketIndices hv
  t.cuckooFind key hv.partialTag b.1 b.2

/-- `find`: a copy of the value of the key. -/
def find (t : Table Key T) (key : Key) : Option T :=
  match t.locate hash key with
  | some p => (t.cells p).map Entry.val
  | none => none

/-- `contains` -/
def contains (t : Table Key T) (key : Key) : Bool := (t.locate hash key).isSome

/-- `del_from_bucket` -/
def delFromBucket (t : Table Key T) (p : Position) : Table Key T :=
  (t.setSlot p none).decCounter (lockInd p.1)

/-- `erase` -/
def erase (t : Table Key T) (key : Key) : Table Key T × Bool :=
  match t.locate hash key with
  | some p => (t.delFromBucket p, true)
  | none => (t, false)

end Lookup

/-! ## Doubling -/

section Double

variable (hash : Key → UInt64)

/-- The bucket arrays swapped by `cuckoo_fast_double`: twice the size, with every entry in the
slot it was in. -/
def enlarge (t : Table Key T) : Table Key T where
  hashpower := t.hashpower + 1
  buckets := fun i => if i < hashsize t.hashpower then t.buckets i else fun _ => none
  elemCounter := t.elemCounter

/-- One round of the innermost loop of `move_buckets`: the entry in a slot of bucket
`bucketI` is moved to the next slot of the bucket one old table size further on, if that is
where the bigger table looks for it. -/
def moveSlot (currentHp bucketI : ℕ) (acc : Table Key T × ℕ) (slot : Slot) :
    Table Key T × ℕ :=
  match acc.1.buckets bucketI slot with
  | none => acc
  | some e =>
    let newBucketI := bucketI + hashsize currentHp
    let hv := hashedKey hash e.key
    let oldIhash := indexHash currentHp hv.hash
    let oldAhash := altIndex currentHp hv.partialTag oldIhash
    let newIhash := indexHash (currentHp + 1) hv.hash
    let newAhash := altIndex (currentHp + 1) hv.partialTag newIhash
    if (bucketI = oldIhash ∧ newIhash = newBucketI) ∨
        (bucketI = oldAhash ∧ newAhash = newBucketI) then
      (((acc.1.moveToBucket (bucketI, slot) (newBucketI, Fin.ofNat slotPerBucket acc.2)).decCounter
        (lockInd bucketI)).incCounter (lockInd newBucketI), acc.2 + 1)
    else acc

/-- The entries of one old bucket are distributed. -/
def splitBucket (currentHp : ℕ) (t : Table Key T) (bucketI : ℕ) : Table Key T :=
  (slots.foldl (moveSlot hash currentHp bucketI) (t, 0)).1

/-- The old buckets a lock guards. -/
def bucketsOfLock (currentHp l : ℕ) : List ℕ :=
  List.range' l ((hashsize currentHp - l + maxNumLocks - 1) / maxNumLocks) maxNumLocks

/-- `move_buckets` for the locks up to `endLockInd`. -/
def moveBuckets (currentHp endLockInd : ℕ) (t : Table Key T) : Table Key T :=
  ((List.range endLockInd).flatMap (bucketsOfLock currentHp)).foldl
    (splitBucket hash currentHp) t

/-- `check_resize_validity` for an automatic resize. Another expansion cannot get in between
as long as there is one thread. -/
def checkResizeValidity (t : Table Key T) (newHp : ℕ) : Except Exn Unit :=
  if noMaximumHashpower ≠ 0 ∧ noMaximumHashpower < newHp then
    .error (.maximumHashpowerExceeded newHp)
  else if t.loadFactorTooLow then .error .loadFactorTooLow
  else .ok ()

/-- `cuckoo_fast_double` -/
def cuckooFastDouble (alloc : Allocator) (t : Table Key T) : Except Exn (Table Key T) := do
  t.checkResizeValidity (t.hashpower + 1)
  if alloc.grants (hashsize t.hashpower * 2) then
    return t.enlarge.moveBuckets hash t.hashpower (min t.numLocks (hashsize t.hashpower))
  else throw .badAlloc

end Double

end Table

end Jakilid.Cuckoo
