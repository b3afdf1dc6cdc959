import Jakilid.Cuckoo.Concurrent

/-!
# The assertions of the hash table

What `cuckoohash_map` asserts in the steps that threads take. `try_lock` fails if somebody has the
lock. A `TwoBuckets` is active if its thread has the locks of both buckets.

`assert(false)` in `cuckoo_insert_loop` and `assert(st == failure)` in `cuckoo_insert` come after
all other values of an enumeration have been dealt with. There is nothing of them to be modelled.
-/

namespace Jakilid.Cuckoo.Concurrent

open Table

variable {Key T : Type}

/-! ## Single functions -/

/-- `move_to_bucket` -/
def moveToBucketAsserts (t : Table Key T) (p q : Position) : Bool :=
  (t.cells p).isSome && (t.cells q).isNone

/-- `add_to_bucket` -/
def addToBucketAsserts (t : Table Key T) (p : Position) : Bool := (t.cells p).isNone

/-- `cuckoopath_search` of a record, `cuckoo_insert` of the place it has got: the bucket is one of
the two of the hash value. -/
def isCandidate (hp : ℕ) (hv : HashValue) (b : ℕ) : Bool :=
  b == indexHash hp hv.hash || b == altIndex hp hv.partialTag (indexHash hp hv.hash)

/-- `operator[]` of the array of locks. -/
def lockAsserts (t : Table Key T) (l : ℕ) : Bool := decide (l < t.numLocks)

/-- `TwoBuckets::is_active` -/
def isActive (w : State Key T) (i : ThreadId) (s : Snapshot) : Bool :=
  w.owner (lockInd s.i1 : ℕ) == some i && w.owner (lockInd s.i2 : ℕ) == some i

/-! ## `move_buckets` -/

section Split

variable (hash : Key → UInt64)

/-- One round of the innermost loop: a free slot of the new bucket is there for an entry that is
moved, and an entry that is not moved is at home where it is. -/
def moveSlotAsserts (currentHp bucketI : ℕ) (acc : Table Key T × ℕ) (slot : Slot) : Bool :=
  match acc.1.buckets bucketI slot with
  | none => true
  | some e =>
    let newBucketI := bucketI + hashsize currentHp
    let hv := hashedKey hash e.key
    let oldIhash := indexHash currentHp hv.hash
    let oldAhash := altIndex currentHp hv.partialTag oldIhash
    let newIhash := indexHash (currentHp + 1) hv.hash
    let newAhash := altIndex (currentHp + 1) hv.partialTag newIhash
    if (bucketI = oldIhash ∧ newIhash = newBucketI) ∨
        (bucketI = oldAhash ∧ newAhash = newBucketI) then
      decide (acc.2 < slotPerBucket) &&
        moveToBucketAsserts acc.1 (bucketI, slot) (newBucketI, Fin.ofNat slotPerBucket acc.2)
    else
      (bucketI == oldIhash && newIhash == oldIhash) || (bucketI == oldAhash && newAhash == oldAhash)

/-- The loop over the slots of a bucket. -/
def slotsAsserts (currentHp bucketI : ℕ) : List Slot → Table Key T × ℕ → Bool
  | [], _ => true
  | slot :: rest, acc =>
    moveSlotAsserts hash currentHp bucketI acc slot &&
      slotsAsserts currentHp bucketI rest (moveSlot hash currentHp bucketI acc slot)

/-- The loop over the buckets of a lock. -/
def bucketsAsserts (currentHp : ℕ) : List ℕ → Table Key T → Bool
  | [], _ => true
  | b :: bs, t =>
    slotsAsserts hash currentHp b slots (t, 0) &&
      bucketsAsserts currentHp bs (splitBucket hash currentHp t b)

end Split

/-! ## Steps -/

section Steps

variable [DecidableEq Key] (hash : Key → UInt64)

/-- What is asserted before the locks of a task are taken. -/
def Task.entryAsserts (w : State Key T) (i : ThreadId) (s : Snapshot) : Task → Bool
  | .settle first => !isActive w i s && (first.bucket == s.i1 || first.bucket == s.i2)
  -- asserted before the first round only
  | .displace _ _ _ => !isActive w i s
  | _ => true

/-- What is asserted when they are. -/
def Task.asserts (w : State Key T) (i : ThreadId) (op : TableOp Key T) (s : Snapshot) : Task → Bool
  | .operate =>
    match op, site hash w.table op s with
    | .upsert _ _ _, .free p => isActive w i s && addToBucketAsserts w.table p
    | .upsert _ _ _, _ => isActive w i s
    | _, _ => true
  | .inspect x k q =>
    let slot : Slot := Fin.ofNat slotPerBucket (x.pathcode % slotPerBucket + k)
    match w.table.buckets x.bucket slot with
    | none =>
      -- `cuckoopath_search` goes on with what `slot_search` has found
      let code := (pathSlots (x.depth + 1) (x.pathcode * slotPerBucket + slot) []).2
      code == 0 || code == 1
    | some _ =>
      -- the constructor of `b_slot`, and `enqueue`
      if x.depth < maxBfsPathLen - 1 then decide (x.depth + 1 < maxBfsPathLen) && !q.full else true
  | .follow bucket slot rest _ =>
    match w.table.buckets bucket slot with
    | some e => rest.isEmpty || isCandidate s.hp (hashedKey hash e.key) bucket
    | none => true
  | .settle _ => true
  | .displace target source _ =>
    match w.table.buckets source.bucket source.slot with
    | some e =>
      if hash e.key ≠ source.hv.hash ∨ (w.table.buckets target.bucket target.slot).isSome then true
      else
        moveToBucketAsserts w.table (source.bucket, source.slot) (target.bucket, target.slot)
    | none => true

/-- `run_cuckoo` has freed the slot at `p`, and `cuckoo_insert` goes on with it. -/
def freedAsserts (w : State Key T) (op : TableOp Key T) (s : Snapshot) (p : Position) : Bool :=
  (p.1 == s.i1 || p.1 == s.i2) && (w.owner (lockInd s.i1 : ℕ)).isSome &&
    (w.owner (lockInd s.i2 : ℕ)).isSome && addToBucketAsserts w.table p &&
    isCandidate w.table.hashpower (hashedKey hash op.key) p.1

/-- The assertions of the next step of a call. -/
def Session.asserts (w : State Key T) (i : ThreadId) (c : Session Key T) : Bool :=
  match c.unlocking, c.control with
  | [], .locking s task taken =>
    match (task.locks s)[taken]? with
    | some l => (taken != 0 || task.entryAsserts w i s) && lockAsserts w.table l
    | none => task.asserts hash w i c.op s
  | [], .freed s p => freedAsserts hash w c.op s p
  | _, _ => true

/-- The assertions of a step. -/
def State.asserts (w : State Key T) : Action Key T → Bool
  | .advance i _ =>
    match w.sessions i with
    | some c => c.asserts hash w i
    | none => true
  | .split i l =>
    match w.sessions i with
    | some ⟨_, .migrating hp pending _, []⟩ =>
      if l ∈ pending then bucketsAsserts hash hp (bucketsOfLock hp l) w.table else true
    | _ => true
  | _ => true

end Steps

end Jakilid.Cuckoo.Concurrent
