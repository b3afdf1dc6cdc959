import Jakilid.Lib.RingBuffer
import Jakilid.Cuckoo.Insert

/-!
# The search in machine words

`slot_search` and `cuckoopath_search` down to their data: `b_queue` is a ring of
`MAX_CUCKOO_COUNT` places which nobody initialises, a pathcode is a `size_type`, and a search that
fails returns a `b_slot` of depth -1. An assertion that fails ends the search with `none`.
-/

namespace Jakilid.Cuckoo

/-- `b_slot` -/
structure RawSlot where
  bucket : ℕ
  pathcode : BitVec 64
  depth : ℤ

/-- The constructor of `b_slot`. -/
def RawSlot.create (bucket : ℕ) (pathcode : BitVec 64) (depth : ℤ) : Option RawSlot :=
  if depth < maxBfsPathLen then some ⟨bucket, pathcode, depth⟩ else none

/-- What `slot_search` returns when it fails. -/
def RawSlot.failure : RawSlot := ⟨0, 0, -1⟩

/-- `b_queue` -/
abbrev RawQueue := RingBuffer RawSlot

namespace RawQueue

/-- An empty queue, in an array with these contents. -/
def create (slots : ℕ → RawSlot) : RawQueue := ⟨slots, 0, 0⟩

def increment (ind : ℕ) : ℕ := (ind + 1) &&& (maxCuckooCount - 1)

def empty (q : RawQueue) : Bool := q.first == q.last

def full (q : RawQueue) : Bool := increment q.last == q.first

def enqueue (q : RawQueue) (x : RawSlot) : Option RawQueue :=
  if q.full then none
  else some ⟨Function.update q.slots q.last x, q.first, increment q.last⟩

def dequeue (q : RawQueue) : Option (RawSlot × RawQueue) :=
  if q.empty then none else some (q.slots q.first, { q with first := increment q.first })

end RawQueue

/-- What the inner loop of `slot_search` comes to. -/
inductive RawExpansion
  | found (x : RawSlot)
  | queue (q : RawQueue)

namespace Table

variable {Key T : Type}

/-- The inner loop of `slot_search`. -/
def rawExpand (t : Table Key T) (x : RawSlot) : List ℕ → RawQueue → Option RawExpansion
  | [], q => some (.queue q)
  | i :: is, q =>
    if q.full then some (.queue q)
    else
      let slot : Slot := Fin.ofNat slotPerBucket (x.pathcode.toNat % slotPerBucket + i)
      let pathcode := x.pathcode * BitVec.ofNat 64 slotPerBucket + BitVec.ofNat 64 slot
      match t.buckets x.bucket slot with
      | none => some (.found { x with pathcode := pathcode })
      | some e =>
        if x.depth < maxBfsPathLen - 1 then do
          let y ← RawSlot.create (altIndex t.hashpower e.partialTag x.bucket) pathcode (x.depth + 1)
          let q ← q.enqueue y
          rawExpand t x is q
        else rawExpand t x is q

/-- The outer loop of `slot_search`. -/
def rawSlotSearchLoop (t : Table Key T) : ℕ → RawQueue → Option RawSlot
  | 0, _ => none
  | fuel + 1, q =>
    if q.full || q.empty then some .failure
    else do
      let (x, q) ← q.dequeue
      match ← t.rawExpand x (List.range slotPerBucket) q with
      | .found y => some y
      | .queue q => rawSlotSearchLoop t fuel q

/-- `slot_search`, with a `b_queue` in an array with these contents. -/
def rawSlotSearch (t : Table Key T) (slots : ℕ → RawSlot) (i1 i2 : ℕ) : Option RawSlot := do
  let x1 ← RawSlot.create i1 0 0
  let x2 ← RawSlot.create i2 1 0
  let q ← (RawQueue.create slots).enqueue x1
  let q ← q.enqueue x2
  t.rawSlotSearchLoop searchFuel q

/-- The first loop of `cuckoopath_search`. -/
def rawPathSlots : ℕ → BitVec 64 → List Slot → List Slot × BitVec 64
  | 0, pathcode, acc => (acc, pathcode)
  | n + 1, pathcode, acc =>
    rawPathSlots n (pathcode / BitVec.ofNat 64 slotPerBucket)
      (Fin.ofNat slotPerBucket (pathcode % BitVec.ofNat 64 slotPerBucket).toNat :: acc)

/-- `cuckoopath_search` -/
def rawCuckoopathSearch (hash : Key → UInt64) (t : Table Key T) (slots : ℕ → RawSlot)
    (i1 i2 : ℕ) : Option (Option (List CuckooRecord)) := do
  let x ← t.rawSlotSearch slots i1 i2
  if x.depth = -1 then return none
  else
    let (path, start) := rawPathSlots (x.depth.toNat + 1) x.pathcode []
    if start = 0 then return some (t.followPath hash i1 path)
    else if start = 1 then return some (t.followPath hash i2 path)
    else none

end Table

end Jakilid.Cuckoo
