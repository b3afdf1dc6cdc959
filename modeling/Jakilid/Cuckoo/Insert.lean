import Jakilid.Cuckoo.Table

/-!
# Insertion

`upsert` and everything below it: the probe of the two candidate buckets, the breadth-first
search for a free slot, the moves along the path it found, and the loop that doubles the table
when there is no such path.
-/

namespace Jakilid.Cuckoo

/-! ## The search -/

/-- `MAX_BFS_PATH_LEN` -/
def maxBfsPathLen : ℕ := 5

/-- `MAX_CUCKOO_COUNT`: the size of the ring of the queue, which holds one item less. -/
def maxCuckooCount : ℕ := 256

/-- `b_slot`: the last bucket of a path, the slots of the path as the digits of a number, and
the position in the path. -/
structure BSlot where
  bucket : ℕ
  pathcode : ℕ
  depth : ℕ
deriving DecidableEq, Repr

/-- `b_queue`, front first. -/
abbrev BQueue := List BSlot

/-- `b_queue::full` -/
def BQueue.full (q : BQueue) : Bool := decide (maxCuckooCount ≤ q.length + 1)

/-- `CuckooRecord` -/
structure CuckooRecord where
  bucket : ℕ
  slot : Slot
  hv : HashValue

/-- What `slot_search` does with one item of the queue: it ends the search, or the queue goes
on. -/
inductive Expansion
  | found (x : BSlot)
  | queue (q : BQueue)

namespace Table

variable {Key T : Type}

/-- The inner loop of `slot_search`: the slots of the bucket of `x` from `is` on, counted from
the starting slot. -/
def expand (t : Table Key T) (x : BSlot) : List ℕ → BQueue → Expansion
  | [], q => .queue q
  | i :: is, q =>
    if q.full then .queue q
    else
      let slot : Slot := Fin.ofNat slotPerBucket (x.pathcode % slotPerBucket + i)
      match t.buckets x.bucket slot with
      | none => .found { x with pathcode := x.pathcode * slotPerBucket + slot }
      | some e =>
        if x.depth < maxBfsPathLen - 1 then
          expand t x is (q ++ [⟨altIndex t.hashpower e.partialTag x.bucket,
            x.pathcode * slotPerBucket + slot, x.depth + 1⟩])
        else expand t x is q

/-- The outer loop of `slot_search`. -/
def slotSearchLoop (t : Table Key T) : ℕ → BQueue → Option BSlot
  | 0, _ => none
  | fuel + 1, q =>
    if q.full then none
    else
      match q with
      | [] => none
      | x :: q =>
        match t.expand x (List.range slotPerBucket) q with
        | .found y => some y
        | .queue q => slotSearchLoop t fuel q

/-- The rounds the search may take: the buckets on all paths of at most `MAX_BFS_PATH_LEN`
slots from the two candidates. -/
def searchFuel : ℕ := 2 * (1 + 4 + 4 ^ 2 + 4 ^ 3 + 4 ^ 4) + 1

/-- `slot_search`: a path from one of two buckets to a bucket with a free slot. -/
def slotSearch (t : Table Key T) (i1 i2 : ℕ) : Option BSlot :=
  t.slotSearchLoop searchFuel [⟨i1, 0, 0⟩, ⟨i2, 1, 0⟩]

/-- The slots of a path of `n` positions, first one first, and what is left of the pathcode. -/
def pathSlots : ℕ → ℕ → List Slot → List Slot × ℕ
  | 0, pathcode, acc => (acc, pathcode)
  | n + 1, pathcode, acc =>
    pathSlots n (pathcode / slotPerBucket) (Fin.ofNat slotPerBucket pathcode :: acc)

variable [DecidableEq Key] (hash : Key → UInt64)

/-- The second half of `cuckoopath_search`: the records of a path that starts in `bucket` and
takes the given slots, up to the first slot that is free. -/
def followPath (t : Table Key T) (bucket : ℕ) : List Slot → List CuckooRecord
  | [] => []
  | slot :: rest =>
    match t.buckets bucket slot with
    | none => [⟨bucket, slot, ⟨0, 0⟩⟩]
    | some e =>
      let hv := hashedKey hash e.key
      ⟨bucket, slot, hv⟩ :: followPath t (altIndex t.hashpower hv.partialTag bucket) rest

/-- `cuckoopath_search` -/
def cuckoopathSearch (t : Table Key T) (i1 i2 : ℕ) : Option (List CuckooRecord) :=
  match t.slotSearch i1 i2 with
  | none => none
  | some x =>
    let (path, start) := pathSlots (x.depth + 1) x.pathcode []
    some (t.followPath hash (if start = 0 then i1 else i2) path)

/-! ## The moves -/

/-- The loop of `cuckoopath_move`, on the path with its last record first: each entry is moved
one step along, unless it is not what the search saw. -/
def moveAlong (t : Table Key T) : List CuckooRecord → Table Key T × Bool
  | target :: source :: rest =>
    match t.buckets source.bucket source.slot, t.buckets target.bucket target.slot with
    | some e, none =>
      if hash e.key = source.hv.hash then
        moveAlong (t.moveToBucket (source.bucket, source.slot) (target.bucket, target.slot))
          (source :: rest)
      else (t, false)
    | _, _ => (t, false)
  | _ => (t, true)

/-- `cuckoopath_move` -/
def cuckoopathMove (t : Table Key T) (path : List CuckooRecord) : Table Key T × Bool :=
  match path with
  | [only] => (t, (t.buckets only.bucket only.slot).isNone)
  | _ => t.moveAlong hash path.reverse

/-- How `run_cuckoo` ends; `diverges` if its loop has not ended within the model's bound. -/
inductive CuckooStatus
  | ok (p : Position)
  | failure
  | diverges

/-- `run_cuckoo`: entries are moved to free a slot in one of two full buckets. -/
def runCuckoo (i1 i2 : ℕ) : ℕ → Table Key T → Table Key T × CuckooStatus
  | 0, t => (t, .diverges)
  | fuel + 1, t =>
    match t.cuckoopathSearch hash i1 i2 with
    | none => (t, .failure)
    | some [] => (t, .failure)
    | some (first :: path) =>
      match t.cuckoopathMove hash (first :: path) with
      | (t', true) => (t', .ok (first.bucket, first.slot))
      | (t', false) => runCuckoo i1 i2 fuel t'

/-! ## Insertion -/

/-- The outcome of `try_find_insert_bucket`. -/
inductive Probe
  | duplicate (slot : Slot)
  | room (slot : Option Slot)

/-- The loop of `try_find_insert_bucket`, which remembers the last free slot. -/
def probeFrom (b : Bucket Key T) (tag : UInt8) (key : Key) :
    List Slot → Option Slot → Probe
  | [], slot => .room slot
  | i :: is, slot =>
    match b i with
    | some e =>
      if tag = e.partialTag ∧ e.key = key then .duplicate i
      else probeFrom b tag key is slot
    | none => probeFrom b tag key is (some i)

/-- `try_find_insert_bucket` -/
def tryFindInsertBucket (b : Bucket Key T) (tag : UInt8) (key : Key) : Probe :=
  probeFrom b tag key slots none

/-- The outcome of `cuckoo_insert`. -/
inductive InsertStatus
  | ok (p : Position)
  | keyDuplicated (p : Position)
  | tableFull
  | diverges

/-- The bound on the loop of `run_cuckoo`. -/
def cuckooFuel : ℕ := 2

/-- `cuckoo_insert` for a key whose candidate buckets are `i1` and `i2`. -/
def cuckooInsert (t : Table Key T) (key : Key) (tag : UInt8) (i1 i2 : ℕ) :
    Table Key T × InsertStatus :=
  match tryFindInsertBucket (t.buckets i1) tag key with
  | .duplicate s => (t, .keyDuplicated (i1, s))
  | .room res1 =>
    match tryFindInsertBucket (t.buckets i2) tag key with
    | .duplicate s => (t, .keyDuplicated (i2, s))
    | .room res2 =>
      match res1, res2 with
      | some s, _ => (t, .ok (i1, s))
      | none, some s => (t, .ok (i2, s))
      | none, none =>
        match runCuckoo hash i1 i2 cuckooFuel t with
        | (t', .ok p) =>
          match t'.cuckooFind key tag i1 i2 with
          | some p' => (t', .keyDuplicated p')
          | none => (t', .ok p)
        | (t', .failure) => (t', .tableFull)
        | (t', .diverges) => (t', .diverges)

/-- `cuckoo_insert_loop`: the table is doubled until the insertion finds a place. The result is
the position and whether the key is already there. -/
def cuckooInsertLoop (alloc : Allocator) (key : Key) :
    ℕ → Table Key T → Table Key T × Except Exn (Position × Bool)
  | 0, t => (t, .error .diverges)
  | fuel + 1, t =>
    let hv := hashedKey hash key
    let b := t.bucketIndices hv
    match t.cuckooInsert hash key hv.partialTag b.1 b.2 with
    | (t', .ok p) => (t', .ok (p, false))
    | (t', .keyDuplicated p) => (t', .ok (p, true))
    | (t', .diverges) => (t', .error .diverges)
    | (t', .tableFull) =>
      match t'.cuckooFastDouble hash alloc with
      | .ok t'' => cuckooInsertLoop alloc key fuel t''
      | .error e => (t', .error e)

/-- The bound on the loop of `cuckoo_insert_loop`: every round doubles the table once more. -/
def doublingFuel : ℕ := 64

/-- `add_to_bucket` -/
def addToBucket (t : Table Key T) (p : Position) (e : Entry Key T) : Table Key T :=
  (t.setSlot p (some e)).incCounter (lockInd p.1)

/-- `upsert`: a new key is added with `val`; on the value of a key that is there, `fn` is
called, which may throw and then leaves the value as it is. -/
def upsert (alloc : Allocator) (t : Table Key T) (key : Key) (fn : T → Except Exn T)
    (val : T) : Table Key T × Except Exn Bool :=
  match cuckooInsertLoop hash alloc key doublingFuel t with
  | (t', .error e) => (t', .error e)
  | (t', .ok (p, false)) => (t'.addToBucket p ⟨partialKey (hash key), key, val⟩, .ok true)
  | (t', .ok (p, true)) =>
    match t'.cells p with
    | none => (t', .ok false)
    | some e =>
      match fn e.val with
      | .error x => (t', .error x)
      | .ok v => (t'.setSlot p (some { e with val := v }), .ok false)

end Table

end Jakilid.Cuckoo
