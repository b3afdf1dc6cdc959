import Jakilid.Lib.Linearizable
import Jakilid.Cuckoo.Insert

/-!
# The hash table between threads

`cuckoohash_map` as any number of threads work on it at once: the spinlocks of the buckets,
`expansion_lock_`, the snapshots of the hashpower, and the places where `run_cuckoo` and
`cuckoo_fast_double` give up their locks in the middle of an insertion.

A lock is taken to exclude all threads that share the table. For `expansion_lock_`, a
`std::mutex`, this is promised for the threads of one process.

A step takes or gives back one lock, reads the hashpower, or does what is done between two such
steps, which touches only buckets whose locks the thread has. A thread that waits for a lock has
no step.

What is left open: whether the load factor is found too low, since it is computed from counters
that others are changing; which bucket arrays are granted; in which order the worker threads of
`cuckoo_fast_double`, which work for the thread that has called it, get to the locks they have
been given; and what comes of reading the key of a slot that has been emptied (`survives`).
-/

namespace Jakilid.Cuckoo.Concurrent

open Transition

abbrev ThreadId := ℕ

/-- `⊥` is `expansion_lock_`, the others are those of `locks_`. -/
abbrev Lock := WithBot ℕ

/-! ## Operations -/

/-- An operation of the table with its functor. -/
inductive TableOp (Key T : Type)
  /-- `fn` makes the copy `find` returns -/
  | findFn (key : Key) (fn : T → Except Exn T)
  | updateFn (key : Key) (fn : T → Except Exn T)
  /-- `fn` also says whether the entry is to be erased -/
  | eraseFn (key : Key) (fn : T → Except Exn (T × Bool))
  | upsert (key : Key) (fn : T → Except Exn T) (val : T)

/-- What an operation returns; `value` for `find`. -/
inductive Response (T : Type)
  | bool (b : Bool)
  | value (v : Option T)

namespace TableOp

variable {Key T : Type}

def key : TableOp Key T → Key
  | .findFn key _ => key
  | .updateFn key _ => key
  | .eraseFn key _ => key
  | .upsert key _ _ => key

/-- The operation on a value that is there: what becomes of it, and the response. -/
def found : TableOp Key T → T → Option T × Except Exn (Response T)
  | .findFn _ fn, v => (some v, (fn v).map fun copy => .value (some copy))
  | .updateFn _ fn, v =>
    match fn v with
    | .error x => (some v, .error x)
    | .ok v' => (some v', .ok (.bool true))
  | .eraseFn _ fn, v =>
    match fn v with
    | .error x => (some v, .error x)
    | .ok (_, true) => (none, .ok (.bool true))
    | .ok (v', false) => (some v', .ok (.bool true))
  | .upsert _ fn _, v =>
    match fn v with
    | .error x => (some v, .error x)
    | .ok v' => (some v', .ok (.bool false))

/-- The operation on a key that is not there. -/
def missing : TableOp Key T → Option T × Except Exn (Response T)
  | .findFn _ _ => (none, .ok (.value none))
  | .updateFn _ _ => (none, .ok (.bool false))
  | .eraseFn _ _ => (none, .ok (.bool false))
  | .upsert _ _ val => (some val, .ok (.bool true))

end TableOp

/-! ## Locks of buckets -/

/-- The locks `lock_two` takes, in its order. -/
def lockTwo (i1 i2 : ℕ) : List ℕ :=
  let (l1, l2) :=
    if lockInd i2 < lockInd i1 then (lockInd i2, lockInd i1) else (lockInd i1, lockInd i2)
  l1 :: if l2 ≠ l1 then [l2] else []

/-- The locks `lock_three` takes, in its order. -/
def lockThree (i1 i2 i3 : ℕ) : List ℕ :=
  let (l0, l1, l2) := (lockInd i1, lockInd i2, lockInd i3)
  let (l1, l2) := if l2 < l1 then (l2, l1) else (l1, l2)
  let (l0, l2) := if l2 < l0 then (l2, l0) else (l0, l2)
  let (l0, l1) := if l1 < l0 then (l1, l0) else (l0, l1)
  l0 :: (if l1 ≠ l0 then [l1] else []) ++ (if l2 ≠ l1 then [l2] else [])

/-- `TwoUnlocker` -/
def unlockTwo (i1 i2 : ℕ) : List ℕ :=
  lockInd i1 :: if lockInd i1 ≠ lockInd i2 then [lockInd i2] else []

/-- The `OneBucket` of `lock_three`, which is not active if its lock is one of the other two. -/
def unlockExtra (i1 i2 i3 : ℕ) : List ℕ :=
  if lockInd i3 = lockInd i1 ∨ lockInd i3 = lockInd i2 then [] else [lockInd i3]

/-! ## Where a thread is -/

/-- `TwoBuckets`, and the hashpower its indices were computed with. -/
structure Snapshot where
  hp : ℕ
  i1 : ℕ
  i2 : ℕ

/-- What a thread takes bucket locks for. -/
inductive Task
  /-- the operation itself -/
  | operate
  /-- `slot_search` looks at slot number `i` of the bucket of `x` -/
  | inspect (x : BSlot) (i : ℕ) (q : BQueue)
  /-- `cuckoopath_search` looks at the next record; `seen` are those before it, last one first -/
  | follow (bucket : ℕ) (slot : Slot) (rest : List Slot) (seen : List CuckooRecord)
  /-- `cuckoopath_move` on a path of one record -/
  | settle (first : CuckooRecord)
  /-- one round of `cuckoopath_move`; `rest` are the records before `source`, last one first -/
  | displace (target source : CuckooRecord) (rest : List CuckooRecord)

/-- The locks a task takes. -/
def Task.locks (s : Snapshot) : Task → List ℕ
  | .operate => lockTwo s.i1 s.i2
  | .inspect x _ _ => [lockInd x.bucket]
  | .follow bucket _ _ _ => [lockInd bucket]
  | .settle _ => lockTwo s.i1 s.i2
  | .displace target _ [] => lockThree s.i1 s.i2 target.bucket
  | .displace target source (_ :: _) => lockTwo source.bucket target.bucket

/-- The order in which a task gives them back. -/
def Task.unlocks (s : Snapshot) : Task → List ℕ
  | .operate => unlockTwo s.i1 s.i2
  | .inspect x _ _ => [lockInd x.bucket]
  | .follow bucket _ _ _ => [lockInd bucket]
  | .settle _ => unlockTwo s.i1 s.i2
  | .displace target _ [] => unlockExtra s.i1 s.i2 target.bucket ++ unlockTwo s.i1 s.i2
  | .displace target source (_ :: _) => unlockTwo source.bucket target.bucket

inductive Control (T : Type)
  /-- before `snapshot_and_lock_two` -/
  | start
  /-- the first `taken` locks of the task are taken -/
  | locking (s : Snapshot) (task : Task) (taken : ℕ)
  /-- before `check_hashpower`, with the first lock of the task taken -/
  | checking (s : Snapshot) (task : Task)
  /-- `run_cuckoo` has returned `ok`, with the two buckets locked and the slot at `p` free -/
  | freed (s : Snapshot) (p : Position)
  /-- before `cuckoo_fast_double` takes `expansion_lock_` -/
  | expanding (hp : ℕ)
  /-- before `check_resize_validity` -/
  | validating (hp : ℕ)
  /-- `snapshot_and_lock_all` has taken the first `taken` locks -/
  | lockingAll (hp taken : ℕ)
  /-- `move_buckets`: the buckets of the locks in `pending` are still to be distributed, those of
  the locks in `split` are, but the locks are not given back yet -/
  | migrating (hp : ℕ) (pending split : Finset ℕ)
  /-- before the return or the throw -/
  | finished (r : Except Exn (Response T))

/-- A call in progress. The locks in `unlocking` are given back before it goes on. -/
structure Session (Key T : Type) where
  op : TableOp Key T
  control : Control T
  unlocking : List Lock

/-! ## What a thread does next -/

inductive TableFault
  /-- `cuckoopath_move` reads the key of a slot that is not occupied. -/
  | deadKey
deriving DecidableEq, Repr

/-- What a step gets from outside. -/
structure Chance where
  lowLoad : Bool
  alloc : Allocator
  survives : Bool

lemma le_of_refused (n : ℕ) (h : false = true) : n ≤ segmentSize := absurd h Bool.false_ne_true

/-- Nothing is granted, and nothing goes wrong. -/
def Chance.plain : Chance where
  lowLoad := false
  alloc := ⟨fun _ => false, le_of_refused⟩
  survives := true

/-- The next step of a thread. -/
inductive Turn (Key T : Type)
  | blocked
  | fault (f : TableFault)
  | take (l : Lock) (c : Session Key T)
  | give (l : Lock) (c : Session Key T)
  | work (t : Table Key T) (c : Session Key T)
  | finish (r : Except Exn (Response T))

section Turns

variable {Key T : Type} [DecidableEq Key] (hash : Key → UInt64)

/-- Where an operation finds its key, or a place for it. -/
inductive Site
  | found (p : Position)
  | free (p : Position)
  | absent
  | crowded

/-- `cuckoo_find`, and for `upsert` the first half of `cuckoo_insert`. -/
def site (t : Table Key T) (op : TableOp Key T) (s : Snapshot) : Site :=
  let tag := (Table.hashedKey hash op.key).partialTag
  match op with
  | .upsert key _ _ =>
    match Table.tryFindInsertBucket (t.buckets s.i1) tag key with
    | .duplicate slot => .found (s.i1, slot)
    | .room res1 =>
      match Table.tryFindInsertBucket (t.buckets s.i2) tag key with
      | .duplicate slot => .found (s.i2, slot)
      | .room res2 =>
        match res1, res2 with
        | some slot, _ => .free (s.i1, slot)
        | none, some slot => .free (s.i2, slot)
        | none, none => .crowded
  | op =>
    match t.cuckooFind op.key tag s.i1 s.i2 with
    | some p => .found p
    | none => .absent

/-- The operation on the entry at `p`. -/
def visit (t : Table Key T) (op : TableOp Key T) (p : Position) (e : Entry Key T) :
    Table Key T × Except Exn (Response T) :=
  match op.found e.val with
  | (some v, r) => (t.setSlot p (some { e with val := v }), r)
  | (none, r) => (t.delFromBucket p, r)

/-- `add_to_bucket` for a key that is not there. -/
def add (t : Table Key T) (op : TableOp Key T) (p : Position) : Table Key T :=
  match op.missing.1 with
  | some val => t.addToBucket p ⟨(Table.hashedKey hash op.key).partialTag, op.key, val⟩
  | none => t

/-- The operation is over, and the two buckets are unlocked. -/
def Session.over (c : Session Key T) (s : Snapshot) (r : Except Exn (Response T)) :
    Session Key T :=
  { c with control := .finished r, unlocking := (unlockTwo s.i1 s.i2).map (↑) }

/-- The task is given up or done, and its locks are given back. -/
def Session.next (c : Session Key T) (s : Snapshot) (task : Task) (control : Control T) :
    Session Key T :=
  { c with control := control, unlocking := (task.unlocks s).map (↑) }

/-- The loop of `run_cuckoo` begins or goes round again. -/
def Control.search (s : Snapshot) : Control T :=
  .locking s (.inspect ⟨s.i1, 0, 0⟩ 0 [⟨s.i2, 1, 0⟩]) 0

/-- The loops of `slot_search`, and `failure_table_full` when they end. -/
def Control.resume (s : Snapshot) (x : BSlot) (i : ℕ) (q : BQueue) : Control T :=
  if q.full then .expanding s.hp
  else if i < slotPerBucket then .locking s (.inspect x i q) 0
  else
    match q with
    | [] => .expanding s.hp
    | x :: q => .locking s (.inspect x 0 q) 0

/-- `cuckoopath_search` on what `slot_search` has found. -/
def Control.trace (s : Snapshot) (x : BSlot) : Control T :=
  match Table.pathSlots (x.depth + 1) x.pathcode [] with
  | (slot :: rest, code) =>
    .locking s (.follow (if code = 0 then s.i1 else s.i2) slot rest []) 0
  | ([], _) => .search s

/-- `cuckoopath_move` on a path, last record first. -/
def Control.move (s : Snapshot) : List CuckooRecord → Control T
  | [] => .search s
  | [first] => .locking s (.settle first) 0
  | target :: source :: rest => .locking s (.displace target source rest) 0

/-- What is done with the locks of a task. -/
def runTask (ch : Chance) (t : Table Key T) (c : Session Key T) (s : Snapshot) : Task → Turn Key T
  | .operate =>
    match site hash t c.op s with
    | .found p =>
      match t.cells p with
      | some e => .work (visit t c.op p e).1 (c.over s (visit t c.op p e).2)
      | none => .blocked
    | .free p => .work (add hash t c.op p) (c.over s c.op.missing.2)
    | .absent => .work t (c.over s c.op.missing.2)
    | .crowded => .work t (c.next s .operate (.search s))
  | .inspect x i q =>
    let slot : Slot := Fin.ofNat slotPerBucket (x.pathcode % slotPerBucket + i)
    match t.buckets x.bucket slot with
    | none =>
      .work t (c.next s (.inspect x i q)
        (.trace s { x with pathcode := x.pathcode * slotPerBucket + slot }))
    | some e =>
      let y : BSlot := ⟨altIndex s.hp e.partialTag x.bucket,
        x.pathcode * slotPerBucket + slot, x.depth + 1⟩
      .work t (c.next s (.inspect x i q)
        (.resume s x (i + 1) (if x.depth < maxBfsPathLen - 1 then q ++ [y] else q)))
  | .follow bucket slot rest seen =>
    match t.buckets bucket slot with
    | none =>
      .work t (c.next s (.follow bucket slot rest seen) (.move s (⟨bucket, slot, ⟨0, 0⟩⟩ :: seen)))
    | some e =>
      let hv := Table.hashedKey hash e.key
      .work t (c.next s (.follow bucket slot rest seen)
        (match rest with
        | [] => .move s (⟨bucket, slot, hv⟩ :: seen)
        | slot' :: rest =>
          .locking s (.follow (altIndex s.hp hv.partialTag bucket) slot' rest
            (⟨bucket, slot, hv⟩ :: seen)) 0))
  | .settle first =>
    match t.buckets first.bucket first.slot with
    | none => .work t { c with control := .freed s (first.bucket, first.slot) }
    | some _ => .work t (c.next s (.settle first) (.search s))
  | .displace target source rest =>
    match t.buckets source.bucket source.slot with
    -- the key is hashed before anybody asks whether the slot is occupied
    | none =>
      if ch.survives then .work t (c.next s (.displace target source rest) (.search s))
      else .fault .deadKey
    | some e =>
      if hash e.key ≠ source.hv.hash ∨ (t.buckets target.bucket target.slot).isSome then
        .work t (c.next s (.displace target source rest) (.search s))
      else
        let t' := t.moveToBucket (source.bucket, source.slot) (target.bucket, target.slot)
        match rest with
        | [] =>
          .work t' { c with
            control := .freed s (source.bucket, source.slot)
            unlocking := (unlockExtra s.i1 s.i2 target.bucket).map (↑) }
        | source' :: rest' =>
          .work t' (c.next s (.displace target source (source' :: rest'))
            (.locking s (.displace source source' rest') 0))

/-- The next step of a call that has no locks to give back. -/
def runControl (ch : Chance) (t : Table Key T) (c : Session Key T) : Turn Key T :=
  match c.control with
  | .start =>
    let b := t.bucketIndices (Table.hashedKey hash c.op.key)
    .work t { c with control := .locking ⟨t.hashpower, b.1, b.2⟩ .operate 0 }
  | .locking s task taken =>
    match (task.locks s)[taken]? with
    | some l =>
      .take l { c with
        control := if taken = 0 then .checking s task else .locking s task (taken + 1) }
    | none => runTask hash ch t c s task
  | .checking s task =>
    if t.hashpower = s.hp then .work t { c with control := .locking s task 1 }
    else .work t { c with control := .start, unlocking := ((task.locks s).take 1).map (↑) }
  | .freed s p =>
    match t.cuckooFind c.op.key (Table.hashedKey hash c.op.key).partialTag s.i1 s.i2 with
    | some p' =>
      match t.cells p' with
      | some e => .work (visit t c.op p' e).1 (c.over s (visit t c.op p' e).2)
      | none => .blocked
    | none => .work (add hash t c.op p) (c.over s c.op.missing.2)
  | .expanding hp => .take ⊥ { c with control := .validating hp }
  | .validating hp =>
    if noMaximumHashpower ≠ 0 ∧ noMaximumHashpower < hp + 1 then
      .work t { c with
        control := .finished (.error (.maximumHashpowerExceeded (hp + 1))), unlocking := [⊥] }
    else if ch.lowLoad then
      .work t { c with control := .finished (.error .loadFactorTooLow), unlocking := [⊥] }
    else if t.hashpower ≠ hp then .work t { c with control := .start, unlocking := [⊥] }
    else .work t { c with control := .lockingAll hp 0 }
  | .lockingAll hp taken =>
    if taken < t.numLocks then .take taken { c with control := .lockingAll hp (taken + 1) }
    else if ch.alloc.grants (hashsize t.hashpower * 2) then
      .work t.enlarge { c with
        control := .migrating hp (Finset.range (min t.numLocks (hashsize hp))) ∅ }
    else
      .work t { c with
        control := .finished (.error .badAlloc)
        unlocking := (List.range t.numLocks).map (↑) ++ [⊥] }
  | .migrating hp pending split =>
    if pending = ∅ ∧ split = ∅ then
      .work t { c with
        control := .start
        unlocking := ((List.range t.numLocks).drop (min t.numLocks (hashsize hp))).map (↑) ++ [⊥] }
    else .blocked
  | .finished r => .finish r

/-- The next step of a call. -/
def turn (ch : Chance) (t : Table Key T) (c : Session Key T) : Turn Key T :=
  match c.unlocking with
  | l :: ls => .give l { c with unlocking := ls }
  | [] => runControl hash ch t c

/-- The part of `move_buckets` that is about one lock. -/
def splitLock (hp l : ℕ) (t : Table Key T) : Table Key T :=
  (Table.bucketsOfLock hp l).foldl (Table.splitBucket hash hp) t

end Turns

/-! ## The system -/

/-- The table, its locks and the calls in progress. -/
structure State (Key T : Type) where
  table : Table Key T
  owner : Lock → Option ThreadId
  sessions : ThreadId → Option (Session Key T)

inductive Action (Key T : Type)
  | invoke (i : ThreadId) (op : TableOp Key T)
  | advance (i : ThreadId) (ch : Chance)
  /-- a worker thread distributes the buckets of a lock -/
  | split (i : ThreadId) (l : ℕ)
  /-- and gives the lock back -/
  | unlock (i : ThreadId) (l : ℕ)

abbrev Event (Key T : Type) :=
  Linearizable.Event ThreadId (TableOp Key T) (Except Exn (Response T))

namespace State

variable {Key T : Type}

/-- The table of a new dictionary. -/
def init : State Key T where
  table := .create defaultSize
  owner _ := none
  sessions _ := none

def setSession (w : State Key T) (i : ThreadId) (c : Option (Session Key T)) : State Key T :=
  { w with sessions := Function.update w.sessions i c }

def setOwner (w : State Key T) (l : Lock) (o : Option ThreadId) : State Key T :=
  { w with owner := Function.update w.owner l o }

def invoke (w : State Key T) (i : ThreadId) (op : TableOp Key T) :
    Outcome (State Key T) (Event Key T) TableFault :=
  match w.sessions i with
  | none => .next (w.setSession i (some ⟨op, .start, []⟩)) (.invoked i op)
  | some _ => .blocked

/-- A thread takes its next step. -/
def perform (w : State Key T) (i : ThreadId) :
    Turn Key T → Outcome (State Key T) (Event Key T) TableFault
  | .blocked => .blocked
  | .fault f => .fault f
  | .take l c =>
    if (w.owner l).isNone then .next ((w.setOwner l (some i)).setSession i (some c)) .silent
    else .blocked
  | .give l c => .next ((w.setOwner l none).setSession i (some c)) .silent
  | .work t c => .next ({ w with table := t }.setSession i (some c)) .silent
  | .finish r => .next (w.setSession i none) (.responded i r)

variable [DecidableEq Key] (hash : Key → UInt64)

def advance (w : State Key T) (i : ThreadId) (ch : Chance) :
    Outcome (State Key T) (Event Key T) TableFault :=
  match w.sessions i with
  | none => .blocked
  | some c => w.perform i (turn hash ch w.table c)

def split (w : State Key T) (i : ThreadId) (l : ℕ) :
    Outcome (State Key T) (Event Key T) TableFault :=
  match w.sessions i with
  | some ⟨op, .migrating hp pending split, []⟩ =>
    if l ∈ pending then
      .next ({ w with table := splitLock hash hp l w.table }.setSession i
        (some ⟨op, .migrating hp (pending.erase l) (insert l split), []⟩)) .silent
    else .blocked
  | _ => .blocked

def unlock (w : State Key T) (i : ThreadId) (l : ℕ) :
    Outcome (State Key T) (Event Key T) TableFault :=
  match w.sessions i with
  | some ⟨op, .migrating hp pending split, []⟩ =>
    if l ∈ split then
      .next ((w.setOwner l none).setSession i
        (some ⟨op, .migrating hp pending (split.erase l), []⟩)) .silent
    else .blocked
  | _ => .blocked

def step (w : State Key T) : Action Key T → Outcome (State Key T) (Event Key T) TableFault
  | .invoke i op => w.invoke i op
  | .advance i ch => w.advance hash i ch
  | .split i l => w.split hash i l
  | .unlock i l => w.unlock i l

end State

/-- The threads and the table they share. -/
def system {Key T : Type} [DecidableEq Key] (hash : Key → UInt64) :
    System (State Key T) (Action Key T) (Event Key T) TableFault where
  init := .init
  step := State.step hash

end Jakilid.Cuckoo.Concurrent
