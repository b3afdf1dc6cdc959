import Jakilid.Lib.Transition
import Jakilid.SharedDict

/-!
# Handles, threads and the shared segment

Any number of threads, in one process or several, work on `SharedDict` objects (`Handle`), which
are looked up in one shared memory segment. A call is not atomic: it opens the map, serialises
the key, for `Insert` serialises the value, and then makes one operation on the map; between
these steps other threads go on. The callback of an `Insert` runs inside the map operation, under
the locks of its two buckets, so that it is no step of its own.

What is taken from outside the source: `find_or_construct` returns the object registered under
the name or registers a new one, and `destroy` unregisters it and ends its life. Opening the
segment itself succeeds. `open()` and the read of `hash_map_` that follows it are one step: two
threads at once in between are a data race on `hash_map_`, which has no behaviour to model.
-/

namespace Jakilid

open Cuckoo Transition

abbrev ThreadId := ℕ

abbrev HandleId := ℕ

abbrev ObjectId := ℕ

/-- What `name.c_str()` points to, without the NUL. -/
abbrev Name := List UInt8

/-! ## The segment -/

/-- The named maps in the segment. Registered objects are alive, no object has two names, and no
object gets an identity that is in use. -/
structure Segment (hash : SharedString → UInt64) where
  registry : Name → Option ObjectId
  objects : ObjectId → Option (HashMap hash)
  fresh : ObjectId
  live : ∀ {name o}, registry name = some o → ∃ m, objects o = some m
  apart : ∀ {name name' o}, registry name = some o → registry name' = some o → name = name'
  old : ∀ {name o}, registry name = some o → o < fresh

namespace Segment

variable {hash : SharedString → UInt64}

/-- The segment `open_or_create` creates. -/
def create : Segment hash where
  registry _ := none
  objects _ := none
  fresh := 0
  live := nofun
  apart := nofun
  old := nofun

/-- A new map is registered under the name. -/
def construct (s : Segment hash) (name : Name) : Segment hash where
  registry := Function.update s.registry name (some s.fresh)
  objects := Function.update s.objects s.fresh (some HashMap.create)
  fresh := s.fresh + 1
  live {name' o} h := by
    rw [Function.update_apply] at h ⊢
    split at h
    · obtain rfl := Option.some.inj h
      exact ⟨_, if_pos rfl⟩
    · rw [if_neg (s.old h).ne]
      exact s.live h
  apart {name' name'' o} h h' := by
    rw [Function.update_apply] at h h'
    split at h <;> split at h'
    · next h₁ h₂ => exact h₁.trans h₂.symm
    · exact absurd (Option.some.inj h).symm (s.old h').ne
    · exact absurd (Option.some.inj h').symm (s.old h).ne
    · exact s.apart h h'
  old {name' o} h := by
    rw [Function.update_apply] at h
    split at h
    · exact (Option.some.inj h).ge.trans_lt (Nat.lt_succ_self _)
    · exact (s.old h).trans (Nat.lt_succ_self _)

/-- `find_or_construct<HashMap>`. A new map takes memory. -/
def findOrConstruct (s : Segment hash) (name : Name) (granted : Bool) :
    Segment hash × Except Exn ObjectId :=
  match s.registry name with
  | some o => (s, .ok o)
  | none => if granted then (s.construct name, .ok s.fresh) else (s, .error .badAlloc)

/-- The object registered under the name is unregistered and its life ends. -/
def unregister (s : Segment hash) (name : Name) (o : ObjectId) (ho : s.registry name = some o) :
    Segment hash where
  registry := Function.update s.registry name none
  objects := Function.update s.objects o none
  fresh := s.fresh
  live {name' o'} h := by
    rw [Function.update_apply] at h
    split at h
    · cases h
    · next hne =>
      rw [Function.update_of_ne]
      · exact s.live h
      · rintro rfl
        exact hne (s.apart h ho)
  apart {name' name'' o'} h h' := by
    rw [Function.update_apply] at h h'
    split at h
    · cases h
    · split at h'
      · cases h'
      · exact s.apart h h'
  old {name' o'} h := by
    rw [Function.update_apply] at h
    split at h
    · cases h
    · exact s.old h

/-- `destroy<HashMap>` -/
def destroy (s : Segment hash) (name : Name) : Segment hash × Bool :=
  match ho : s.registry name with
  | some o => (s.unregister name o ho, true)
  | none => (s, false)

/-- An operation leaves `m` in an object. -/
def write (s : Segment hash) (o : ObjectId) (m : HashMap hash) : Segment hash where
  registry := s.registry
  objects := Function.update s.objects o (some m)
  fresh := s.fresh
  live {name' o'} h := by
    rw [Function.update_apply]
    split
    · exact ⟨m, rfl⟩
    · exact s.live h
  apart := s.apart
  old := s.old

end Segment

/-! ## Handles and calls -/

/-- A value of `hash_map_`: an object, and the mapping of the segment through which its address
was obtained. A thread maps the segment at most once, so a mapping is named by its thread. -/
structure Pointer where
  mapping : ThreadId
  object : ObjectId
deriving DecidableEq, Repr

/-- A `SharedDict`. -/
structure Handle where
  name : Name
  hashMap : Option Pointer
  /-- Another handle dropped the name since `hash_map_` was set. No step reads this. -/
  outdated : Bool

/-- An operation with its arguments. `find` is `FindRaw`, or `Find` up to the decoding. -/
inductive Op
  | insert (key value : Arg)
  | find (key : Arg)
  | contains (key : Arg)
  | erase (key : Arg)
  | size
  | empty

/-- The key an operation serialises. -/
def Op.key? : Op → Option Arg
  | .insert key _ => some key
  | .find key => some key
  | .contains key => some key
  | .erase key => some key
  | .size => none
  | .empty => none

/-- How far a call has come. -/
inductive Progress
  | opened
  | keyed (key : SharedString)
  | valued (key value : SharedString)

/-- A call in progress. `map` is `hash_map_` as it was read behind `open()`. -/
structure Call where
  handle : HandleId
  name : Name
  op : Op
  map : Pointer
  progress : Progress

/-- What an operation returns. -/
inductive Result
  | bool (b : Bool)
  | raw (value : Option SharedString)
  | size (n : BitVec 64)

/-- The operation on the map, once its arguments are serialised. -/
def Call.operation {hash : SharedString → UInt64} (c : Call) (callback : Draw)
    (copyGranted : Bool) (alloc : Allocator) :
    Option (HashMap hash → HashMap hash × Except Exn Result) :=
  match c.op, c.progress with
  | .insert _ value, .valued k v => some fun m =>
      let r := m.upsert alloc k (fun _ => internalSerialize value callback) v
      (r.1, r.2.map .bool)
  | .find _, .keyed k => some fun m => (m, (m.copyOut k copyGranted).map .raw)
  | .contains _, .keyed k => some fun m => (m, .ok (.bool (m.contains k)))
  | .erase _, .keyed k => some fun m => ((m.erase k).1, .ok (.bool (m.erase k).2))
  | .size, .opened => some fun m => (m, .ok (.size m.size))
  | .empty, .opened => some fun m => (m, .ok (.bool m.empty))
  | _, _ => none

/-! ## Steps -/

structure World (hash : SharedString → UInt64) where
  shared : Segment hash
  /-- `segment_` of the thread is set, and its mapping is there. -/
  segment : ThreadId → Bool
  exited : ThreadId → Bool
  handles : HandleId → Option Handle
  calls : ThreadId → Option Call

/-- What a thread does next. The Booleans and draws say which allocations are granted. -/
inductive Action
  | construct (T : ThreadId) (h : HandleId) (name : Name) (granted : Bool)
  | call (T : ThreadId) (h : HandleId) (op : Op) (granted : Bool)
  | serializeKey (T : ThreadId) (d : Draw)
  | serializeValue (T : ThreadId) (d : Draw)
  | access (T : ThreadId) (callback : Draw) (copyGranted : Bool) (alloc : Allocator)
  | drop (T : ThreadId) (h : HandleId)
  | exit (T : ThreadId)

/-- What can be seen of a step. -/
inductive Event
  | silent
  | opened (name : Name)
  | returned (name : Name) (op : Op) (r : Result)
  | threw (e : Exn)
  | dropped (name : Name) (existed : Bool)

inductive Fault
  /-- `segment_` is dereferenced but not set. -/
  | nullSegment
  /-- The mapping `hash_map_` points into is gone. -/
  | unmapped
  /-- The strings of the operation are from another mapping than its map. -/
  | foreignMapping
  /-- The map `hash_map_` points to was dropped. -/
  | dropped
deriving DecidableEq, Repr

/-- What can be seen of the end of a call. -/
def Call.answer (c : Call) : Except Exn Result → Event
  | .ok r => .returned c.name c.op r
  | .error e => .threw e

namespace World

variable {hash : SharedString → UInt64}

def init : World hash where
  shared := .create
  segment _ := false
  exited _ := false
  handles _ := none
  calls _ := none

/-- The thread is there and in no call. -/
def idle (w : World hash) (T : ThreadId) : Bool := !w.exited T && (w.calls T).isNone

/-- `open_manager` -/
def openManager (w : World hash) (T : ThreadId) : World hash :=
  { w with segment := Function.update w.segment T true }

/-- `open()` -/
def openMap (w : World hash) (T : ThreadId) (hashMap : Option Pointer) (name : Name)
    (granted : Bool) : World hash × Except Exn Pointer :=
  match hashMap with
  | some p => (w, .ok p)
  | none =>
    let r := (w.openManager T).shared.findOrConstruct name granted
    ({ w.openManager T with shared := r.1 }, r.2.map (Pointer.mk T))

def setHandle (w : World hash) (h : HandleId) (hd : Handle) : World hash :=
  { w with handles := Function.update w.handles h (some hd) }

def setCall (w : World hash) (T : ThreadId) (c : Option Call) : World hash :=
  { w with calls := Function.update w.calls T c }

/-- A new `SharedDict`. -/
def construct (w : World hash) (T : ThreadId) (h : HandleId) (name : Name) (granted : Bool) :
    Outcome (World hash) Event Fault :=
  if w.idle T && (w.handles h).isNone then
    match w.openMap T none name granted with
    | (w', .error e) => .next w' (.threw e)
    | (w', .ok p) => .next (w'.setHandle h ⟨name, some p, false⟩) (.opened name)
  else .blocked

/-- A call begins: `open()`, and the read of `hash_map_`. -/
def call (w : World hash) (T : ThreadId) (h : HandleId) (op : Op) (granted : Bool) :
    Outcome (World hash) Event Fault :=
  match w.idle T, w.handles h with
  | true, some hd =>
    match w.openMap T hd.hashMap hd.name granted with
    | (w', .error e) => .next w' (.threw e)
    | (w', .ok p) =>
      .next ((w'.setHandle h { hd with hashMap := some p }).setCall T
        (some ⟨h, hd.name, op, p, .opened⟩)) (.opened hd.name)
  | _, _ => .blocked

/-- `InternalSerialize` of an argument, on `manager()`, and how the call goes on with it. -/
def serializeArg (w : World hash) (T : ThreadId) (c : Call) (a : Arg) (d : Draw)
    (progress : SharedString → Progress) : Outcome (World hash) Event Fault :=
  if w.segment T then
    match internalSerialize a d with
    | .error e => .next (w.setCall T none) (.threw e)
    | .ok s => .next (w.setCall T (some { c with progress := progress s })) .silent
  else .fault .nullSegment

def serializeKey (w : World hash) (T : ThreadId) (d : Draw) : Outcome (World hash) Event Fault :=
  match w.calls T with
  | none => .blocked
  | some c =>
    match c.op.key?, c.progress with
    | some key, .opened => w.serializeArg T c key d .keyed
    | _, _ => .blocked

def serializeValue (w : World hash) (T : ThreadId) (d : Draw) : Outcome (World hash) Event Fault :=
  match w.calls T with
  | none => .blocked
  | some c =>
    match c.op, c.progress with
    | .insert _ value, .keyed k => w.serializeArg T c value d (.valued k)
    | _, _ => .blocked

/-- The operation on the map. -/
def access (w : World hash) (T : ThreadId) (callback : Draw) (copyGranted : Bool)
    (alloc : Allocator) : Outcome (World hash) Event Fault :=
  match w.calls T with
  | none => .blocked
  | some c =>
    let operation : Option (HashMap hash → HashMap hash × Except Exn Result) :=
      c.operation callback copyGranted alloc
    match operation with
    | none => .blocked
    | some f =>
      if !w.segment c.map.mapping then .fault .unmapped
      else if c.op.key?.isSome && c.map.mapping != T then .fault .foreignMapping
      else
        match w.shared.objects c.map.object with
        | none => .fault .dropped
        | some m =>
          .next ({ w with shared := w.shared.write c.map.object (f m).1 }.setCall T none)
            (c.answer (f m).2)

/-- What a `Drop` leaves of the handles: its own `hash_map_` is null; the others of the name know
nothing of it. -/
def forget (w : World hash) (h : HandleId) (name : Name) : HandleId → Option Handle := fun h' =>
  (w.handles h').map fun hd =>
    if h' = h then { hd with hashMap := none, outdated := false }
    else { hd with outdated := hd.outdated || (hd.name == name && hd.hashMap.isSome) }

/-- `Drop` -/
def drop (w : World hash) (T : ThreadId) (h : HandleId) : Outcome (World hash) Event Fault :=
  match w.idle T, w.handles h with
  | true, some hd =>
    if w.segment T then
      .next { w with
        shared := (w.shared.destroy hd.name).1
        handles := w.forget h hd.name } (.dropped hd.name (w.shared.destroy hd.name).2)
    else .fault .nullSegment
  | _, _ => .blocked

/-- The thread ends, and with it its `segment_`. -/
def exit (w : World hash) (T : ThreadId) : Outcome (World hash) Event Fault :=
  if w.idle T then
    .next { w with
      segment := Function.update w.segment T false
      exited := Function.update w.exited T true } .silent
  else .blocked

def step (w : World hash) : Action → Outcome (World hash) Event Fault
  | .construct T h name granted => w.construct T h name granted
  | .call T h op granted => w.call T h op granted
  | .serializeKey T d => w.serializeKey T d
  | .serializeValue T d => w.serializeValue T d
  | .access T callback copyGranted alloc => w.access T callback copyGranted alloc
  | .drop T h => w.drop T h
  | .exit T => w.exit T

end World

/-- The threads and their handles as a system. -/
def system (hash : SharedString → UInt64) : System (World hash) Action Event Fault where
  init := .init
  step := World.step

end Jakilid
