import Jakilid.HashMap
import Jakilid.SerializerTheorems

/-!
# The calls of `SharedDict` on an open map

`Insert`, `Find`, `FindRaw`, `Contains` and `Erase` as they act on the map `hash_map_` points to,
one call after the other. How a handle comes by its map, and what happens when the steps of
calls interleave, is the subject of `Jakilid.World`.

What a call gets from outside the program is its `Supply`: which allocations the segment grants,
and what the padding bytes of the copies hold that `Serialize` makes of a `long double`.
-/

namespace Jakilid

open Cuckoo

/-! ## Arguments -/

/-- An argument of a call: a value with a `Serialize` overload, or one of another type, of which
only what its `ToByteArray` returns matters. -/
inductive Arg
  | builtin (U : Storable) (u : U.Val)
  | user (byteArray : List UInt8)

/-- The characters of the string an argument is turned into. -/
def Arg.bytes : Arg → Padding → SharedString
  | .builtin U u, padding => serialize U u padding
  | .user byteArray, _ => byteArray

/-- A type without overloads of its own: what the user declares for it. -/
structure UserCodec (W : Type) where
  toByteArray : W → List UInt8
  fromByteArray : List UInt8 → W
  fromByteArray_toByteArray : ∀ w, fromByteArray (toByteArray w) = w

/-- What one serialisation gets from outside. -/
structure Draw where
  granted : Bool
  padding : Padding

/-- What one call gets from outside. -/
structure Supply where
  key : Draw
  value : Draw
  /-- the serialisation in the callback of `Insert` -/
  callback : Draw
  /-- whether the copy of the value a `find` makes gets its memory -/
  copyGranted : Bool
  alloc : Allocator

/-- Every string gets its memory and every padding byte is zero; no larger table is granted. -/
def Supply.granting : Supply where
  key := ⟨true, 0⟩
  value := ⟨true, 0⟩
  callback := ⟨true, 0⟩
  copyGranted := true
  alloc := ⟨fun _ => false, nofun⟩

/-- `InternalSerialize` -/
def internalSerialize (a : Arg) (d : Draw) : Except Exn SharedString :=
  if d.granted then .ok (a.bytes d.padding) else .error .badAlloc

/-- How a `Find` ends when it does not return. -/
inductive FindError
  | exn (e : Exn)
  | decode (e : DecodeError)
deriving DecidableEq, Repr

/-! ## Calls -/

namespace HashMap

variable {hash : SharedString → UInt64}

/-- `Insert` -/
def insert (m : HashMap hash) (key value : Arg) (s : Supply) : HashMap hash × Except Exn Bool :=
  match internalSerialize key s.key with
  | .error e => (m, .error e)
  | .ok k =>
    match internalSerialize value s.value with
    | .error e => (m, .error e)
    | .ok v => m.upsert s.alloc k (fun _ => internalSerialize value s.callback) v

/-- `hash_map_->find(key, res)` on an empty `res`. -/
def copyOut (m : HashMap hash) (key : SharedString) (copyGranted : Bool) :
    Except Exn (Option SharedString) :=
  match m.find key with
  | none => .ok none
  | some v => if copyGranted then .ok (some v) else .error .badAlloc

/-- `FindRaw` -/
def findRaw (m : HashMap hash) (key : Arg) (s : Supply) : Except Exn (Option SharedString) :=
  match internalSerialize key s.key with
  | .error e => .error e
  | .ok k => m.copyOut k s.copyGranted

/-- `Find<V>` for a type with a `Deserialize` overload. -/
def findAs (V : Readable) (m : HashMap hash) (key : Arg) (s : Supply) :
    Except FindError (Option V.Val) :=
  match m.findRaw key s with
  | .error e => .error (.exn e)
  | .ok none => .ok none
  | .ok (some res) =>
    match deserialize V res with
    | .error e => .error (.decode e)
    | .ok v => .ok (some v)

/-- `Find<W>` for another type, up to the byte array that `FromByteArray<W>` is called with. -/
def findByteArray (m : HashMap hash) (key : Arg) (s : Supply) :
    Except FindError (Option (List UInt8)) :=
  match m.findRaw key s with
  | .error e => .error (.exn e)
  | .ok none => .ok none
  | .ok (some res) => .ok (some res)

/-- `Find<W>` for another type. -/
def findUser {W : Type} (codec : UserCodec W) (m : HashMap hash) (key : Arg) (s : Supply) :
    Except FindError (Option W) :=
  (m.findByteArray key s).map (Option.map codec.fromByteArray)

/-- `Contains` -/
def containsKey (m : HashMap hash) (key : Arg) (s : Supply) : Except Exn Bool :=
  (internalSerialize key s.key).map m.contains

/-- `Erase` -/
def eraseKey (m : HashMap hash) (key : Arg) (s : Supply) : HashMap hash × Except Exn Bool :=
  match internalSerialize key s.key with
  | .error e => (m, .error e)
  | .ok k => ((m.erase k).1, .ok (m.erase k).2)

end HashMap

/-! ## What the calls do -/

lemma internalSerialize_of_granted {d : Draw} (h : d.granted = true) (a : Arg) :
    internalSerialize a d = .ok (a.bytes d.padding) := by
  rw [internalSerialize, if_pos h]

lemma internalSerialize_eq_ok {a : Arg} {d : Draw} {k : SharedString}
    (h : internalSerialize a d = .ok k) : d.granted = true ∧ k = a.bytes d.padding := by
  rw [internalSerialize] at h
  split at h
  · next hd => exact ⟨hd, (Except.ok.inj h).symm⟩
  · cases h

lemma internalSerialize_eq_error {a : Arg} {d : Draw} {e : Exn}
    (h : internalSerialize a d = .error e) : e = .badAlloc := by
  rw [internalSerialize] at h
  split at h
  · cases h
  · exact (Except.error.inj h).symm

namespace HashMap

variable {hash : SharedString → UInt64} {m : HashMap hash} {key value : Arg} {s : Supply}

/-- An `Insert` that returns leaves the value under the key, as serialised for a new entry or in
the callback, and every other entry as it was. -/
theorem find_insert {b : Bool} (h : (m.insert key value s).2 = .ok b) :
    ∃ d, (d = s.value ∨ d = s.callback) ∧
      b = (m.find (key.bytes s.key.padding)).isNone ∧
      (m.insert key value s).1.find
        = Function.update m.find (key.bytes s.key.padding) (some (value.bytes d.padding)) := by
  rw [insert] at h ⊢
  cases hk : internalSerialize key s.key with
  | error e => simp [hk] at h
  | ok k =>
    obtain ⟨-, rfl⟩ := internalSerialize_eq_ok hk
    cases hv : internalSerialize value s.value with
    | error e => simp [hk, hv] at h
    | ok v =>
      obtain ⟨-, rfl⟩ := internalSerialize_eq_ok hv
      simp only [hk, hv] at h ⊢
      have hspec := m.upsert_spec s.alloc (key.bytes s.key.padding)
        (fun _ => internalSerialize value s.callback) (value.bytes s.value.padding)
      rw [h] at hspec
      generalize (m.upsert s.alloc (key.bytes s.key.padding)
        (fun _ => internalSerialize value s.callback) (value.bytes s.value.padding)).1.find = f
        at hspec ⊢
      cases hspec with
      | inserted hnone => exact ⟨s.value, .inl rfl, by rw [hnone]; rfl, rfl⟩
      | updated hsome hfn =>
        obtain ⟨-, rfl⟩ := internalSerialize_eq_ok hfn
        exact ⟨s.callback, .inr rfl, by rw [hsome]; rfl, rfl⟩

/-- An `Insert` that throws changes nothing. -/
theorem find_insert_of_error {e : Exn} (h : (m.insert key value s).2 = .error e) :
    (m.insert key value s).1.find = m.find := by
  rw [insert] at h ⊢
  cases hk : internalSerialize key s.key with
  | error e => rfl
  | ok k =>
    cases hv : internalSerialize value s.value with
    | error e => rfl
    | ok v =>
      simp only [hk, hv] at h ⊢
      have hspec := m.upsert_spec s.alloc k (fun _ => internalSerialize value s.callback) v
      rw [h] at hspec
      generalize (m.upsert s.alloc k (fun _ => internalSerialize value s.callback) v).1.find = f
        at hspec ⊢
      cases hspec with
      | thrown hsome hfn => rfl
      | failed hnone hx => rfl

/-- `FindRaw` when it gets its memory. -/
lemma findRaw_of_granted (hkey : s.key.granted = true) (hcopy : s.copyGranted = true) :
    m.findRaw key s = .ok (m.find (key.bytes s.key.padding)) := by
  rw [findRaw, internalSerialize_of_granted hkey]
  simp only [copyOut, hcopy, if_true]
  cases m.find (key.bytes s.key.padding) <;> rfl

/-- `Erase` removes the key and nothing else. -/
lemma find_eraseKey_of_granted (hkey : s.key.granted = true) :
    (m.eraseKey key s).1.find = Function.update m.find (key.bytes s.key.padding) none := by
  rw [eraseKey, internalSerialize_of_granted hkey]
  exact m.find_erase _

end HashMap

/-! ## Runs of calls -/

/-- A call that may change a dictionary. -/
inductive Change
  | insert (key value : Arg) (s : Supply)
  | erase (key : Arg) (s : Supply)

/-- The key of a call. -/
def Change.keyBytes : Change → SharedString
  | .insert key _ s => key.bytes s.key.padding
  | .erase key s => key.bytes s.key.padding

/-- The call is an `Erase` that gets its memory. -/
def Change.Erases : Change → Prop
  | .insert _ _ _ => False
  | .erase _ s => s.key.granted = true

namespace HashMap

variable {hash : SharedString → UInt64}

def change (m : HashMap hash) : Change → HashMap hash
  | .insert key value s => (m.insert key value s).1
  | .erase key s => (m.eraseKey key s).1

/-- The calls are made one after the other. -/
def run (m : HashMap hash) (cs : List Change) : HashMap hash := cs.foldl change m

lemma run_append (m : HashMap hash) (cs cs' : List Change) :
    m.run (cs ++ cs') = (m.run cs).run cs' :=
  List.foldl_append

/-- A call leaves all other keys alone. -/
lemma find_change_of_ne {m : HashMap hash} {c : Change} {k : SharedString}
    (h : k ≠ c.keyBytes) : (m.change c).find k = m.find k := by
  cases c with
  | insert key value s =>
    cases hr : (m.insert key value s).2 with
    | error e => exact congrFun (find_insert_of_error hr) k
    | ok b =>
      obtain ⟨d, -, -, hfind⟩ := find_insert hr
      exact (congrFun hfind k).trans (Function.update_of_ne h _ _)
  | erase key s =>
    rw [change, eraseKey]
    cases hk : internalSerialize key s.key with
    | error e => rfl
    | ok k' =>
      obtain ⟨-, rfl⟩ := internalSerialize_eq_ok hk
      exact (congrFun (m.find_erase _) k).trans (Function.update_of_ne h _ _)

/-- **Frame rule.** A run of calls leaves the keys alone that none of them is about. -/
theorem find_run_of_notMem {m : HashMap hash} {cs : List Change} {k : SharedString}
    (h : k ∉ cs.map Change.keyBytes) : (m.run cs).find k = m.find k := by
  induction cs generalizing m with
  | nil => rfl
  | cons c cs ih =>
    rw [List.map_cons, List.mem_cons, not_or] at h
    exact (ih h.2).trans (find_change_of_ne h.1)

/-- Keys that are erased one after the other are gone at the end. -/
lemma find_run_erases {m : HashMap hash} {cs : List Change} {k : SharedString}
    (hcs : ∀ c ∈ cs, c.Erases) (hk : k ∈ cs.map Change.keyBytes) : (m.run cs).find k = none := by
  induction cs generalizing m with
  | nil => cases hk
  | cons c cs ih =>
    by_cases hlater : k ∈ cs.map Change.keyBytes
    · exact ih (fun c' hc' => hcs c' (List.mem_cons_of_mem c hc')) hlater
    · refine (find_run_of_notMem hlater).trans ?_
      rw [List.map_cons, List.mem_cons] at hk
      have hc := hcs c List.mem_cons_self
      cases c with
      | insert key value s => exact hc.elim
      | erase key s =>
        obtain rfl : k = key.bytes s.key.padding := hk.resolve_right hlater
        rw [change, find_eraseKey_of_granted hc]
        exact Function.update_self ..

end HashMap

end Jakilid
