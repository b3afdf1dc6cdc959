import Jakilid.SharedDict
import Jakilid.Cuckoo.CounterTheorems

/-!
# When `Empty` is right

`Size` adds up the counters of the locks, `Empty` looks at each of them. After any run of
`Insert` and `Erase` calls on a fresh dictionary `Size` is zero exactly when there are no keys,
but `Empty` is right only if there are keys, or if every lock is the end of as many relocation
paths as it is the start of (`emptyAgrees_iff`).
-/

namespace Jakilid

open Cuckoo

namespace HashMap

variable {hash : SharedString → UInt64}

/-- `Empty`, `Contains` and `Size` tell the same about whether there are keys. -/
def EmptyAgrees (m : HashMap hash) : Prop :=
  (m.empty = true ↔ ∀ key, m.contains key = false) ∧ (m.empty = true ↔ m.size = 0)

/-! ## Relocations of a run -/

/-- The ends of the path along which a call relocates entries, if it does. -/
def relocation (m : HashMap hash) : Change → Option (ℕ × ℕ)
  | .insert key _ s =>
    if s.key.granted && s.value.granted then
      Table.relocation hash s.alloc (key.bytes s.key.padding) Table.doublingFuel m.table
    else none
  | .erase _ _ => none

/-- The ends of all relocation paths of a run. -/
def relocations : HashMap hash → List Change → List (ℕ × ℕ)
  | _, [] => []
  | m, c :: cs => (m.relocation c).toList ++ relocations (m.change c) cs

/-- One call changes the drift where it relocates entries. -/
lemma drift_change (m : HashMap hash) (c : Change) (l : ℕ) :
    (m.change c).table.drift l = m.table.drift l + Table.shift (m.relocation c) l := by
  cases c with
  | insert key value s =>
    rw [change, insert, relocation]
    cases hk : s.key.granted with
    | false =>
      simp only [internalSerialize, hk, Bool.false_and]
      exact (add_zero _).symm
    | true =>
      rw [internalSerialize_of_granted hk]
      cases hv : s.value.granted with
      | false =>
        simp only [internalSerialize, hv, Bool.and_false]
        exact (add_zero _).symm
      | true =>
        rw [internalSerialize_of_granted hv]
        exact m.wellFormed.drift_upsert s.alloc _ _ _ l
  | erase key s =>
    rw [change, eraseKey, relocation]
    cases hk : internalSerialize key s.key with
    | error e => exact (add_zero _).symm
    | ok k =>
      refine (congrFun (m.wellFormed.drift_erase k) l).trans ?_
      exact (add_zero _).symm

lemma drift_run (m : HashMap hash) (cs : List Change) (l : ℕ) :
    (m.run cs).table.drift l
      = m.table.drift l + ((m.relocations cs).map fun p => Table.shift (some p) l).sum := by
  induction cs generalizing m with
  | nil => exact (add_zero _).symm
  | cons c cs ih =>
    have hstep : ((m.relocation c).toList.map fun p => Table.shift (some p) l).sum
        = Table.shift (m.relocation c) l := by
      cases m.relocation c <;> simp [Table.shift]
    rw [relocations, List.map_append, List.sum_append, hstep, ← add_assoc, ← drift_change]
    exact ih (m.change c)

/-- The drifts of a list of paths at a lock: the paths that start there, less the paths that
end there. -/
lemma sum_shift (ends : List (ℕ × ℕ)) (l : ℕ) :
    (ends.map fun p => Table.shift (some p) l).sum
      = BitVec.ofNat 64 (ends.countP (·.1 = l)) - BitVec.ofNat 64 (ends.countP (·.2 = l)) := by
  induction ends with
  | nil => exact (sub_self _).symm
  | cons p ends ih =>
    have hone : ∀ (c : Prop) [Decidable c],
        BitVec.ofNat 64 (if c then 1 else 0) = if c then 1 else 0 :=
      fun c _ => apply_ite (BitVec.ofNat 64) _ _ _
    rw [List.map_cons, List.sum_cons, ih, Table.shift, List.countP_cons, List.countP_cons,
      BitVec.ofNat_add, BitVec.ofNat_add]
    simp only [decide_eq_true_eq, hone]
    ring

/-! ## `Empty` -/

/-- No key, no entry. -/
lemma cells_eq_none_iff (m : HashMap hash) :
    (∀ p, m.table.cells p = none) ↔ ∀ key, m.find key = none := by
  constructor
  · intro h key
    refine (m.wellFormed.find_eq_none_iff key).mpr ?_
    rintro e ⟨p, hp⟩
    rw [h p] at hp
    cases hp
  · intro h p
    cases hp : m.table.cells p with
    | none => rfl
    | some e =>
      exact absurd rfl ((m.wellFormed.find_eq_none_iff e.key).mp (h e.key) e ⟨p, hp⟩)

lemma contains_eq_false_iff (m : HashMap hash) :
    (∀ key, m.contains key = false) ↔ ∀ key, m.find key = none := by
  simp only [contains_eq, Option.isSome_eq_false_iff, Option.isNone_iff_eq_none]

/-- `Size` and `Contains` always agree. -/
lemma size_eq_zero_iff_contains (m : HashMap hash) :
    m.size = 0 ↔ ∀ key, m.contains key = false := by
  rw [size_eq_zero_iff, contains_eq_false_iff]

lemma emptyAgrees_iff_drift (m : HashMap hash) :
    m.EmptyAgrees ↔ (∃ key, m.contains key = true) ∨ ∀ l < maxNumLocks, m.table.drift l = 0 := by
  have hkeys : (∃ key, m.contains key = true) ↔ ∃ p, m.table.cells p ≠ none := by
    rw [← not_iff_not, not_exists, not_exists]
    simp only [Bool.not_eq_true, not_not]
    rw [contains_eq_false_iff, cells_eq_none_iff]
  rw [EmptyAgrees, size_eq_zero_iff_contains, and_self, contains_eq_false_iff,
    ← cells_eq_none_iff, hkeys]
  exact m.wellFormed.empty_iff

/-- **`Empty`.** After a run of calls on a fresh dictionary `Empty` agrees with `Contains` and
`Size` if and only if some key is present, or as many relocation paths of the run start under
each lock as end under it, modulo `2 ^ 64`. -/
theorem emptyAgrees_iff (cs : List Change) :
    ((create : HashMap hash).run cs).EmptyAgrees ↔
      (∃ key, ((create : HashMap hash).run cs).contains key = true) ∨
      ∀ l < maxNumLocks,
        ((create : HashMap hash).relocations cs).countP (·.1 = l)
          ≡ ((create : HashMap hash).relocations cs).countP (·.2 = l) [MOD 2 ^ 64] := by
  rw [emptyAgrees_iff_drift]
  refine or_congr_right (forall₂_congr fun l _ => ?_)
  have hcreate : (create : HashMap hash).table.drift l = 0 := Table.drift_create defaultSize l
  rw [drift_run, hcreate, zero_add, sum_shift, sub_eq_zero, Nat.ModEq]
  constructor
  · intro h
    simpa using congrArg BitVec.toNat h
  · intro h
    exact BitVec.eq_of_toNat_eq (by simpa using h)

/-- A hash function under which nine one-byte strings share their two buckets but for one, which
is in the alternate bucket of the others. -/
def clashingHash (key : SharedString) : UInt64 := if key = [0] then 0x10000 else 0

/-- The strings `0` to `8` as keys. -/
def nineKeys : List Arg := (List.range 9).map fun i => .user [UInt8.ofNat i]

def insertAll : List Change := nineKeys.map fun key => .insert key (.user []) .granting

def eraseAll : List Change := nineKeys.map fun key => .erase key .granting

/-- The ninth key relocates the first; once all are erased, the counters of both locks are
off. -/
theorem not_emptyAgrees_nineKeys :
    ¬ ((create : HashMap clashingHash).run (insertAll ++ eraseAll)).EmptyAgrees := by
  have hcounter : ((create : HashMap clashingHash).run
      (insertAll ++ eraseAll)).table.elemCounter 0 = 1 := by decide +kernel
  intro h
  have hnone : ∀ key, ((create : HashMap clashingHash).run
      (insertAll ++ eraseAll)).find key = none := by
    intro key
    rw [run_append]
    by_cases hkey : key ∈ eraseAll.map Change.keyBytes
    · refine find_run_erases (fun c hc => ?_) hkey
      obtain ⟨k, -, rfl⟩ := List.mem_map.mp hc
      exact rfl
    · have hsame : insertAll.map Change.keyBytes = eraseAll.map Change.keyBytes := rfl
      rw [find_run_of_notMem hkey, find_run_of_notMem (by rwa [hsame]), find_create]
  have hempty := h.1.mpr ((contains_eq_false_iff _).mpr hnone)
  rw [empty, Table.empty_eq_true_iff] at hempty
  have hzero := hempty 0 (by decide)
  rw [hcounter] at hzero
  cases hzero

end HashMap

end Jakilid
