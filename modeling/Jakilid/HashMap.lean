import Jakilid.Serializer
import Jakilid.Cuckoo.InsertTheorems

/-!
# The hash map of a dictionary

`SharedDict::HashMap` is the hash table with shared strings as keys and values. A `HashMap`
carries the invariant of the table, so that its operations have their specifications without
any hypothesis: what `find` returns is the whole contents, `upsert` and `erase` update it, and
`size` counts it.
-/

namespace Jakilid

open Cuckoo CellStore

/-- `SharedDict::HashMap`, for the hash function `Hasher`. -/
structure HashMap (hash : SharedString → UInt64) where
  table : Table SharedString SharedString
  wellFormed : table.WellFormed hash

namespace HashMap

variable {hash : SharedString → UInt64}

/-! ## Operations -/

/-- The map `find_or_construct` constructs. -/
def create : HashMap hash := ⟨Table.create defaultSize, Table.wellFormed_create⟩

def find (m : HashMap hash) (key : SharedString) : Option SharedString := m.table.find hash key

def contains (m : HashMap hash) (key : SharedString) : Bool := m.table.contains hash key

def empty (m : HashMap hash) : Bool := m.table.empty

def size (m : HashMap hash) : BitVec 64 := m.table.size

def upsert (alloc : Allocator) (m : HashMap hash) (key : SharedString)
    (fn : SharedString → Except Exn SharedString) (val : SharedString) :
    HashMap hash × Except Exn Bool :=
  let r := m.table.upsert hash alloc key fn val
  (⟨r.1, (m.wellFormed.upsert_spec alloc key fn val).1⟩, r.2)

def erase (m : HashMap hash) (key : SharedString) : HashMap hash × Bool :=
  let r := m.table.erase hash key
  (⟨r.1, m.wellFormed.erase key⟩, r.2)

/-! ## What they do to the contents -/

@[simp] lemma find_create : (create : HashMap hash).find = fun _ => none := by
  funext key
  exact (Table.wellFormed_create.find_eq_none_iff key).mpr fun e he => by
    obtain ⟨p, hp⟩ := he
    cases hp

lemma contains_eq (m : HashMap hash) (key : SharedString) :
    m.contains key = (m.find key).isSome :=
  m.wellFormed.contains_eq key

lemma upsert_spec (m : HashMap hash) (alloc : Allocator) (key : SharedString)
    (fn : SharedString → Except Exn SharedString) (val : SharedString) :
    Table.Upserted m.find key fn val (m.upsert alloc key fn val).1.find
      (m.upsert alloc key fn val).2 :=
  (m.wellFormed.upsert_spec alloc key fn val).2

lemma find_erase (m : HashMap hash) (key : SharedString) :
    (m.erase key).1.find = Function.update m.find key none := by
  funext k
  rw [Function.update_apply]
  exact m.wellFormed.find_erase key k

lemma erase_snd (m : HashMap hash) (key : SharedString) :
    (m.erase key).2 = (m.find key).isSome :=
  m.wellFormed.erase_snd key

/-- `find`, `contains` and `erase` work on the same entry for both keys. -/
def SharesEntry (m : HashMap hash) (key key' : SharedString) : Prop :=
  ∃ p, m.table.locate hash key = some p ∧ m.table.locate hash key' = some p

/-- Only equal strings share an entry. -/
lemma sharesEntry_iff (m : HashMap hash) (key key' : SharedString) :
    m.SharesEntry key key' ↔ m.find key ≠ none ∧ key' = key := by
  have hlocate : m.find key = none ↔ m.table.locate hash key = none :=
    (m.wellFormed.find_eq_none_iff key).trans (m.wellFormed.locate_eq_none_iff key).symm
  constructor
  · rintro ⟨p, hp, hp'⟩
    obtain ⟨e, he, rfl⟩ := Table.locate_eq_some hp
    obtain ⟨e', he', rfl⟩ := Table.locate_eq_some hp'
    refine ⟨fun hnone => ?_, congrArg Entry.key (Option.some.inj (he'.symm.trans he))⟩
    rw [hlocate.mp hnone] at hp
    cases hp
  · rintro ⟨hne, rfl⟩
    obtain ⟨p, hp⟩ := Option.ne_none_iff_exists'.mp (mt hlocate.mpr hne)
    exact ⟨p, hp, hp⟩

/-- The keys in the map. -/
def keys (m : HashMap hash) : Set SharedString := {k | m.find k ≠ none}

lemma keys_eq_image (m : HashMap hash) :
    (fun p => ((m.table.cells p).map Entry.key).getD []) '' occupied m.table.cells = m.keys := by
  ext k
  constructor
  · rintro ⟨p, hp, rfl⟩ hnone
    obtain ⟨e, he⟩ := Option.ne_none_iff_exists'.mp hp
    refine (m.wellFormed.find_eq_none_iff _).mp hnone e (holds_of_eq he) ?_
    simp only [he]
    rfl
  · intro hk
    obtain ⟨v, hv⟩ := Option.ne_none_iff_exists'.mp hk
    obtain ⟨e, ⟨p, hp⟩, rfl, -⟩ := (m.wellFormed.find_eq_some_iff k v).mp hv
    refine ⟨p, ?_, by simp only [hp]; rfl⟩
    rw [occupied, Set.mem_ofPred_eq, hp]
    exact Option.some_ne_none e

lemma finite_keys (m : HashMap hash) : m.keys.Finite := by
  rw [← m.keys_eq_image]
  exact m.wellFormed.finite.image _

/-- `size()` is the number of keys. -/
theorem size_toNat (m : HashMap hash) : m.size.toNat = m.keys.ncard := by
  have hinj : Set.InjOn (fun p => ((m.table.cells p).map Entry.key).getD [])
      (occupied m.table.cells) := by
    intro p hp q hq h
    obtain ⟨e, he⟩ := Option.ne_none_iff_exists'.mp hp
    obtain ⟨f, hf⟩ := Option.ne_none_iff_exists'.mp hq
    simp only [he, hf] at h
    exact m.wellFormed.distinct p q e f he hf h
  rw [← m.keys_eq_image, hinj.ncard_image, size, m.wellFormed.size_toNat, card,
    count]
  simp [occupied]

lemma keys_create : (create : HashMap hash).keys = ∅ := by
  simp [keys]

/-- A map without keys has size zero, and the other way round. -/
lemma size_eq_zero_iff (m : HashMap hash) : m.size = 0 ↔ ∀ key, m.find key = none := by
  have hempty : m.keys = ∅ ↔ ∀ key, m.find key = none := by
    rw [Set.eq_empty_iff_forall_notMem]
    exact forall_congr' fun key => not_not
  rw [← hempty, ← Set.ncard_eq_zero m.finite_keys, ← m.size_toNat]
  exact ⟨fun h => by rw [h]; rfl, fun h => BitVec.eq_of_toNat_eq h⟩

end HashMap

end Jakilid
