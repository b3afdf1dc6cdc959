import Jakilid.Lib.CellStore
import Jakilid.Cuckoo.Insert

/-!
# The invariant of the table and the operations that look at it

`WellFormed` is what every operation keeps: each entry is in one of its two buckets with its
partial key beside it, no key is there twice, and the counters add up to the number of entries.
It does *not* say that a counter is the number of entries its lock guards; that fails after a
relocation.

From it follow the specifications of `locate`, `find`, `contains`, `erase` and `size`
(`find_eq_some_iff`, `find_erase`, `size_toNat`).
-/

namespace Jakilid.Cuckoo

open CellStore

namespace Table

variable {Key T : Type}

/-! ## The elementary changes -/

section Changes

variable (t : Table Key T) (p q : Position) (o : Option (Entry Key T)) (l : ℕ)

@[simp] lemma hashpower_setSlot : (t.setSlot p o).hashpower = t.hashpower := rfl
@[simp] lemma elemCounter_setSlot : (t.setSlot p o).elemCounter = t.elemCounter := rfl

@[simp] lemma cells_setSlot : (t.setSlot p o).cells = Function.update t.cells p o := by
  funext r
  obtain ⟨b, s⟩ := r
  obtain ⟨b', s'⟩ := p
  by_cases hb : b = b'
  · subst hb
    by_cases hs : s = s'
    · subst hs
      simp [cells, setSlot]
    · simp [cells, setSlot, hs]
  · simp [cells, setSlot, hb]

@[simp] lemma hashpower_incCounter : (t.incCounter l).hashpower = t.hashpower := rfl
@[simp] lemma cells_incCounter : (t.incCounter l).cells = t.cells := rfl
@[simp] lemma hashpower_decCounter : (t.decCounter l).hashpower = t.hashpower := rfl
@[simp] lemma cells_decCounter : (t.decCounter l).cells = t.cells := rfl

@[simp] lemma hashpower_moveToBucket : (t.moveToBucket p q).hashpower = t.hashpower := rfl
@[simp] lemma elemCounter_moveToBucket : (t.moveToBucket p q).elemCounter = t.elemCounter := rfl

@[simp] lemma cells_moveToBucket :
    (t.moveToBucket p q).cells
      = Function.update (Function.update t.cells q (t.cells p)) p none := by
  rw [moveToBucket, cells_setSlot, cells_setSlot]

/-- Counting down and up again leaves the counters as they are. -/
lemma elemCounter_decCounter_incCounter :
    ((t.decCounter l).incCounter l).elemCounter = t.elemCounter := by
  funext i
  simp [incCounter, decCounter]

end Changes

/-! ## The sum of the counters -/

lemma numLocks_eq (t : Table Key T) : t.numLocks = maxNumLocks :=
  locksSize_eq (hashsize_pos _)

lemma size_eq_sum (t : Table Key T) :
    t.size = ∑ i ∈ Finset.range maxNumLocks, t.elemCounter i := by
  have hfold : ∀ (n : ℕ), (List.range n).foldl (fun s i => s + t.elemCounter i) 0
      = ∑ i ∈ Finset.range n, t.elemCounter i := by
    intro n
    induction n with
    | zero => rfl
    | succ n ih => rw [List.range_succ, List.foldl_append, ih, Finset.sum_range_succ]; rfl
  rw [size, numLocks_eq, hfold]

/-- Two tables with the same counters have the same size. -/
lemma size_congr {t t' : Table Key T} (h : t'.elemCounter = t.elemCounter) :
    t'.size = t.size := by
  rw [size_eq_sum, size_eq_sum, h]

lemma size_update {t t' : Table Key T} {l : ℕ} {x : BitVec 64} (hl : l < maxNumLocks)
    (h : t'.elemCounter = Function.update t.elemCounter l (t.elemCounter l + x)) :
    t'.size = t.size + x := by
  have hmem : l ∈ Finset.range maxNumLocks := Finset.mem_range.mpr hl
  rw [size_eq_sum, size_eq_sum, h, Finset.sum_update_of_mem hmem,
    Finset.sum_eq_add_sum_sdiff_singleton_of_mem hmem]
  ring

lemma size_incCounter (t : Table Key T) {l : ℕ} (hl : l < maxNumLocks) :
    (t.incCounter l).size = t.size + 1 :=
  size_update hl rfl

lemma size_decCounter (t : Table Key T) {l : ℕ} (hl : l < maxNumLocks) :
    (t.decCounter l).size = t.size - 1 := by
  rw [sub_eq_add_neg]
  exact size_update hl (by rw [← sub_eq_add_neg]; rfl)

/-- `empty()` tests every counter on its own. -/
lemma empty_eq_true_iff (t : Table Key T) :
    t.empty = true ↔ ∀ l < maxNumLocks, t.elemCounter l = 0 := by
  rw [empty, numLocks_eq, List.all_eq_true]
  refine forall_congr' fun l => ?_
  rw [List.mem_range]
  refine imp_congr_right fun _ => ?_
  simp

/-! ## The invariant -/

section Invariant

variable (hash : Key → UInt64)

/-- The entry may be stored in bucket `b` of a table of the given hashpower. -/
structure Home (hp : ℕ) (e : Entry Key T) (b : ℕ) : Prop where
  tag : e.partialTag = partialKey (hash e.key)
  candidate : Candidate hp (hashedKey hash e.key) b

/-- What every table operation keeps. -/
structure WellFormed (t : Table Key T) : Prop where
  home : ∀ p e, t.cells p = some e → Home hash t.hashpower e p.1
  distinct : Distinct Entry.key t.cells
  counted : t.size = BitVec.ofNat 64 (card t.cells)
  minHashpower : 16 ≤ t.hashpower
  fits : hashsize t.hashpower ≤ segmentSize

variable {hash}

lemma WellFormed.lt {t : Table Key T} (h : t.WellFormed hash) {p : Position}
    (hp : t.cells p ≠ none) : p.1 < hashsize t.hashpower := by
  obtain ⟨e, he⟩ := Option.ne_none_iff_exists'.mp hp
  exact (h.home p e he).candidate.lt

/-- Only positions inside the bucket array are occupied. -/
lemma WellFormed.occupied_subset {t : Table Key T} (h : t.WellFormed hash) :
    occupied t.cells
      ⊆ ((Finset.range (hashsize t.hashpower) ×ˢ (Finset.univ : Finset Slot) :
          Finset Position) : Set Position) := by
  intro p hp
  have hlt : p.1 < hashsize t.hashpower := h.lt hp
  simp [hlt]

lemma WellFormed.finite {t : Table Key T} (h : t.WellFormed hash) :
    (occupied t.cells).Finite :=
  (Finset.finite_toSet _).subset h.occupied_subset

/-- There are at most four entries in a bucket. -/
lemma WellFormed.card_le {t : Table Key T} (h : t.WellFormed hash) :
    card t.cells ≤ hashsize t.hashpower * slotPerBucket := by
  have hset : {p | t.cells p ≠ none ∧ () = ()} = occupied t.cells := by simp [occupied]
  have hle := Set.ncard_le_ncard h.occupied_subset (Finset.finite_toSet _)
  rw [Set.ncard_coe_finset, Finset.card_product, Finset.card_range, Finset.card_univ,
    Fintype.card_fin] at hle
  rwa [card, count, hset]

/-- The number of entries is far from what a `size_type` holds. -/
lemma WellFormed.card_lt {t : Table Key T} (h : t.WellFormed hash) :
    card t.cells < 2 ^ 64 := by
  have hcap : hashsize t.hashpower * slotPerBucket ≤ segmentSize * slotPerBucket :=
    Nat.mul_le_mul_right _ h.fits
  have hseg : segmentSize * slotPerBucket < 2 ^ 64 := by decide
  exact lt_of_le_of_lt (h.card_le.trans hcap) hseg

/-- `size()` is the number of entries. -/
lemma WellFormed.size_toNat {t : Table Key T} (h : t.WellFormed hash) :
    t.size.toNat = card t.cells := by
  rw [h.counted, BitVec.toNat_ofNat, Nat.mod_eq_of_lt h.card_lt]

/-! ## Adding, replacing and deleting an entry -/

lemma card_update_some {c : Position → Option (Entry Key T)} (hfin : (occupied c).Finite)
    {p : Position} (hp : c p = none) (e : Entry Key T) :
    card (Function.update c p (some e)) = card c + 1 := by
  rw [card, count_update_some _ hfin hp, if_pos rfl]
  rfl

/-- A new key in one of its buckets. -/
lemma WellFormed.addToBucket {t : Table Key T} (h : t.WellFormed hash) {p : Position}
    (hp : t.cells p = none) {e : Entry Key T} (hhome : Home hash t.hashpower e p.1)
    (hfresh : ∀ f, Holds t.cells f → f.key ≠ e.key) : (t.addToBucket p e).WellFormed hash where
  home := by
    intro q f hq
    rw [Table.addToBucket, cells_incCounter, cells_setSlot] at hq
    by_cases hqp : q = p
    · rw [hqp, Function.update_self] at hq
      obtain rfl := Option.some.inj hq
      rw [hqp]
      exact hhome
    · rw [Function.update_of_ne hqp] at hq
      exact h.home q f hq
  distinct := by
    rw [Table.addToBucket, cells_incCounter, cells_setSlot]
    exact h.distinct.update_some fun q f _ hq => hfresh f (holds_of_eq hq)
  counted := by
    rw [Table.addToBucket, size_incCounter _ (lockInd_lt _), cells_incCounter, cells_setSlot,
      card_update_some h.finite hp, size_congr (elemCounter_setSlot t p _), h.counted,
      BitVec.ofNat_add]
    rfl
  minHashpower := h.minHashpower
  fits := h.fits

/-- A new value for the key at `p`. -/
lemma WellFormed.setVal {t : Table Key T} (h : t.WellFormed hash) {p : Position}
    {e : Entry Key T} (hp : t.cells p = some e) (v : T) :
    (t.setSlot p (some { e with val := v })).WellFormed hash where
  home := by
    intro q f hq
    rw [cells_setSlot] at hq
    by_cases hqp : q = p
    · rw [hqp, Function.update_self] at hq
      obtain rfl := Option.some.inj hq
      have hhome := h.home p e hp
      rw [hqp]
      exact ⟨hhome.tag, hhome.candidate⟩
    · rw [Function.update_of_ne hqp] at hq
      exact h.home q f hq
  distinct := by
    rw [cells_setSlot]
    refine h.distinct.update_some fun q f hne hq hk => hne ?_
    exact h.distinct q p f e hq hp hk
  counted := by
    rw [size_congr (elemCounter_setSlot t p _), h.counted, cells_setSlot, card, card,
      count_replace _ hp]
  minHashpower := h.minHashpower
  fits := h.fits

/-- The entry at `p` is taken out. -/
lemma WellFormed.delFromBucket {t : Table Key T} (h : t.WellFormed hash) {p : Position}
    {e : Entry Key T} (hp : t.cells p = some e) : (t.delFromBucket p).WellFormed hash where
  home := by
    intro q f hq
    rw [Table.delFromBucket, cells_decCounter, cells_setSlot] at hq
    by_cases hqp : q = p
    · rw [hqp, Function.update_self] at hq
      cases hq
    · rw [Function.update_of_ne hqp] at hq
      exact h.home q f hq
  distinct := by
    rw [Table.delFromBucket, cells_decCounter, cells_setSlot]
    exact h.distinct.update_none
  counted := by
    have hcard : card (Function.update t.cells p none) + 1 = card t.cells := by
      have := count_update_none (fun _ => ()) h.finite (p := p) (by simp [hp]) ()
      rwa [if_pos rfl] at this
    rw [Table.delFromBucket, size_decCounter _ (lockInd_lt _), cells_decCounter, cells_setSlot,
      size_congr (elemCounter_setSlot t p none), h.counted, ← hcard, BitVec.ofNat_add]
    exact add_sub_cancel_right _ _
  minHashpower := h.minHashpower
  fits := h.fits

/-! ## A new table -/

lemma reserveCalc_defaultSize : reserveCalc defaultSize = 16 := by decide

lemma cells_create (n : ℕ) (p : Position) : (create n : Table Key T).cells p = none := rfl

/-- The table a dictionary starts with. -/
lemma wellFormed_create : (create defaultSize : Table Key T).WellFormed hash where
  home := fun p e he => by cases he
  distinct := fun p q e f he => by cases he
  counted := by
    have hcard : card (create defaultSize : Table Key T).cells = 0 := by
      rw [card_eq_zero_iff]
      · exact cells_create _
      · simp [occupied, cells_create]
    rw [size_eq_sum, hcard]
    exact Finset.sum_const_zero
  minHashpower := by
    show 16 ≤ reserveCalc defaultSize
    rw [reserveCalc_defaultSize]
  fits := by
    show hashsize (reserveCalc defaultSize) ≤ segmentSize
    rw [reserveCalc_defaultSize]
    decide

/-! ## Finding a key -/

variable [DecidableEq Key]

lemma tryReadFromBucket_eq_some {b : Bucket Key T} {tag : UInt8} {key : Key} {s : Slot}
    (h : tryReadFromBucket b tag key = some s) :
    ∃ e, b s = some e ∧ tag = e.partialTag ∧ e.key = key := by
  have hs := List.find?_some h
  cases hb : b s with
  | none => simp [hb] at hs
  | some e =>
    rw [hb] at hs
    simp only [Bool.and_eq_true, decide_eq_true_eq] at hs
    exact ⟨e, rfl, hs.1, hs.2⟩

lemma tryReadFromBucket_eq_none {b : Bucket Key T} {tag : UInt8} {key : Key}
    (h : tryReadFromBucket b tag key = none) {s : Slot} {e : Entry Key T} (he : b s = some e) :
    ¬ (tag = e.partialTag ∧ e.key = key) := by
  have hs := List.find?_eq_none.mp h s (mem_slots s)
  rw [he] at hs
  simpa using hs

/-- What `cuckoo_find` returns holds the key. -/
lemma cuckooFind_eq_some {t : Table Key T} {key : Key} {tag : UInt8} {i1 i2 : ℕ}
    {p : Position} (h : t.cuckooFind key tag i1 i2 = some p) :
    ∃ e, t.cells p = some e ∧ e.key = key := by
  unfold cuckooFind at h
  split at h
  · next s hs =>
    obtain ⟨e, he, -, hk⟩ := tryReadFromBucket_eq_some hs
    obtain rfl := Option.some.inj h
    exact ⟨e, he, hk⟩
  · split at h
    · next s hs =>
      obtain ⟨e, he, -, hk⟩ := tryReadFromBucket_eq_some hs
      obtain rfl := Option.some.inj h
      exact ⟨e, he, hk⟩
    · cases h

/-- When `cuckoo_find` finds nothing, the key is in neither bucket. -/
lemma cuckooFind_eq_none {t : Table Key T} {key : Key} {tag : UInt8} {i1 i2 : ℕ}
    (h : t.cuckooFind key tag i1 i2 = none) {p : Position} {e : Entry Key T}
    (he : t.cells p = some e) (htag : e.partialTag = tag) (hp : p.1 = i1 ∨ p.1 = i2) :
    e.key ≠ key := by
  unfold cuckooFind at h
  split at h
  · cases h
  · next h1 =>
    split at h
    · cases h
    · next h2 =>
      intro hk
      rcases hp with hp | hp
      · rw [cells, hp] at he
        exact tryReadFromBucket_eq_none h1 he ⟨htag.symm, hk⟩
      · rw [cells, hp] at he
        exact tryReadFromBucket_eq_none h2 he ⟨htag.symm, hk⟩

lemma locate_eq_some {t : Table Key T} {key : Key} {p : Position}
    (h : t.locate hash key = some p) : ∃ e, t.cells p = some e ∧ e.key = key :=
  cuckooFind_eq_some h

/-- The position an entry is at is the one its key is found at. -/
lemma WellFormed.locate_of_cells {t : Table Key T} (h : t.WellFormed hash) {p : Position}
    {e : Entry Key T} (he : t.cells p = some e) : t.locate hash e.key = some p := by
  have hhome := h.home p e he
  cases hl : t.locate hash e.key with
  | none =>
    exact absurd rfl (cuckooFind_eq_none hl he hhome.tag hhome.candidate)
  | some q =>
    obtain ⟨f, hf, hk⟩ := locate_eq_some hl
    rw [h.distinct q p f e hf he hk]

lemma WellFormed.locate_eq_none_iff {t : Table Key T} (h : t.WellFormed hash) (key : Key) :
    t.locate hash key = none ↔ ∀ e, Holds t.cells e → e.key ≠ key := by
  constructor
  · rintro hl e ⟨p, he⟩ rfl
    rw [h.locate_of_cells he] at hl
    cases hl
  · intro hno
    cases hl : t.locate hash key with
    | none => rfl
    | some p =>
      obtain ⟨e, he, hk⟩ := locate_eq_some hl
      exact absurd hk (hno e (holds_of_eq he))

/-- `find` returns the value of the entry with the key. -/
lemma WellFormed.find_eq_some_iff {t : Table Key T} (h : t.WellFormed hash) (key : Key)
    (v : T) : t.find hash key = some v ↔ ∃ e, Holds t.cells e ∧ e.key = key ∧ e.val = v := by
  constructor
  · intro hf
    unfold find at hf
    split at hf
    · next p hp =>
      obtain ⟨e, he, hk⟩ := locate_eq_some hp
      rw [he] at hf
      exact ⟨e, holds_of_eq he, hk, Option.some.inj hf⟩
    · cases hf
  · rintro ⟨e, ⟨p, he⟩, rfl, rfl⟩
    simp [find, h.locate_of_cells he, he]

lemma WellFormed.find_eq_none_iff {t : Table Key T} (h : t.WellFormed hash) (key : Key) :
    t.find hash key = none ↔ ∀ e, Holds t.cells e → e.key ≠ key := by
  rw [← h.locate_eq_none_iff, find]
  cases hl : t.locate hash key with
  | none => simp
  | some p =>
    obtain ⟨e, he, -⟩ := locate_eq_some hl
    simp [he]

lemma WellFormed.contains_eq {t : Table Key T} (h : t.WellFormed hash) (key : Key) :
    t.contains hash key = (t.find hash key).isSome := by
  rw [contains, Bool.eq_iff_iff, Option.isSome_iff_ne_none, Option.isSome_iff_ne_none, ne_eq,
    ne_eq, h.locate_eq_none_iff, h.find_eq_none_iff]

/-- Tables with the same entries find the same values. -/
lemma find_congr {t t' : Table Key T} (h : t.WellFormed hash) (h' : t'.WellFormed hash)
    (hsame : ∀ e, Holds t'.cells e ↔ Holds t.cells e) : t'.find hash = t.find hash := by
  funext key
  apply Option.ext
  intro v
  rw [h'.find_eq_some_iff, h.find_eq_some_iff]
  simp only [hsame]

/-! ## Erasing -/

lemma WellFormed.erase {t : Table Key T} (h : t.WellFormed hash) (key : Key) :
    (t.erase hash key).1.WellFormed hash := by
  unfold Table.erase
  split
  · next p hp =>
    obtain ⟨e, he, -⟩ := locate_eq_some hp
    exact h.delFromBucket he
  · exact h

lemma WellFormed.erase_snd {t : Table Key T} (h : t.WellFormed hash) (key : Key) :
    (t.erase hash key).2 = (t.find hash key).isSome := by
  rw [← h.contains_eq, contains, Table.erase]
  cases t.locate hash key <;> rfl

/-- Erasing removes the key and nothing else. -/
lemma WellFormed.find_erase {t : Table Key T} (h : t.WellFormed hash) (key k : Key) :
    (t.erase hash key).1.find hash k = if k = key then none else t.find hash k := by
  have h' := h.erase key
  unfold Table.erase at h' ⊢
  cases hl : t.locate hash key with
  | none =>
    have hno : t.find hash key = none := by
      rw [h.find_eq_none_iff, ← h.locate_eq_none_iff]
      exact hl
    simp only
    split
    · next hk => rw [hk, hno]
    · rfl
  | some p =>
    obtain ⟨e, he, rfl⟩ := locate_eq_some hl
    simp only [hl] at h' ⊢
    have hholds : ∀ f, Holds (t.delFromBucket p).cells f
        ↔ Holds t.cells f ∧ f.key ≠ e.key := by
      intro f
      rw [Table.delFromBucket, cells_decCounter, cells_setSlot]
      exact holds_update_none h.distinct he f
    split
    · next hk =>
      rw [h'.find_eq_none_iff, hk]
      exact fun f hf => ((hholds f).mp hf).2
    · next hk =>
      apply Option.ext
      intro v
      rw [h'.find_eq_some_iff, h.find_eq_some_iff]
      constructor
      · rintro ⟨f, hf, hfk, hv⟩
        exact ⟨f, ((hholds f).mp hf).1, hfk, hv⟩
      · rintro ⟨f, hf, hfk, hv⟩
        exact ⟨f, (hholds f).mpr ⟨hf, hfk ▸ hk⟩, hfk, hv⟩

end Invariant

end Table

end Jakilid.Cuckoo
