import Jakilid.Cuckoo.Concurrent
import Jakilid.Cuckoo.InsertTheorems

/-!
# The table while it is being doubled

Between threads the table is seen while `move_buckets` is at work: the buckets whose locks are
`pending` are still arranged for the old hashpower, the others for the new one. `Consistent` is
the invariant of such a table; without pending locks it is `WellFormed`. `Stores` says which map
the entries of a table make up, wherever they are.

Each piece of work that is done under locks keeps the one and does to the other what it is for:
`visit`, `add`, a move of `cuckoopath_move`, the swap of the bucket arrays (`enlarge`) and the
distribution of the buckets of one lock (`splitLock`).
-/

namespace Jakilid.Cuckoo

open CellStore Concurrent

namespace Table

variable {Key T : Type} {hash : Key → UInt64}

/-- The table with the buckets of the `pending` locks still to be distributed. -/
structure Consistent (hash : Key → UInt64) (t : Table Key T) (pending : Set ℕ) : Prop where
  homeOld : ∀ p e, t.cells p = some e → lockInd p.1 ∈ pending →
    ∃ hp, t.hashpower = hp + 1 ∧ 16 ≤ hp ∧ Home hash hp e p.1
  homeNew : ∀ p e, t.cells p = some e → lockInd p.1 ∉ pending → Home hash t.hashpower e p.1
  distinct : Distinct Entry.key t.cells
  counted : t.size = BitVec.ofNat 64 (card t.cells)
  minHashpower : 16 ≤ t.hashpower
  fits : hashsize t.hashpower ≤ segmentSize

/-- The table holds the entries of the map `m`. -/
def Stores (t : Table Key T) (m : Key → Option T) : Prop :=
  ∀ k v, m k = some v ↔ ∃ e, Holds t.cells e ∧ e.key = k ∧ e.val = v

/-! ## Tables with the same entries -/

lemma Stores.of_holds_iff {t t' : Table Key T} {m : Key → Option T} (h : Stores t m)
    (hholds : ∀ e, Holds t'.cells e ↔ Holds t.cells e) : Stores t' m := by
  intro k v
  rw [h k v]
  exact exists_congr fun e => and_congr_left fun _ => (hholds e).symm

/-- The value of an entry. -/
lemma Stores.eq_some {t : Table Key T} {m : Key → Option T} (h : Stores t m) {p : Position}
    {e : Entry Key T} (he : t.cells p = some e) : m e.key = some e.val :=
  (h e.key e.val).mpr ⟨e, holds_of_eq he, rfl, rfl⟩

lemma Stores.eq_none {t : Table Key T} {m : Key → Option T} (h : Stores t m) {key : Key}
    (habs : Absent t key) : m key = none := by
  by_contra hne
  obtain ⟨v, hv⟩ := Option.ne_none_iff_exists'.mp hne
  obtain ⟨e, he, hk, -⟩ := (h key v).mp hv
  exact habs e he hk

/-- One key has a new value or none. -/
lemma Stores.update [DecidableEq Key] {t t' : Table Key T} {m : Key → Option T} (h : Stores t m)
    {key : Key} {o : Option T}
    (hother : ∀ e, e.key ≠ key → (Holds t'.cells e ↔ Holds t.cells e))
    (hkey : ∀ v, o = some v ↔ ∃ e, Holds t'.cells e ∧ e.key = key ∧ e.val = v) :
    Stores t' (Function.update m key o) := by
  intro k v
  by_cases hk : k = key
  · rw [hk, Function.update_self]
    exact hkey v
  · rw [Function.update_of_ne hk, h k v]
    constructor
    · rintro ⟨e, he, rfl, hv⟩
      exact ⟨e, (hother e hk).mpr he, rfl, hv⟩
    · rintro ⟨e, he, rfl, hv⟩
      exact ⟨e, (hother e hk).mp he, rfl, hv⟩

/-- There are as many keys as entries. -/
lemma Stores.ncard_keys {t : Table Key T} {m : Key → Option T} (h : Stores t m)
    (hdistinct : Distinct Entry.key t.cells) : {k | m k ≠ none}.ncard = card t.cells := by
  have hset : {p | t.cells p ≠ none ∧ () = ()} = occupied t.cells := by simp [occupied]
  rw [card, count, hset]
  symm
  refine Set.ncard_congr
    (fun p hp => ((t.cells p).get (Option.isSome_iff_ne_none.mpr hp)).key) ?_ ?_ ?_
  · intro p hp
    obtain ⟨e, he⟩ := Option.ne_none_iff_exists'.mp hp
    simp only [he, Option.get_some, Set.mem_ofPred_eq, h.eq_some he]
    exact Option.some_ne_none _
  · intro p q hp hq hkeys
    obtain ⟨e, he⟩ := Option.ne_none_iff_exists'.mp hp
    obtain ⟨f, hf⟩ := Option.ne_none_iff_exists'.mp hq
    simp only [he, hf, Option.get_some] at hkeys
    exact hdistinct p q e f he hf hkeys
  · intro k hk
    obtain ⟨v, hv⟩ := Option.ne_none_iff_exists'.mp hk
    obtain ⟨e, ⟨p, hp⟩, rfl, -⟩ := (h k v).mp hv
    refine ⟨p, ?_, by simp only [hp, Option.get_some]⟩
    rw [occupied, Set.mem_ofPred_eq, hp]
    exact Option.some_ne_none e

lemma cells_addToBucket (t : Table Key T) (p : Position) (e : Entry Key T) :
    (t.addToBucket p e).cells = Function.update t.cells p (some e) := by
  rw [addToBucket, cells_incCounter, cells_setSlot]

lemma cells_delFromBucket (t : Table Key T) (p : Position) :
    (t.delFromBucket p).cells = Function.update t.cells p none := by
  rw [delFromBucket, cells_decCounter, cells_setSlot]

namespace Consistent

variable {t t' : Table Key T} {pending : Set ℕ}

lemma of_wellFormed (h : t.WellFormed hash) : Consistent hash t ∅ where
  homeOld _ _ _ hp := hp.elim
  homeNew p e he _ := h.home p e he
  distinct := h.distinct
  counted := h.counted
  minHashpower := h.minHashpower
  fits := h.fits

lemma wellFormed (h : Consistent hash t ∅) : t.WellFormed hash where
  home p e he := h.homeNew p e he (Set.notMem_empty _)
  distinct := h.distinct
  counted := h.counted
  minHashpower := h.minHashpower
  fits := h.fits

/-- Which numbers are pending matters for numbers of locks only. -/
lemma of_agree (h : Consistent hash t pending) {pending' : Set ℕ}
    (hagree : ∀ l < maxNumLocks, l ∈ pending ↔ l ∈ pending') : Consistent hash t pending' where
  homeOld p e he hp := h.homeOld p e he ((hagree _ (lockInd_lt p.1)).mpr hp)
  homeNew p e he hp := h.homeNew p e he fun hp' => hp ((hagree _ (lockInd_lt p.1)).mp hp')
  distinct := h.distinct
  counted := h.counted
  minHashpower := h.minHashpower
  fits := h.fits

lemma lt (h : Consistent hash t pending) {p : Position} {e : Entry Key T}
    (he : t.cells p = some e) : p.1 < hashsize t.hashpower := by
  by_cases hp : lockInd p.1 ∈ pending
  · obtain ⟨hp', hsucc, -, hhome⟩ := h.homeOld p e he hp
    have hlt := hhome.candidate.lt
    have hpos := hashsize_pos hp'
    rw [hsucc, hashsize_succ]
    omega
  · exact (h.homeNew p e he hp).candidate.lt

lemma occupied_subset (h : Consistent hash t pending) :
    occupied t.cells
      ⊆ ((Finset.range (hashsize t.hashpower) ×ˢ (Finset.univ : Finset Slot) :
          Finset Position) : Set Position) := by
  intro p hp
  obtain ⟨e, he⟩ := Option.ne_none_iff_exists'.mp hp
  simp [h.lt he]

lemma finite (h : Consistent hash t pending) : (occupied t.cells).Finite :=
  (Finset.finite_toSet _).subset h.occupied_subset

/-- `size()` is the number of entries, at any moment. -/
lemma size_toNat (h : Consistent hash t pending) : t.size.toNat = card t.cells := by
  have hset : {p | t.cells p ≠ none ∧ () = ()} = occupied t.cells := by simp [occupied]
  have hle := Set.ncard_le_ncard h.occupied_subset (Finset.finite_toSet _)
  rw [Set.ncard_coe_finset, Finset.card_product, Finset.card_range, Finset.card_univ,
    Fintype.card_fin] at hle
  have hcap : hashsize t.hashpower * slotPerBucket ≤ segmentSize * slotPerBucket :=
    Nat.mul_le_mul_right _ h.fits
  have hseg : segmentSize * slotPerBucket < 2 ^ 64 := by decide
  have hcard : card t.cells < 2 ^ 64 := by
    rw [card, count, hset]
    exact lt_of_le_of_lt (hle.trans hcap) hseg
  rw [h.counted, BitVec.toNat_ofNat, Nat.mod_eq_of_lt hcard]

/-! ## Changes of one cell -/

/-- What one cell holds is replaced. -/
lemma update (h : Consistent hash t pending) {p : Position} {o : Option (Entry Key T)}
    (hhashpower : t'.hashpower = t.hashpower) (hcells : t'.cells = Function.update t.cells p o)
    (hp : lockInd p.1 ∉ pending) (hhome : ∀ e, o = some e → Home hash t.hashpower e p.1)
    (hdistinct : Distinct Entry.key t'.cells) (hcounted : t'.size = BitVec.ofNat 64 (card t'.cells)) :
    Consistent hash t' pending where
  homeOld q e he hq := by
    have hne : q ≠ p := by
      rintro rfl
      exact hp hq
    rw [hcells, Function.update_of_ne hne] at he
    rw [hhashpower]
    exact h.homeOld q e he hq
  homeNew q e he hq := by
    rw [hhashpower]
    rw [hcells] at he
    by_cases hqp : q = p
    · rw [hqp, Function.update_self] at he
      rw [hqp]
      exact hhome e he
    · rw [Function.update_of_ne hqp] at he
      exact h.homeNew q e he hq
  distinct := hdistinct
  counted := hcounted
  minHashpower := by
    rw [hhashpower]
    exact h.minHashpower
  fits := by
    rw [hhashpower]
    exact h.fits

lemma addToBucket (h : Consistent hash t pending) {p : Position} (hp : t.cells p = none)
    (hpend : lockInd p.1 ∉ pending) {e : Entry Key T} (hhome : Home hash t.hashpower e p.1)
    (habs : Absent t e.key) : Consistent hash (t.addToBucket p e) pending := by
  refine h.update rfl (cells_addToBucket t p e) hpend (fun f hf => ?_) ?_ ?_
  · obtain rfl := Option.some.inj hf
    exact hhome
  · rw [cells_addToBucket]
    exact h.distinct.update_some fun q f _ hq => habs f (holds_of_eq hq)
  · rw [Table.addToBucket, size_incCounter _ (lockInd_lt _), cells_incCounter, cells_setSlot,
      card_update_some h.finite hp, size_congr (elemCounter_setSlot t p _), h.counted,
      BitVec.ofNat_add]
    rfl

lemma setVal (h : Consistent hash t pending) {p : Position} {e : Entry Key T}
    (hp : t.cells p = some e) (hpend : lockInd p.1 ∉ pending) (v : T) :
    Consistent hash (t.setSlot p (some { e with val := v })) pending := by
  refine h.update rfl (cells_setSlot ..) hpend (fun f hf => ?_) ?_ ?_
  · obtain rfl := Option.some.inj hf
    have hhome := h.homeNew p e hp hpend
    exact ⟨hhome.tag, hhome.candidate⟩
  · rw [cells_setSlot]
    refine h.distinct.update_some fun q f hne hq hk => hne ?_
    exact h.distinct q p f e hq hp hk
  · rw [size_congr (elemCounter_setSlot t p _), h.counted, cells_setSlot, card, card,
      count_replace _ hp]

lemma delFromBucket (h : Consistent hash t pending) {p : Position} {e : Entry Key T}
    (hp : t.cells p = some e) (hpend : lockInd p.1 ∉ pending) :
    Consistent hash (t.delFromBucket p) pending := by
  refine h.update rfl (cells_delFromBucket t p) hpend nofun ?_ ?_
  · rw [cells_delFromBucket]
    exact h.distinct.update_none
  · have hcard : card (Function.update t.cells p none) + 1 = card t.cells := by
      have := count_update_none (fun _ => ()) h.finite (p := p) (by simp [hp]) ()
      rwa [if_pos rfl] at this
    rw [Table.delFromBucket, size_decCounter _ (lockInd_lt _), cells_decCounter, cells_setSlot,
      size_congr (elemCounter_setSlot t p none), h.counted, ← hcard, BitVec.ofNat_add]
    exact add_sub_cancel_right _ _

/-! ## Moves -/

/-- A move of `cuckoopath_move`, with the locks of both buckets. -/
lemma moveToBucket (h : Consistent hash t pending) {p q : Position} {e : Entry Key T}
    (hp : t.cells p = some e) (hq : t.cells q = none) (hpendp : lockInd p.1 ∉ pending)
    (hpendq : lockInd q.1 ∉ pending) (hhome : Home hash t.hashpower e q.1) :
    Consistent hash (t.moveToBucket p q) pending ∧
      ∀ f, Holds (t.moveToBucket p q).cells f ↔ Holds t.cells f := by
  have hcells := cells_moveToBucket t p q
  have hrearr : Rearranges (fun _ => ()) t.cells (t.moveToBucket p q).cells := by
    rw [hcells]
    exact rearranges_move hq rfl
  have hmoved : ∀ r f, (t.moveToBucket p q).cells r = some f →
      r = q ∧ f = e ∨ r ≠ q ∧ r ≠ p ∧ t.cells r = some f := by
    intro r f hr
    have hrp : r ≠ p := by
      rintro rfl
      rw [hcells, Function.update_self] at hr
      cases hr
    rw [hcells, Function.update_of_ne hrp] at hr
    by_cases hrq : r = q
    · rw [hrq, Function.update_self, hp] at hr
      exact .inl ⟨hrq, (Option.some.inj hr).symm⟩
    · rw [Function.update_of_ne hrq] at hr
      exact .inr ⟨hrq, hrp, hr⟩
  refine ⟨⟨?_, ?_, hrearr.distinct h.distinct, ?_, h.minHashpower, h.fits⟩, hrearr.holds_iff⟩
  · intro r f hr hpend
    rcases hmoved r f hr with ⟨rfl, -⟩ | ⟨-, -, hr⟩
    · exact absurd hpend hpendq
    · exact h.homeOld r f hr hpend
  · intro r f hr hpend
    rcases hmoved r f hr with ⟨rfl, rfl⟩ | ⟨-, -, hr⟩
    · exact hhome
    · exact h.homeNew r f hr hpend
  · rw [size_congr (elemCounter_moveToBucket t p q), h.counted, card_eq_of_rearranges hrearr]

end Consistent

/-! ## Distribution of the buckets of one lock -/

/-- A round of the innermost loop of `move_buckets` changes the old and the new bucket only. -/
lemma cells_foldl_moveSlot {hp b : ℕ} (ss : List Slot) (acc : Table Key T × ℕ) {q : Position}
    (hb : q.1 ≠ b) (hb' : q.1 ≠ b + hashsize hp) :
    (ss.foldl (moveSlot hash hp b) acc).1.cells q = acc.1.cells q := by
  induction ss generalizing acc with
  | nil => rfl
  | cons s ss ih =>
    rw [List.foldl_cons, ih]
    rcases moveSlot_cases hash hp b acc s with
      ⟨-, heq⟩ | ⟨e, -, ⟨-, heq⟩ | ⟨-, heq⟩⟩ <;> rw [heq]
    have hne : q ≠ (b, s) := fun hq => hb (congrArg Prod.fst hq)
    have hne' : q ≠ (b + hashsize hp, Fin.ofNat slotPerBucket acc.2) :=
      fun hq => hb' (congrArg Prod.fst hq)
    rw [cells_incCounter, cells_decCounter, cells_moveToBucket, Function.update_of_ne hne,
      Function.update_of_ne hne']

/-- The buckets of other locks stay as they are. -/
lemma cells_splitLock {hp l : ℕ} (hhp : 16 ≤ hp) (hl : l < maxNumLocks) (t : Table Key T)
    {q : Position} (hq : lockInd q.1 ≠ l) : (splitLock hash hp l t).cells q = t.cells q := by
  have hbuckets : ∀ b ∈ bucketsOfLock hp l, q.1 ≠ b ∧ q.1 ≠ b + hashsize hp := by
    intro b hb
    have hlock : lockInd b = l := by
      rw [lockInd_eq]
      exact ((mem_bucketsOfLock hl).mp hb).2
    constructor
    · rintro rfl
      exact hq hlock
    · intro heq
      rw [heq, lockInd_add_hashsize hhp] at hq
      exact hq hlock
  rw [splitLock]
  generalize bucketsOfLock hp l = bs at hbuckets
  induction bs generalizing t with
  | nil => rfl
  | cons b bs ih =>
    obtain ⟨hb, hb'⟩ := hbuckets b List.mem_cons_self
    rw [List.foldl_cons, ih _ fun c hc => hbuckets c (List.mem_cons_of_mem b hc)]
    exact cells_foldl_moveSlot slots (t, 0) hb hb'

namespace Consistent

variable {t : Table Key T} {pending : Set ℕ}

/-- The old buckets of the pending locks, as the positions that are still to be looked at. -/
lemma halfway (h : Consistent hash t pending) {hp : ℕ} (hsucc : t.hashpower = hp + 1) :
    Halfway hash hp t t {p | lockInd p.1 ∈ pending ∧ p.1 < hashsize hp} where
  rearranged := Rearranges.refl _ _
  counters := rfl
  hashpower := hsucc
  homeOld p hp' e he := by
    obtain ⟨hp₁, hsucc₁, -, hhome⟩ := h.homeOld p e he hp'.1
    obtain rfl : hp₁ = hp := by omega
    exact hhome
  homeNew p hp' e he := by
    by_cases hpend : lockInd p.1 ∈ pending
    · obtain ⟨hp₁, hsucc₁, -, hhome⟩ := h.homeOld p e he hpend
      obtain rfl : hp₁ = hp := by omega
      exact absurd ⟨hpend, hhome.candidate.lt⟩ hp'
    · rw [← hsucc]
      exact h.homeNew p e he hpend
  lower p hp' := hp'.2

/-- The upper half of a pending lock is empty. -/
lemma upper_eq_none (h : Consistent hash t pending) {hp b : ℕ} (hsucc : t.hashpower = hp + 1)
    (hhp : 16 ≤ hp) (hb : lockInd b ∈ pending) (s : Slot) :
    t.cells (b + hashsize hp, s) = none := by
  by_contra hne
  obtain ⟨e, he⟩ := Option.ne_none_iff_exists'.mp hne
  have hupper : lockInd (b + hashsize hp) ∈ pending := by
    rw [lockInd_add_hashsize hhp]
    exact hb
  obtain ⟨hp₁, hsucc₁, -, hhome⟩ := h.homeOld _ e he hupper
  obtain rfl : hp₁ = hp := by omega
  have hlt := hhome.candidate.lt
  simp only at hlt
  omega

/-- **Migration.** When the buckets of a lock are distributed, the lock is no longer pending,
nothing happens under the other locks, and the table has the entries it had. -/
theorem splitLock (h : Consistent hash t pending) {hp l : ℕ} (hsucc : t.hashpower = hp + 1)
    (hhp : 16 ≤ hp) (hl : l < maxNumLocks) (hpend : l ∈ pending) :
    Consistent hash (splitLock hash hp l t) (pending \ {l}) ∧
      (Concurrent.splitLock hash hp l t).hashpower = t.hashpower ∧
      ∀ e, Holds (Concurrent.splitLock hash hp l t).cells e ↔ Holds t.cells e := by
  have hlock : ∀ {b}, b ∈ bucketsOfLock hp l ↔ b < hashsize hp ∧ lockInd b = l := by
    intro b
    rw [lockInd_eq]
    exact mem_bucketsOfLock hl
  have hdone := (h.halfway hsucc).foldl_splitBucket hhp (bucketsOfLock hp l)
    (nodup_bucketsOfLock hp l) (fun b hb => (hlock.mp hb).1) t _
    (fun b hb s => ⟨by rw [(hlock.mp hb).2]; exact hpend, (hlock.mp hb).1⟩) fun b hb s => ?_
  · rw [← Concurrent.splitLock] at hdone
    refine ⟨⟨fun p e he hp' => ?_, fun p e he hp' => ?_, ?_, ?_, ?_, ?_⟩, ?_, ?_⟩
    · rw [cells_splitLock hhp hl t hp'.2] at he
      rw [hdone.hashpower, ← hsucc]
      exact h.homeOld p e he hp'.1
    · rw [hdone.hashpower]
      refine hdone.homeNew p (fun hmem => ?_) e he
      obtain ⟨⟨hmem, hlt⟩, hnot⟩ := hmem
      by_cases hpl : lockInd p.1 = l
      · exact hnot (hlock.mpr ⟨hlt, hpl⟩)
      · exact hp' ⟨hmem, hpl⟩
    · exact hdone.rearranged.distinct h.distinct
    · rw [size_congr hdone.counters, h.counted, card_eq_of_rearranges hdone.rearranged]
    · rw [hdone.hashpower, ← hsucc]
      exact h.minHashpower
    · rw [hdone.hashpower, ← hsucc]
      exact h.fits
    · rw [hdone.hashpower, hsucc]
    · exact hdone.rearranged.holds_iff
  · refine h.upper_eq_none hsucc hhp ?_ s
    rw [(hlock.mp hb).2]
    exact hpend

end Consistent

/-- The swap of the bucket arrays, after which all locks are pending. -/
theorem WellFormed.consistent_enlarge {t : Table Key T} (h : t.WellFormed hash)
    (hfits : hashsize (t.hashpower + 1) ≤ segmentSize) {pending : Set ℕ}
    (hpending : ∀ l < maxNumLocks, l ∈ pending) :
    Consistent hash t.enlarge pending ∧ t.enlarge.cells = t.cells := by
  have hhalf := h.halfway_enlarge
  have hcells : t.enlarge.cells = t.cells := by
    funext p
    show (if p.1 < hashsize t.hashpower then t.buckets p.1 else fun _ => none) p.2
      = t.buckets p.1 p.2
    split
    · rfl
    · next hp =>
      by_contra hne
      exact hp (h.lt (Ne.symm hne))
  refine ⟨⟨fun p e he _ => ⟨t.hashpower, rfl, h.minHashpower, ?_⟩, fun p e he hp => ?_, ?_, ?_,
    h.minHashpower.trans (Nat.le_succ _), hfits⟩, hcells⟩
  · rw [hcells] at he
    exact h.home p e he
  · exact absurd (hpending _ (lockInd_lt p.1)) hp
  · rw [hcells]
    exact h.distinct
  · rw [size_congr hhalf.counters, h.counted, hcells]

/-! ## Finding a key -/

/-- The snapshot has the two buckets of the key. -/
structure SnapshotOf (hash : Key → UInt64) (key : Key) (s : Snapshot) : Prop where
  i1 : s.i1 = indexHash s.hp (hash key)
  i2 : s.i2 = altIndex s.hp (partialKey (hash key)) s.i1

lemma SnapshotOf.candidate_iff {key : Key} {s : Snapshot} (h : SnapshotOf hash key s) {b : ℕ} :
    Candidate s.hp (hashedKey hash key) b ↔ b = s.i1 ∨ b = s.i2 := by
  rw [h.i2, h.i1]
  exact Iff.rfl

/-- An old bucket has the lock of the new buckets its entries may go to. -/
lemma lockInd_mod_hashsize {hp : ℕ} (hhp : 16 ≤ hp) (b : ℕ) :
    lockInd (b % hashsize hp) = lockInd b := by
  rw [lockInd_eq, lockInd_eq, hashsize_eq]
  exact Nat.mod_mod_of_dvd _ (pow_dvd_pow 2 hhp)

section Find

variable {t : Table Key T} {pending : Set ℕ} {key : Key} {s : Snapshot}

/-- A key whose two buckets have been distributed, and that is in neither of them, is nowhere:
not even in a bucket that is still to be distributed. -/
lemma Consistent.absent_of_buckets (h : Consistent hash t pending) (hs : SnapshotOf hash key s)
    (hhp : s.hp = t.hashpower) (h1 : lockInd s.i1 ∉ pending) (h2 : lockInd s.i2 ∉ pending)
    (hno : ∀ b, b = s.i1 ∨ b = s.i2 → ∀ slot e, t.buckets b slot = some e →
      ¬ (partialKey (hash key) = e.partialTag ∧ e.key = key)) : Absent t key := by
  rintro e ⟨p, hp⟩ rfl
  by_cases hpend : lockInd p.1 ∈ pending
  · obtain ⟨hp', hsucc, h16, hhome⟩ := h.homeOld p e hp hpend
    rcases hhome.candidate with hb | hb
    · have hmod : s.i1 % hashsize hp' = p.1 := by
        rw [hs.i1, hhp, hsucc, indexHash_succ_mod, hb]
        rfl
      rw [← hmod, lockInd_mod_hashsize h16] at hpend
      exact h1 hpend
    · have hmod : s.i2 % hashsize hp' = p.1 := by
        rw [hs.i2, hs.i1, hhp, hsucc]
        exact (altIndex_succ_indexHash_mod hp' (hashedKey hash e.key)).trans hb.symm
      rw [← hmod, lockInd_mod_hashsize h16] at hpend
      exact h2 hpend
  · have hhome := h.homeNew p e hp hpend
    refine hno p.1 ?_ p.2 e hp ⟨hhome.tag.symm, rfl⟩
    rw [← hs.candidate_iff, hhp]
    exact hhome.candidate

variable [DecidableEq Key]

lemma Consistent.cuckooFind_eq_none (h : Consistent hash t pending) (hs : SnapshotOf hash key s)
    (hhp : s.hp = t.hashpower) (h1 : lockInd s.i1 ∉ pending) (h2 : lockInd s.i2 ∉ pending)
    (hfind : t.cuckooFind key (hashedKey hash key).partialTag s.i1 s.i2 = none) :
    Absent t key := by
  refine h.absent_of_buckets hs hhp h1 h2 fun b hb slot e he htag => ?_
  exact Table.cuckooFind_eq_none hfind (p := (b, slot)) he htag.1.symm hb htag.2

/-- Where `cuckoo_find` has looked. -/
lemma cuckooFind_bucket {i1 i2 : ℕ} {tag : UInt8} {p : Position}
    (hfind : t.cuckooFind key tag i1 i2 = some p) : p.1 = i1 ∨ p.1 = i2 := by
  unfold cuckooFind at hfind
  split at hfind
  · obtain rfl := Option.some.inj hfind
    exact .inl rfl
  · split at hfind
    · obtain rfl := Option.some.inj hfind
      exact .inr rfl
    · cases hfind

end Find

end Table

namespace Concurrent

open Table

variable {Key T : Type} {hash : Key → UInt64} {t : Table Key T} {pending : Set ℕ}
  {op : TableOp Key T} {s : Snapshot}

/-- The operation makes an entry for a key that is not there. -/
def TableOp.Inserts (op : TableOp Key T) : Prop := op.missing.1 ≠ none

/-- What `site` says about the table. -/
inductive Sited (t : Table Key T) (op : TableOp Key T) (s : Snapshot) : Site → Prop
  | found {p : Position} {e : Entry Key T} (hp : t.cells p = some e) (hk : e.key = op.key)
      (hb : p.1 = s.i1 ∨ p.1 = s.i2) : Sited t op s (.found p)
  | free {p : Position} (hp : t.cells p = none) (hb : p.1 = s.i1 ∨ p.1 = s.i2)
      (habs : Absent t op.key) (hop : op.Inserts) : Sited t op s (.free p)
  | absent (habs : Absent t op.key) (hop : op.missing.1 = none) : Sited t op s .absent
  | crowded (hop : op.Inserts) : Sited t op s .crowded

section Operate

variable [DecidableEq Key]

lemma site_spec_of_find (h : Consistent hash t pending) (hs : SnapshotOf hash op.key s)
    (hhp : s.hp = t.hashpower) (h1 : lockInd s.i1 ∉ pending) (h2 : lockInd s.i2 ∉ pending)
    (hop : op.missing.1 = none) :
    Sited t op s
      (match t.cuckooFind op.key (hashedKey hash op.key).partialTag s.i1 s.i2 with
      | some p => .found p
      | none => .absent) := by
  cases hfind : t.cuckooFind op.key (hashedKey hash op.key).partialTag s.i1 s.i2 with
  | none => exact .absent (h.cuckooFind_eq_none hs hhp h1 h2 hfind) hop
  | some p =>
    obtain ⟨e, he, hk⟩ := cuckooFind_eq_some hfind
    exact .found he hk (cuckooFind_bucket hfind)

lemma site_spec (h : Consistent hash t pending) (hs : SnapshotOf hash op.key s)
    (hhp : s.hp = t.hashpower) (h1 : lockInd s.i1 ∉ pending) (h2 : lockInd s.i2 ∉ pending) :
    Sited t op s (site hash t op s) := by
  cases op with
  | findFn key fn => exact site_spec_of_find h hs hhp h1 h2 rfl
  | updateFn key fn => exact site_spec_of_find h hs hhp h1 h2 rfl
  | eraseFn key fn => exact site_spec_of_find h hs hhp h1 h2 rfl
  | upsert key fn val =>
    have hop : (TableOp.upsert key fn val).Inserts := Option.some_ne_none val
    have habsent : (∀ slot e, t.buckets s.i1 slot = some e →
          ¬ (partialKey (hash key) = e.partialTag ∧ e.key = key)) →
        (∀ slot e, t.buckets s.i2 slot = some e →
          ¬ (partialKey (hash key) = e.partialTag ∧ e.key = key)) → Absent t key := by
      intro hno1 hno2
      refine h.absent_of_buckets hs hhp h1 h2 fun b hb => ?_
      rcases hb with rfl | rfl
      · exact hno1
      · exact hno2
    have hprobe1 := tryFindInsertBucket_spec (t.buckets s.i1) (partialKey (hash key)) key
    have hprobe2 := tryFindInsertBucket_spec (t.buckets s.i2) (partialKey (hash key)) key
    simp only [site, TableOp.key, show (hashedKey hash key).partialTag = partialKey (hash key)
      from rfl]
    generalize tryFindInsertBucket (t.buckets s.i1) (partialKey (hash key)) key = res1
      at hprobe1 ⊢
    generalize tryFindInsertBucket (t.buckets s.i2) (partialKey (hash key)) key = res2
      at hprobe2 ⊢
    cases hprobe1 with
    | @duplicate slot e he hk => exact .found (p := (s.i1, slot)) he hk (.inl rfl)
    | @room slot hslot hno1 =>
      cases hprobe2 with
      | @duplicate slot e he hk => exact .found (p := (s.i2, slot)) he hk (.inr rfl)
      | room _ hno2 => exact .free (p := (s.i1, slot)) hslot (.inl rfl) (habsent hno1 hno2) hop
      | full _ hno2 => exact .free (p := (s.i1, slot)) hslot (.inl rfl) (habsent hno1 hno2) hop
    | full _ hno1 =>
      cases hprobe2 with
      | @duplicate slot e he hk => exact .found (p := (s.i2, slot)) he hk (.inr rfl)
      | @room slot hslot hno2 =>
        exact .free (p := (s.i2, slot)) hslot (.inr rfl) (habsent hno1 hno2) hop
      | full _ _ => exact .crowded hop

end Operate

/-! ## The operation itself -/

/-- An operation as one step on a map. -/
def TableOp.onMap [DecidableEq Key] (op : TableOp Key T) (m : Key → Option T) :
    (Key → Option T) × Except Exn (Response T) :=
  let r := match m op.key with
    | some v => op.found v
    | none => op.missing
  (Function.update m op.key r.1, r.2)

/-- The table `t'` is what the operation makes of `t`, by changes in the cell at `p`, and `r` is
what it returns. -/
structure Operated [DecidableEq Key] (hash : Key → UInt64) (pending : Set ℕ) (op : TableOp Key T)
    (t t' : Table Key T) (r : Except Exn (Response T)) : Prop where
  consistent : Consistent hash t' pending
  hashpower : t'.hashpower = t.hashpower
  onMap : ∀ m, Stores t m → Stores t' (op.onMap m).1 ∧ (op.onMap m).2 = r

lemma cells_visit (p : Position) (e : Entry Key T) :
    (visit t op p e).1.cells
      = Function.update t.cells p ((op.found e.val).1.map fun v => { e with val := v }) := by
  rw [visit]
  cases hfound : op.found e.val with
  | mk o r =>
    cases o with
    | none =>
      simp only [cells_delFromBucket, Option.map_none]
    | some v => simp only [cells_setSlot, Option.map_some]

lemma visit_snd (p : Position) (e : Entry Key T) :
    (visit t op p e).2 = (op.found e.val).2 := by
  rw [visit]
  cases hfound : op.found e.val with
  | mk o r => cases o <;> rfl

lemma cells_add_of_ne {p q : Position} (hq : q ≠ p) : (add hash t op p).cells q = t.cells q := by
  rw [add]
  cases op.missing.1 with
  | none => rfl
  | some val =>
    simp only [cells_addToBucket]
    exact Function.update_of_ne hq _ _

section Operate

variable [DecidableEq Key]

lemma operated_visit (h : Consistent hash t pending) {p : Position} {e : Entry Key T}
    (hp : t.cells p = some e) (hk : e.key = op.key) (hpend : lockInd p.1 ∉ pending) :
    Operated hash pending op t (visit t op p e).1 (visit t op p e).2 := by
  refine ⟨?_, ?_, fun m hm => ?_⟩
  · rw [visit]
    cases hfound : op.found e.val with
    | mk o r =>
      cases o with
      | none => exact h.delFromBucket hp hpend
      | some v => exact h.setVal hp hpend v
  · rw [visit]
    cases hfound : op.found e.val with
    | mk o r => cases o <;> rfl
  · have hsome : m op.key = some e.val := by
      rw [← hk]
      exact hm.eq_some hp
    rw [TableOp.onMap, visit_snd, hsome]
    refine ⟨hm.update (fun f hf => ?_) fun v => ?_, rfl⟩
    · rw [cells_visit]
      cases (op.found e.val).1 with
      | none =>
        rw [Option.map_none, holds_update_none h.distinct hp]
        exact and_iff_left (by rwa [hk])
      | some v =>
        have hkey : ({ e with val := v } : Entry Key T).key = e.key := rfl
        rw [Option.map_some, holds_replace h.distinct hp hkey]
        constructor
        · rintro (rfl | ⟨hholds, -⟩)
          · exact absurd hk hf
          · exact hholds
        · exact fun hholds => .inr ⟨hholds, by rwa [hk]⟩
    · rw [cells_visit]
      cases (op.found e.val).1 with
      | none =>
        refine ⟨nofun, ?_⟩
        rintro ⟨f, hf, hkey, -⟩
        rw [Option.map_none, holds_update_none h.distinct hp] at hf
        exact absurd (hkey.trans hk.symm) hf.2
      | some v' =>
        have hkey : ({ e with val := v' } : Entry Key T).key = e.key := rfl
        rw [Option.some.injEq]
        constructor
        · rintro rfl
          exact ⟨{ e with val := v' }, ⟨p, Function.update_self ..⟩, hk, rfl⟩
        · rintro ⟨f, hf, hfkey, rfl⟩
          rw [Option.map_some, holds_replace h.distinct hp hkey] at hf
          rcases hf with rfl | ⟨-, hne⟩
          · rfl
          · exact absurd (hfkey.trans hk.symm) hne

lemma operated_add (h : Consistent hash t pending) {p : Position} (hp : t.cells p = none)
    (hpend : lockInd p.1 ∉ pending) (hop : op.Inserts) (habs : Absent t op.key)
    (hcand : Candidate t.hashpower (hashedKey hash op.key) p.1) :
    Operated hash pending op t (add hash t op p) op.missing.2 := by
  obtain ⟨val, hval⟩ := Option.ne_none_iff_exists'.mp hop
  have hadd : add hash t op p
      = t.addToBucket p ⟨(hashedKey hash op.key).partialTag, op.key, val⟩ := by
    rw [add, hval]
  rw [hadd]
  refine ⟨h.addToBucket hp hpend ⟨rfl, hcand⟩ habs, rfl, fun m hm => ?_⟩
  rw [TableOp.onMap, hm.eq_none habs]
  refine ⟨hm.update (fun f hf => ?_) fun v => ?_, rfl⟩
  · rw [cells_addToBucket, holds_update_some hp, or_iff_right]
    rintro rfl
    exact hf rfl
  · rw [hval, cells_addToBucket, Option.some.injEq]
    constructor
    · rintro rfl
      exact ⟨_, (holds_update_some hp _).mpr (.inl rfl), rfl, rfl⟩
    · rintro ⟨f, hf, hkey, rfl⟩
      rw [holds_update_some hp] at hf
      rcases hf with rfl | hf
      · rfl
      · exact absurd hkey (habs f hf)

/-- An operation that finds nothing and inserts nothing. -/
lemma operated_absent (h : Consistent hash t pending) (habs : Absent t op.key)
    (hop : op.missing.1 = none) : Operated hash pending op t t op.missing.2 := by
  refine ⟨h, rfl, fun m hm => ?_⟩
  have hnone := hm.eq_none habs
  rw [TableOp.onMap, hnone, hop]
  refine ⟨?_, rfl⟩
  rwa [← hnone, Function.update_eq_self]

end Operate

end Concurrent

end Jakilid.Cuckoo
