import Jakilid.Cuckoo.Queue
import Jakilid.Cuckoo.SearchTheorems

/-!
# The search in machine words is the search

The ring of `b_queue` stands for a list, so that `full` and `empty` say what they are meant to, and
a pathcode never outgrows a `size_type`. Hence `cuckoopath_search` finds what the search on lists and
numbers finds, and none of its assertions fails (`rawCuckoopathSearch_eq`).
-/

namespace Jakilid.Cuckoo

open RingBuffer

/-- An item in machine words. -/
def BSlot.raw (x : BSlot) : RawSlot := ⟨x.bucket, BitVec.ofNat 64 x.pathcode, x.depth⟩

namespace BSlot

/-- The starting slot only needs the last digit of a pathcode. -/
lemma pathcode_mod (x : BSlot) :
    x.raw.pathcode.toNat % slotPerBucket = x.pathcode % slotPerBucket := by
  show (BitVec.ofNat 64 x.pathcode).toNat % 4 = x.pathcode % 4
  rw [BitVec.toNat_ofNat]
  exact Nat.mod_mod_of_dvd _ (by decide)

lemma pathcode_step (x : BSlot) (s : Slot) :
    x.raw.pathcode * BitVec.ofNat 64 slotPerBucket + BitVec.ofNat 64 s
      = BitVec.ofNat 64 (x.pathcode * slotPerBucket + s) := by
  rw [BitVec.ofNat_add, BitVec.ofNat_mul]
  rfl

end BSlot

/-! ## The queue -/

namespace RawQueue

/-- The ring stands for the queue. -/
def StandsFor (r : RawQueue) (q : BQueue) : Prop := Represents maxCuckooCount r (q.map BSlot.raw)

lemma increment_eq (ind : ℕ) : increment ind = next maxCuckooCount ind :=
  Nat.and_two_pow_sub_one_eq_mod (ind + 1) 8

variable {r : RawQueue} {q : BQueue}

lemma StandsFor.full_eq (h : StandsFor r q) : r.full = q.full := by
  rw [full, BQueue.full, Bool.eq_iff_iff, beq_iff_eq, decide_eq_true_eq, increment_eq,
    h.next_last_eq_first_iff, List.length_map]

lemma StandsFor.empty_eq (h : StandsFor r q) : r.empty = q.isEmpty := by
  rw [empty, Bool.eq_iff_iff, beq_iff_eq, h.first_eq_last_iff, List.map_eq_nil_iff,
    List.isEmpty_iff]

lemma standsFor_create (slots : ℕ → RawSlot) : StandsFor (create slots) [] :=
  represents_nil (show 0 < maxCuckooCount by decide) rfl

/-- The assertion of `enqueue` holds. -/
lemma StandsFor.enqueue (h : StandsFor r q) (hfull : ¬ q.full = true) (x : BSlot) :
    ∃ r', r.enqueue x.raw = some r' ∧ StandsFor r' (q ++ [x]) := by
  refine ⟨r.push maxCuckooCount x.raw, ?_, ?_⟩
  · rw [RawQueue.enqueue, h.full_eq, if_neg hfull, increment_eq]
    rfl
  · rw [StandsFor, List.map_append]
    refine Represents.push h x.raw ?_
    simp only [BQueue.full, decide_eq_true_eq, not_le] at hfull
    rwa [List.length_map]

/-- The assertion of `dequeue` holds. -/
lemma StandsFor.dequeue {x : BSlot} (h : StandsFor r (x :: q)) :
    ∃ r', r.dequeue = some (x.raw, r') ∧ StandsFor r' q := by
  refine ⟨r.pop maxCuckooCount, ?_, Represents.pop h⟩
  have hempty : ¬ r.empty = true := by
    rw [h.empty_eq]
    exact Bool.false_ne_true
  rw [RawQueue.dequeue, if_neg hempty, increment_eq, ← Represents.front_eq h]
  rfl

end RawQueue

namespace Table

open RawQueue

variable {Key T : Type} {t : Table Key T}

/-! ## `slot_search` -/

/-- The inner loop comes to the same. -/
inductive SameExpansion : RawExpansion → Expansion → Prop
  | found (x : BSlot) : SameExpansion (.found x.raw) (.found x)
  | queue {r : RawQueue} {q : BQueue} (h : StandsFor r q) : SameExpansion (.queue r) (.queue q)

lemma rawExpand_eq (t : Table Key T) (x : BSlot) (is : List ℕ) {r : RawQueue}
    {q : BQueue} (h : StandsFor r q) :
    ∃ y, t.rawExpand x.raw is r = some y ∧ SameExpansion y (t.expand x is q) := by
  induction is generalizing r q with
  | nil => exact ⟨.queue r, rfl, .queue h⟩
  | cons i is ih =>
    rw [rawExpand, expand, h.full_eq]
    by_cases hfull : q.full = true
    · rw [if_pos hfull, if_pos hfull]
      exact ⟨.queue r, rfl, .queue h⟩
    · simp only [if_neg hfull, BSlot.pathcode_mod, BSlot.pathcode_step]
      have hbucket : x.raw.bucket = x.bucket := rfl
      rw [hbucket]
      cases t.buckets x.bucket (Fin.ofNat slotPerBucket (x.pathcode % slotPerBucket + i)) with
      | none =>
        exact ⟨_, rfl, .found ⟨x.bucket, x.pathcode * slotPerBucket
          + (Fin.ofNat slotPerBucket (x.pathcode % slotPerBucket + i) : Slot), x.depth⟩⟩
      | some e =>
        have hdepth : x.raw.depth < maxBfsPathLen - 1 ↔ x.depth < maxBfsPathLen - 1 := by
          show (x.depth : ℤ) < 5 - 1 ↔ x.depth < 5 - 1
          omega
        simp only [hdepth]
        by_cases hlt : x.depth < maxBfsPathLen - 1
        · have hcreate : ∀ b c, RawSlot.create b c (x.raw.depth + 1)
              = some ⟨b, c, (x.depth + 1 : ℕ)⟩ := by
            intro b c
            refine if_pos ?_
            show (x.depth : ℤ) + 1 < 5
            simp only [maxBfsPathLen] at hlt
            omega
          simp only [if_pos hlt, hcreate]
          obtain ⟨r', hr', hstands⟩ := h.enqueue hfull
            ⟨altIndex t.hashpower e.partialTag x.bucket, x.pathcode * slotPerBucket
              + (Fin.ofNat slotPerBucket (x.pathcode % slotPerBucket + i) : Slot), x.depth + 1⟩
          obtain ⟨y, hy, hsame⟩ := ih hstands
          refine ⟨y, ?_, hsame⟩
          rw [← hy]
          show (r.enqueue _ >>= _) = _
          rw [← Option.bind_some r' (fun r' => t.rawExpand x.raw is r'), ← hr']
          rfl
        · simp only [if_neg hlt]
          exact ih h

/-- The result of a search in machine words. -/
def rawResult : Option BSlot → RawSlot
  | none => .failure
  | some y => y.raw

lemma rawSlotSearchLoop_eq {i1 i2 n : ℕ} {r : RawQueue} {q : BQueue} (h : StandsFor r q)
    (hsearch : Searching t i1 i2 q) (hn : work q < n) :
    t.rawSlotSearchLoop n r = some (rawResult (t.slotSearchLoop n q)) := by
  induction n generalizing r q with
  | zero => exact absurd hn (Nat.not_lt_zero _)
  | succ n ih =>
    by_cases hfull : q.full = true
    · simp only [rawSlotSearchLoop, slotSearchLoop, h.full_eq, hfull, Bool.true_or, if_true]
      rfl
    · cases q with
      | nil =>
        simp only [rawSlotSearchLoop, slotSearchLoop, h.empty_eq, List.isEmpty_nil, Bool.or_true,
          if_true, if_neg hfull]
        rfl
      | cons x q =>
        obtain ⟨r', hr', hstands⟩ := h.dequeue
        have hx := hsearch.depth_le x List.mem_cons_self
        obtain ⟨y, hy, hsame⟩ := t.rawExpand_eq x (List.range slotPerBucket) hstands
        simp only [rawSlotSearchLoop, slotSearchLoop, h.full_eq, h.empty_eq, hfull,
          List.isEmpty_cons, Bool.or_self, if_false, Bool.false_eq_true, hr', Option.bind_eq_bind,
          Option.bind_some, hy]
        rcases expand_spec t x (List.range slotPerBucket) q with
          ⟨i, -, hnone, hfound⟩ | ⟨ys, hq, hch, hlen, hall⟩
        · rw [hfound] at hsame ⊢
          cases hsame
          rfl
        · rw [hq] at hsame ⊢
          cases hsame with
          | queue hstands' =>
            have hwork := work_visit (q := q) hx hch hlen
            rcases hall with hfull' | hall
            · -- the queue is full, which ends both loops in the next round
              cases n with
              | zero => omega
              | succ n =>
                simp only [rawSlotSearchLoop, slotSearchLoop, hstands'.full_eq, hfull',
                  Bool.true_or, if_true]
                rfl
            · exact ih hstands' (hsearch.visit hch hall) (by omega)

/-! ## Path codes -/

/-- A pathcode has one digit for each step, and a leading one for the bucket the path starts in. -/
def InRange (x : BSlot) : Prop :=
  x.pathcode < 2 * slotPerBucket ^ x.depth ∧ x.depth ≤ maxBfsPathLen - 1

/-- The items a search starts with. -/
lemma inRange_starts (i1 i2 : ℕ) : ∀ x ∈ [⟨i1, 0, 0⟩, ⟨i2, 1, 0⟩], InRange x := by
  simp only [List.mem_cons, List.not_mem_nil, or_false, forall_eq_or_imp, forall_eq]
  exact ⟨⟨show 0 < 2 * slotPerBucket ^ 0 by decide, Nat.zero_le _⟩,
    ⟨show 1 < 2 * slotPerBucket ^ 0 by decide, Nat.zero_le _⟩⟩

/-- One more digit. -/
lemma InRange.digit {x : BSlot} (hx : InRange x) (s : Slot) :
    x.pathcode * slotPerBucket + s < 2 * slotPerBucket ^ (x.depth + 1) := by
  have hs := s.isLt
  have hcode := hx.1
  rw [pow_succ, ← Nat.mul_assoc]
  simp only [slotPerBucket] at hs hcode ⊢
  omega

lemma inRange_children {x : BSlot} {ys : List BSlot} (hx : InRange x) (hch : Children t x ys) :
    ∀ y ∈ ys, InRange y := by
  intro y hy
  obtain ⟨hdepth, s, e, -, rfl⟩ := hch y hy
  exact ⟨hx.digit s, hdepth⟩

lemma inRange_of_slotSearchLoop {n : ℕ} {q : BQueue} (hq : ∀ x ∈ q, InRange x) {y : BSlot}
    (hy : t.slotSearchLoop n q = some y) :
    y.pathcode < 2 * slotPerBucket ^ (y.depth + 1) ∧ y.depth ≤ maxBfsPathLen - 1 := by
  induction n generalizing q with
  | zero => cases hy
  | succ n ih =>
    by_cases hfull : q.full = true
    · simp only [slotSearchLoop, hfull, if_true] at hy
      cases hy
    cases q with
    | nil =>
      simp only [slotSearchLoop, if_neg hfull] at hy
      cases hy
    | cons x q =>
      simp only [slotSearchLoop, if_neg hfull] at hy
      have hx := hq x List.mem_cons_self
      rcases expand_spec t x (List.range slotPerBucket) q with
        ⟨i, -, -, hfound⟩ | ⟨ys, hexpand, hch, -, -⟩
      · rw [hfound] at hy
        obtain rfl := Option.some.inj hy
        exact ⟨hx.digit (slotAt x i), hx.2⟩
      · rw [hexpand] at hy
        refine ih (fun z hz => ?_) hy
        rcases List.mem_append.mp hz with hz | hz
        · exact hq z (List.mem_cons_of_mem x hz)
        · exact inRange_children hx hch z hz

/-- As long as the code fits in a word, it is decoded digit by digit. -/
lemma rawPathSlots_eq (n : ℕ) {code : ℕ} (hcode : code < 2 ^ 64) (acc : List Slot) :
    rawPathSlots n (BitVec.ofNat 64 code) acc
      = ((pathSlots n code acc).1, BitVec.ofNat 64 (pathSlots n code acc).2) := by
  induction n generalizing code acc with
  | zero => rfl
  | succ n ih =>
    have hdiv : BitVec.ofNat 64 code / BitVec.ofNat 64 slotPerBucket
        = BitVec.ofNat 64 (code / slotPerBucket) := by
      apply BitVec.eq_of_toNat_eq
      rw [BitVec.toNat_udiv, BitVec.toNat_ofNat, BitVec.toNat_ofNat, BitVec.toNat_ofNat,
        Nat.mod_eq_of_lt hcode, Nat.mod_eq_of_lt ((Nat.div_le_self _ _).trans_lt hcode)]
      rfl
    have hmod : (BitVec.ofNat 64 code % BitVec.ofNat 64 slotPerBucket).toNat
        = code % slotPerBucket := by
      rw [BitVec.toNat_umod, BitVec.toNat_ofNat, BitVec.toNat_ofNat, Nat.mod_eq_of_lt hcode]
      rfl
    have hslot : Fin.ofNat slotPerBucket (code % slotPerBucket) = Fin.ofNat slotPerBucket code :=
      Fin.ext (Nat.mod_mod code slotPerBucket)
    rw [rawPathSlots, pathSlots, hdiv, hmod, hslot,
      ih ((Nat.div_le_self _ _).trans_lt hcode)]

lemma pathSlots_snd (n code : ℕ) (acc : List Slot) :
    (pathSlots n code acc).2 = code / slotPerBucket ^ n := by
  induction n generalizing code acc with
  | zero => rw [pathSlots, pow_zero, Nat.div_one]
  | succ n ih => rw [pathSlots, ih, Nat.div_div_eq_div_mul, pow_succ']

/-- What is left of a pathcode says in which bucket the path starts. -/
lemma pathSlots_snd_lt {n code : ℕ} (hcode : code < 2 * slotPerBucket ^ n) (acc : List Slot) :
    (pathSlots n code acc).2 < 2 := by
  rw [pathSlots_snd]
  exact Nat.div_lt_of_lt_mul (by rwa [Nat.mul_comm])

/-- **The search in machine words is the search.** Whatever the table and whatever lies in the array
of the queue, `cuckoopath_search` finds what it finds on lists and numbers, and no assertion on the
way fails: the queue is not full when it is added to and not empty when it is taken from, no depth
and no pathcode gets too big, and the code that is left at the end names one of the two buckets. -/
theorem rawCuckoopathSearch_eq (hash : Key → UInt64) (t : Table Key T) (slots : ℕ → RawSlot)
    (i1 i2 : ℕ) :
    t.rawCuckoopathSearch hash slots i1 i2 = some (t.cuckoopathSearch hash i1 i2) := by
  have hstart : t.rawSlotSearch slots i1 i2 = some (rawResult (t.slotSearch i1 i2)) := by
    obtain ⟨r₁, hr₁, h₁⟩ := (standsFor_create slots).enqueue Bool.false_ne_true ⟨i1, 0, 0⟩
    obtain ⟨r₂, hr₂, h₂⟩ := h₁.enqueue Bool.false_ne_true ⟨i2, 1, 0⟩
    have hwork : work [⟨i1, 0, 0⟩, ⟨i2, 1, 0⟩] < searchFuel := by
      show work [⟨0, 0, 0⟩, ⟨0, 1, 0⟩] < searchFuel
      decide
    have hloop : t.rawSlotSearchLoop searchFuel r₂ = some (rawResult (t.slotSearch i1 i2)) :=
      rawSlotSearchLoop_eq h₂ (searching_start t i1 i2) hwork
    rw [← hloop]
    show ((RawQueue.create slots).enqueue (BSlot.raw ⟨i1, 0, 0⟩)).bind (fun q =>
      (q.enqueue (BSlot.raw ⟨i2, 1, 0⟩)).bind fun q => t.rawSlotSearchLoop searchFuel q) = _
    rw [hr₁, Option.bind_some, hr₂, Option.bind_some]
  rw [rawCuckoopathSearch, hstart, cuckoopathSearch]
  cases hsearch : t.slotSearch i1 i2 with
  | none => rfl
  | some y =>
    obtain ⟨hcode, hdepth⟩ := inRange_of_slotSearchLoop (inRange_starts i1 i2) hsearch
    have hword : y.pathcode < 2 ^ 64 := by
      refine hcode.trans_le ((Nat.mul_le_mul_left 2 (Nat.pow_le_pow_right (by decide)
        (Nat.succ_le_succ hdepth))).trans ?_)
      decide
    have hleft := pathSlots_snd_lt hcode []
    have hdecode : rawPathSlots (y.raw.depth.toNat + 1) y.raw.pathcode []
        = ((pathSlots (y.depth + 1) y.pathcode []).1,
          BitVec.ofNat 64 (pathSlots (y.depth + 1) y.pathcode []).2) :=
      rawPathSlots_eq (y.depth + 1) hword []
    have hfound : ¬ (y.raw.depth = -1) := by
      show ¬ ((y.depth : ℤ) = -1)
      omega
    simp only [rawResult, Option.bind_eq_bind, Option.bind_some, if_neg hfound, hdecode]
    -- what is left of the code is zero or one
    generalize pathSlots (y.depth + 1) y.pathcode [] = decoded at hleft ⊢
    obtain ⟨path, start⟩ := decoded
    simp only at hleft ⊢
    interval_cases start
    · rfl
    · rfl

end Table

end Jakilid.Cuckoo
