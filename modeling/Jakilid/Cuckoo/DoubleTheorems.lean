import Jakilid.Cuckoo.TableTheorems

/-!
# Doubling the table

`cuckoo_fast_double` first puts every old bucket at its old index of an array of twice the
size, where the entries are at home with respect to the old hashpower, and then distributes
bucket after bucket. `Halfway` is the state in between: the positions still `pending` are at
home in the old sense, all others in the new one, and nothing has happened to the entries but a
rearrangement that keeps every entry under its lock.
-/

namespace Jakilid.Cuckoo

open CellStore

namespace Table

variable {Key T : Type} {hash : Key → UInt64}

/-- The lock of a position. -/
def lockOf (p : Position) : ℕ := lockInd p.1

/-! ## One entry -/

/-- The test of `move_buckets`: the bigger table looks for the entry one old table size further
on. -/
def Moves (hash : Key → UInt64) (hp b : ℕ) (e : Entry Key T) : Prop :=
  let hv := hashedKey hash e.key
  let oldIhash := indexHash hp hv.hash
  let newIhash := indexHash (hp + 1) hv.hash
  (b = oldIhash ∧ newIhash = b + hashsize hp) ∨
    (b = altIndex hp hv.partialTag oldIhash ∧
      altIndex (hp + 1) hv.partialTag newIhash = b + hashsize hp)

/-- Where the alternate bucket goes. -/
lemma altIndex_succ_indexHash_mod (hp : ℕ) (hv : HashValue) :
    altIndex (hp + 1) hv.partialTag (indexHash (hp + 1) hv.hash) % hashsize hp
      = altIndex hp hv.partialTag (indexHash hp hv.hash) := by
  rw [altIndex_succ_mod, indexHash_succ_mod]

/-- An entry that is not moved is at home where it is. -/
lemma Home.stay {hp b : ℕ} {e : Entry Key T} (h : Home hash hp e b)
    (hstay : ¬ Moves hash hp b e) : Home hash (hp + 1) e b := by
  refine ⟨h.tag, ?_⟩
  rcases h.candidate with hb | hb
  · rcases eq_or_eq_add_of_mod (indexHash_lt (hp + 1) _) (indexHash_succ_mod hp _) with hi | hi
    · exact Or.inl (by rw [hi, hb])
    · exact absurd (Or.inl ⟨hb, by rw [hi, hb]⟩) hstay
  · rcases eq_or_eq_add_of_mod (altIndex_lt (hp + 1) _ _)
      (altIndex_succ_indexHash_mod hp (hashedKey hash e.key)) with hi | hi
    · exact Or.inr (by rw [hi, hb])
    · exact absurd (Or.inr ⟨hb, by rw [hi, hb]⟩) hstay

/-- An entry that is moved is at home where it goes. -/
lemma Home.move {hp b : ℕ} {e : Entry Key T} (h : Home hash hp e b)
    (hmove : Moves hash hp b e) : Home hash (hp + 1) e (b + hashsize hp) := by
  refine ⟨h.tag, ?_⟩
  rcases hmove with ⟨-, hi⟩ | ⟨-, hi⟩
  · exact Or.inl hi.symm
  · exact Or.inr hi.symm

/-! ## The state in between -/

/-- The table `t` on the way from `t₀` to the doubled table, with the entries at the `pending`
positions still to be looked at. -/
structure Halfway (hash : Key → UInt64) (hp : ℕ) (t₀ t : Table Key T)
    (pending : Set Position) : Prop where
  rearranged : Rearranges lockOf t₀.cells t.cells
  counters : t.elemCounter = t₀.elemCounter
  hashpower : t.hashpower = hp + 1
  homeOld : ∀ p ∈ pending, ∀ e, t.cells p = some e → Home hash hp e p.1
  homeNew : ∀ p ∉ pending, ∀ e, t.cells p = some e → Home hash (hp + 1) e p.1
  lower : ∀ p ∈ pending, p.1 < hashsize hp

/-- What one round of the innermost loop does. -/
lemma moveSlot_cases (hash : Key → UInt64) (hp b : ℕ) (acc : Table Key T × ℕ) (s : Slot) :
    (acc.1.cells (b, s) = none ∧ moveSlot hash hp b acc s = acc) ∨
      ∃ e, acc.1.cells (b, s) = some e ∧
        ((¬ Moves hash hp b e ∧ moveSlot hash hp b acc s = acc) ∨
          (Moves hash hp b e ∧ moveSlot hash hp b acc s
            = (((acc.1.moveToBucket (b, s)
                (b + hashsize hp, Fin.ofNat slotPerBucket acc.2)).decCounter
                  (lockInd b)).incCounter (lockInd (b + hashsize hp)), acc.2 + 1))) := by
  cases hc : acc.1.cells (b, s) with
  | none =>
    have hb : acc.1.buckets b s = none := hc
    exact Or.inl ⟨rfl, by simp only [moveSlot, hb]⟩
  | some e =>
    have hb : acc.1.buckets b s = some e := hc
    refine Or.inr ⟨e, rfl, ?_⟩
    by_cases hm : Moves hash hp b e
    · refine Or.inr ⟨hm, ?_⟩
      simp only [moveSlot, hb]
      exact if_pos hm
    · refine Or.inl ⟨hm, ?_⟩
      simp only [moveSlot, hb]
      exact if_neg hm

/-- Looking at an entry that stays, or at a free slot. -/
lemma Halfway.stay {hp : ℕ} {t₀ t : Table Key T} {pending : Set Position}
    (h : Halfway hash hp t₀ t pending) {p : Position}
    (hstay : ∀ e, t.cells p = some e → ¬ Moves hash hp p.1 e) :
    Halfway hash hp t₀ t (pending \ {p}) where
  rearranged := h.rearranged
  counters := h.counters
  hashpower := h.hashpower
  homeOld := fun q hq e he => h.homeOld q hq.1 e he
  homeNew := by
    intro q hq e he
    by_cases hmem : q ∈ pending
    · have hqp : q = p := by
        by_contra hne
        exact hq ⟨hmem, hne⟩
      exact (h.homeOld q hmem e he).stay (by rw [hqp]; rw [hqp] at he; exact hstay e he)
    · exact h.homeNew q hmem e he
  lower := fun q hq => h.lower q hq.1

/-- Moving an entry to a free slot of its new bucket. -/
lemma Halfway.move {hp : ℕ} (hhp : 16 ≤ hp) {t₀ t : Table Key T} {pending : Set Position}
    (h : Halfway hash hp t₀ t pending) {b : ℕ} {s s' : Slot} (hpend : (b, s) ∈ pending)
    {e : Entry Key T} (he : t.cells (b, s) = some e) (hmove : Moves hash hp b e)
    (hfree : t.cells (b + hashsize hp, s') = none) :
    Halfway hash hp t₀
      (((t.moveToBucket (b, s) (b + hashsize hp, s')).decCounter (lockInd b)).incCounter
        (lockInd (b + hashsize hp))) (pending \ {(b, s)}) where
  rearranged := by
    rw [cells_incCounter, cells_decCounter, cells_moveToBucket]
    refine h.rearranged.trans (rearranges_move hfree ?_)
    exact (lockInd_add_hashsize hhp b).symm
  counters := by
    rw [lockInd_add_hashsize hhp, elemCounter_decCounter_incCounter, elemCounter_moveToBucket,
      h.counters]
  hashpower := h.hashpower
  homeOld := by
    intro q hq f hf
    rw [cells_incCounter, cells_decCounter, cells_moveToBucket,
      Function.update_of_ne hq.2] at hf
    have hne : q ≠ (b + hashsize hp, s') := by
      rintro rfl
      have hlt := h.lower _ hq.1
      simp at hlt
    rw [Function.update_of_ne hne] at hf
    exact h.homeOld q hq.1 f hf
  homeNew := by
    intro q hq f hf
    rw [cells_incCounter, cells_decCounter, cells_moveToBucket] at hf
    have hne : q ≠ (b, s) := by
      rintro rfl
      rw [Function.update_self] at hf
      cases hf
    rw [Function.update_of_ne hne] at hf
    by_cases hq' : q = (b + hashsize hp, s')
    · rw [hq', Function.update_self, he] at hf
      obtain rfl := Option.some.inj hf
      rw [hq']
      exact (h.homeOld _ hpend e he).move hmove
    · rw [Function.update_of_ne hq'] at hf
      exact h.homeNew q (fun hmem => hq ⟨hmem, hne⟩) f hf
  lower := fun q hq => h.lower q hq.1

/-! ## One bucket -/

/-- The loop over the slots of one bucket. From slot `acc.2` on, the new bucket stays free, and
no bucket but the old and the new one changes. -/
lemma Halfway.foldl_moveSlot {hp : ℕ} (hhp : 16 ≤ hp) {t₀ : Table Key T} {b : ℕ}
    (ss : List Slot) (hnodup : ss.Nodup) :
    ∀ (acc : Table Key T × ℕ) (pending : Set Position), Halfway hash hp t₀ acc.1 pending →
      (∀ s ∈ ss, (b, s) ∈ pending) → acc.2 + ss.length ≤ slotPerBucket →
      (∀ s' : Slot, acc.2 ≤ s' → acc.1.cells (b + hashsize hp, s') = none) →
      Halfway hash hp t₀ (ss.foldl (moveSlot hash hp b) acc).1
          (pending \ {p | p.1 = b ∧ p.2 ∈ ss}) ∧
        ∀ q : Position, q.1 ≠ b → q.1 ≠ b + hashsize hp →
          (ss.foldl (moveSlot hash hp b) acc).1.cells q = acc.1.cells q := by
  induction ss with
  | nil =>
    intro acc pending h _ _ _
    have hset : pending \ {p | p.1 = b ∧ p.2 ∈ ([] : List Slot)} = pending := by simp
    exact ⟨by rw [hset]; exact h, fun _ _ _ => rfl⟩
  | cons s ss ih =>
    intro acc pending h hpend hlen hfree
    have hs : (b, s) ∈ pending := hpend s List.mem_cons_self
    have hset : pending \ {p | p.1 = b ∧ p.2 ∈ s :: ss}
        = (pending \ {(b, s)}) \ {p | p.1 = b ∧ p.2 ∈ ss} := by
      ext ⟨b', s'⟩
      simp only [List.mem_cons, Set.mem_sdiff, Set.mem_ofPred_eq, Set.mem_singleton_iff,
        Prod.mk.injEq, not_and, and_assoc]
      tauto
    have hpend' : ∀ s' ∈ ss, (b, s') ∈ pending \ {(b, s)} := by
      intro s' hs'
      refine ⟨hpend s' (List.mem_cons_of_mem _ hs'), ?_⟩
      rintro heq
      obtain rfl : s' = s := (Prod.mk.inj heq).2
      exact (List.nodup_cons.mp hnodup).1 hs'
    have hrest := ih (List.nodup_cons.mp hnodup).2
    rw [List.length_cons] at hlen
    rw [List.foldl_cons, hset]
    -- the three ways a round can go
    rcases moveSlot_cases hash hp b acc s with
      ⟨hnone, heq⟩ | ⟨e, he, ⟨hstay, heq⟩ | ⟨hmove, heq⟩⟩ <;> rw [heq]
    · exact hrest acc _ (h.stay fun e he => by rw [hnone] at he; cases he) hpend' (by omega)
        hfree
    · have hkeep : ∀ f, acc.1.cells (b, s) = some f → ¬ Moves hash hp b f := by
        intro f hf
        rw [he] at hf
        exact Option.some.inj hf ▸ hstay
      exact hrest acc _ (h.stay hkeep) hpend' (by omega) hfree
    · have hslot : ((Fin.ofNat slotPerBucket acc.2 : Slot) : ℕ) = acc.2 :=
        Nat.mod_eq_of_lt (by omega)
      have hstep := h.move hhp hs he hmove (hfree _ hslot.ge)
      have hfree' : ∀ s' : Slot, acc.2 + 1 ≤ s' →
          (acc.1.moveToBucket (b, s)
            (b + hashsize hp, Fin.ofNat slotPerBucket acc.2)).cells
              (b + hashsize hp, s') = none := by
        intro s' hs'
        have hne : (b + hashsize hp, s') ≠ (b, s) := by
          intro hcontra
          have := (Prod.mk.inj hcontra).1
          have := hashsize_pos hp
          omega
        have hne' : (b + hashsize hp, s')
            ≠ (b + hashsize hp, Fin.ofNat slotPerBucket acc.2) := by
          intro hcontra
          have hval := congrArg Fin.val (Prod.mk.inj hcontra).2
          omega
        rw [cells_moveToBucket, Function.update_of_ne hne, Function.update_of_ne hne']
        exact hfree s' (by omega)
      obtain ⟨hdone, hsame⟩ := hrest (_, acc.2 + 1) _ hstep hpend' (by simp; omega) hfree'
      refine ⟨hdone, fun q hqb hqb' => ?_⟩
      refine (hsame q hqb hqb').trans ?_
      show (acc.1.moveToBucket (b, s)
        (b + hashsize hp, Fin.ofNat slotPerBucket acc.2)).cells q = acc.1.cells q
      have hne : q ≠ (b, s) := fun hq => hqb (by rw [hq])
      have hne' : q ≠ (b + hashsize hp, Fin.ofNat slotPerBucket acc.2) :=
        fun hq => hqb' (by rw [hq])
      rw [cells_moveToBucket, Function.update_of_ne hne, Function.update_of_ne hne']

lemma nodup_slots : slots.Nodup := by decide

/-- A bucket whose new bucket is empty is distributed. -/
lemma Halfway.splitBucket {hp : ℕ} (hhp : 16 ≤ hp) {t₀ t : Table Key T}
    {pending : Set Position} (h : Halfway hash hp t₀ t pending) {b : ℕ}
    (hpend : ∀ s, (b, s) ∈ pending) (hfree : ∀ s, t.cells (b + hashsize hp, s) = none) :
    Halfway hash hp t₀ (splitBucket hash hp t b) (pending \ {p | p.1 = b}) ∧
      ∀ q : Position, q.1 ≠ b → q.1 ≠ b + hashsize hp →
        (Table.splitBucket hash hp t b).cells q = t.cells q := by
  have hset : pending \ {p | p.1 = b ∧ p.2 ∈ slots} = pending \ {p | p.1 = b} := by
    ext p
    simp [mem_slots]
  have hfold := h.foldl_moveSlot hhp (b := b) slots nodup_slots (t, 0) pending
  rw [hset] at hfold
  exact hfold (fun s _ => hpend s) (Nat.le_refl slotPerBucket) fun s _ => hfree s

/-! ## All buckets -/

/-- The loop over the buckets, in any order that visits no bucket twice. -/
lemma Halfway.foldl_splitBucket {hp : ℕ} (hhp : 16 ≤ hp) {t₀ : Table Key T} (bs : List ℕ)
    (hnodup : bs.Nodup) (hlt : ∀ b ∈ bs, b < hashsize hp) :
    ∀ (t : Table Key T) (pending : Set Position), Halfway hash hp t₀ t pending →
      (∀ b ∈ bs, ∀ s, (b, s) ∈ pending) →
      (∀ b ∈ bs, ∀ s, t.cells (b + hashsize hp, s) = none) →
      Halfway hash hp t₀ (bs.foldl (Table.splitBucket hash hp) t)
        (pending \ {p | p.1 ∈ bs}) := by
  induction bs with
  | nil =>
    intro t pending h _ _
    have hset : pending \ {p | p.1 ∈ ([] : List ℕ)} = pending := by simp
    rw [hset]
    exact h
  | cons b bs ih =>
    intro t pending h hpend hfree
    have hb := hlt b List.mem_cons_self
    have hnotin : b ∉ bs := (List.nodup_cons.mp hnodup).1
    obtain ⟨hstep, hsame⟩ := h.splitBucket hhp (hpend b List.mem_cons_self)
      (hfree b List.mem_cons_self)
    have hset : pending \ {p | p.1 ∈ b :: bs}
        = (pending \ {p | p.1 = b}) \ {p | p.1 ∈ bs} := by
      ext p
      simp only [List.mem_cons, Set.mem_sdiff, Set.mem_ofPred_eq, not_or, and_assoc]
    rw [List.foldl_cons, hset]
    refine ih (List.nodup_cons.mp hnodup).2 (fun c hc => hlt c (List.mem_cons_of_mem _ hc)) _ _
      hstep (fun c hc s => ⟨hpend c (List.mem_cons_of_mem _ hc) s, ?_⟩) fun c hc s => ?_
    · rintro rfl
      exact hnotin hc
    · have hcb : c ≠ b := by
        rintro rfl
        exact hnotin hc
      rw [hsame (c + hashsize hp, s) (by simp; omega) (by simpa using hcb)]
      exact hfree c (List.mem_cons_of_mem _ hc) s

/-! ## The order of the buckets -/

/-- The buckets of a lock are the ones with its number below the sixteenth bit. -/
lemma mem_bucketsOfLock {hp l b : ℕ} (hl : l < maxNumLocks) :
    b ∈ bucketsOfLock hp l ↔ b < hashsize hp ∧ b % maxNumLocks = l := by
  have hpos : 0 < maxNumLocks := by decide
  rw [bucketsOfLock, List.mem_range']
  constructor
  · rintro ⟨i, hi, rfl⟩
    have hmul : (i + 1) * maxNumLocks ≤ hashsize hp - l + maxNumLocks - 1 :=
      (Nat.le_div_iff_mul_le hpos).mp hi
    rw [Nat.succ_mul] at hmul
    refine ⟨by rw [Nat.mul_comm]; omega, ?_⟩
    rw [Nat.add_mul_mod_self_left, Nat.mod_eq_of_lt hl]
  · rintro ⟨hlt, hmod⟩
    have hdiv := Nat.div_add_mod b maxNumLocks
    refine ⟨b / maxNumLocks, ?_, by omega⟩
    refine (Nat.le_div_iff_mul_le hpos).mpr ?_
    rw [Nat.succ_mul, Nat.mul_comm]
    omega

lemma nodup_bucketsOfLock (hp l : ℕ) : (bucketsOfLock hp l).Nodup :=
  List.nodup_range' maxNumLocks (by decide)

/-- Every old bucket is visited, and only once. -/
lemma mem_visited {hp b : ℕ} :
    b ∈ (List.range maxNumLocks).flatMap (bucketsOfLock hp) ↔ b < hashsize hp := by
  rw [List.mem_flatMap]
  constructor
  · rintro ⟨l, hl, hb⟩
    exact ((mem_bucketsOfLock (List.mem_range.mp hl)).mp hb).1
  · intro hb
    have hl : b % maxNumLocks < maxNumLocks := Nat.mod_lt _ (by decide)
    exact ⟨b % maxNumLocks, List.mem_range.mpr hl, (mem_bucketsOfLock hl).mpr ⟨hb, rfl⟩⟩

lemma nodup_visited (hp : ℕ) :
    ((List.range maxNumLocks).flatMap (bucketsOfLock hp)).Nodup := by
  rw [List.nodup_flatMap]
  refine ⟨fun l _ => nodup_bucketsOfLock hp l, ?_⟩
  refine List.Pairwise.imp_of_mem ?_ List.nodup_range
  intro l l' hl hl' hne b hb hb'
  rw [mem_bucketsOfLock (List.mem_range.mp hl)] at hb
  rw [mem_bucketsOfLock (List.mem_range.mp hl')] at hb'
  exact hne (hb.2.symm.trans hb'.2)

/-! ## The whole step -/

/-- What `cuckoo_fast_double` returns when it returns. -/
lemma cuckooFastDouble_eq_ok {alloc : Allocator} {t t' : Table Key T}
    (h : t.cuckooFastDouble hash alloc = .ok t') :
    alloc.grants (hashsize t.hashpower * 2) = true ∧
      t' = t.enlarge.moveBuckets hash t.hashpower (min t.numLocks (hashsize t.hashpower)) := by
  unfold cuckooFastDouble at h
  cases hv : t.checkResizeValidity (t.hashpower + 1) with
  | error e =>
    rw [hv] at h
    cases h
  | ok u =>
    rw [hv] at h
    by_cases hg : alloc.grants (hashsize t.hashpower * 2) = true
    · simp only [bind, Except.bind, hg, if_true, pure, Except.pure, Except.ok.injEq] at h
      exact ⟨hg, h.symm⟩
    · simp [bind, Except.bind, hg, throw, throwThe, MonadExceptOf.throw] at h

/-- The exceptions of `check_resize_validity`: there is no maximum hashpower. -/
lemma checkResizeValidity_eq_error {t : Table Key T} {hp : ℕ} {x : Exn}
    (h : t.checkResizeValidity hp = .error x) : x = .loadFactorTooLow := by
  rw [checkResizeValidity, if_neg fun hmax => hmax.1 rfl] at h
  cases hlow : t.loadFactorTooLow with
  | true =>
    rw [hlow] at h
    exact (Except.error.inj h).symm
  | false =>
    rw [hlow] at h
    cases h

/-- The exceptions of a doubling. -/
lemma cuckooFastDouble_eq_error {alloc : Allocator} {t : Table Key T} {x : Exn}
    (h : t.cuckooFastDouble hash alloc = .error x) : x = .loadFactorTooLow ∨ x = .badAlloc := by
  unfold cuckooFastDouble at h
  cases hv : t.checkResizeValidity (t.hashpower + 1) with
  | error e =>
    rw [hv] at h
    have he : (Except.error e : Except Exn (Table Key T)) = .error x := h
    rw [← Except.error.inj he]
    exact .inl (checkResizeValidity_eq_error hv)
  | ok u =>
    rw [hv] at h
    by_cases hg : alloc.grants (hashsize t.hashpower * 2) = true
    · simp [bind, Except.bind, hg, pure, Except.pure] at h
    · simp only [bind, Except.bind, hg, throw, throwThe, MonadExceptOf.throw] at h
      exact .inr (Except.error.inj h).symm

/-- The bigger bucket array, before anything is distributed. -/
lemma WellFormed.halfway_enlarge {t : Table Key T} (h : t.WellFormed hash) :
    Halfway hash t.hashpower t t.enlarge {p | p.1 < hashsize t.hashpower} := by
  have hcells : t.enlarge.cells = t.cells := by
    funext p
    show (if p.1 < hashsize t.hashpower then t.buckets p.1 else fun _ => none) p.2
      = t.buckets p.1 p.2
    split
    · rfl
    · next hp =>
      by_contra hne
      exact hp (h.lt (Ne.symm hne))
  refine ⟨by rw [hcells]; exact Rearranges.refl _ _, rfl, rfl, ?_, ?_, fun p hp => hp⟩
  · intro p _ e he
    rw [hcells] at he
    exact h.home p e he
  · intro p hp e he
    rw [hcells] at he
    exact absurd (h.lt (by rw [he]; exact Option.some_ne_none e)) hp

/-- **Doubling.** The doubled table is well formed, its entries are the ones of the old table,
each under the lock it was under, and the counters are the old ones. -/
theorem WellFormed.cuckooFastDouble {alloc : Allocator} {t t' : Table Key T}
    (h : t.WellFormed hash) (hdouble : t.cuckooFastDouble hash alloc = .ok t') :
    t'.WellFormed hash ∧ Rearranges lockOf t.cells t'.cells ∧
      t'.elemCounter = t.elemCounter ∧ t'.hashpower = t.hashpower + 1 := by
  obtain ⟨hgrant, rfl⟩ := cuckooFastDouble_eq_ok hdouble
  have hlocks : min t.numLocks (hashsize t.hashpower) = maxNumLocks := by
    rw [numLocks_eq, Nat.min_eq_left]
    rw [hashsize_eq, maxNumLocks_eq]
    exact Nat.pow_le_pow_right (by decide) h.minHashpower
  rw [hlocks]
  have hstart := h.halfway_enlarge
  have hend := hstart.foldl_splitBucket h.minHashpower _ (nodup_visited t.hashpower)
    (fun b hb => mem_visited.mp hb) t.enlarge _ (fun b hb _ => mem_visited.mp hb)
    (fun b _ s => congrFun (if_neg (by simp)) s)
  have hnone : {p : Position | p.1 < hashsize t.hashpower}
      \ {p | p.1 ∈ (List.range maxNumLocks).flatMap (bucketsOfLock t.hashpower)} = ∅ := by
    ext p
    simp only [Set.mem_sdiff, Set.mem_ofPred_eq, mem_visited, Set.mem_empty_iff_false]
    tauto
  rw [hnone] at hend
  change Halfway hash t.hashpower t
    (t.enlarge.moveBuckets hash t.hashpower maxNumLocks) ∅ at hend
  refine ⟨?_, hend.rearranged, hend.counters, hend.hashpower⟩
  exact {
    home := fun p e he => by
      rw [hend.hashpower]
      exact hend.homeNew p (Set.notMem_empty p) e he
    distinct := hend.rearranged.distinct h.distinct
    counted := by
      rw [size_congr hend.counters, h.counted, card_eq_of_rearranges hend.rearranged]
    minHashpower := by
      rw [hend.hashpower]
      exact h.minHashpower.trans (Nat.le_succ _)
    fits := by
      rw [hend.hashpower, hashsize_succ, ← Nat.mul_two]
      exact alloc.bounded _ hgrant }

end Table

end Jakilid.Cuckoo
