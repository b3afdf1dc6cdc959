import Jakilid.Cuckoo.InsertTheorems

/-!
# How far an insertion reaches

The queue of `slot_search` has room for 255 items, and when it is full the search fails, whatever
is left in it. By then every bucket within two relocations of the two candidate buckets has been
looked at: up to there the queue cannot fill up. So if one of these buckets has a free slot, the
search finds a nearest one (`slotSearch_of_near`), and the insertion neither doubles the table nor
fails, and changes no more slots than there are on the way (`WellFormed.upsert_of_near`).
-/

namespace Jakilid.Cuckoo

open BreadthFirst CellStore

namespace Table

variable {Key T : Type} {t : Table Key T} {i1 i2 : ℕ}

/-! ## The search -/

/-- The bucket can be reached from one of the two others by `k` relocations. -/
def Near (t : Table Key T) (i1 i2 k b : ℕ) : Prop :=
  ∃ s, (s = i1 ∨ s = i2) ∧ Walk (Step t) k s b

/-- Within the limit of the depth, a search that fails has looked at all buckets in vain, unless the
queue has filled up. Of the items up to depth 3 there are never more than the forecast, so then it
has items of depth 4, and all nearer than 3 are worked off. -/
lemma full_of_slotSearchLoop {n : ℕ} {q : BQueue} (h : Searching t i1 i2 q) (hn : work q < n)
    (hforecast : forecast slotPerBucket 3 (q.map node) + 1 < maxCuckooCount)
    (hnone : t.slotSearchLoop n q = none) {k b : ℕ} (hnear : Near t i1 i2 k b) (hk : k ≤ 2) :
    Full t b := by
  obtain ⟨s, hs, hwalk⟩ := hnear
  have hlimit : k ≤ maxBfsPathLen - 1 := hk.trans (by decide)
  induction n generalizing q with
  | zero => exact absurd hn (Nat.not_lt_zero _)
  | succ n ih =>
    have hdeep : ∀ q : BQueue, forecast slotPerBucket 3 (q.map node) + 1 < maxCuckooCount →
        q.full = true → ∃ y ∈ q, 3 < y.depth := by
      intro q hq hfull
      simp only [BQueue.full, decide_eq_true_eq] at hfull
      obtain ⟨z, hz, hz3⟩ := exists_deeper (m := slotPerBucket) (k := 3) (q := q.map node)
        (by decide) (by rw [List.length_map]; omega)
      obtain ⟨y, hy, rfl⟩ := List.mem_map.mp hz
      exact ⟨y, hy, hz3⟩
    -- a deep item that comes after `x` or of `x` is at most one layer deeper
    have hlast : ∀ (x : BSlot) (q ys : BQueue), Searching t i1 i2 (x :: q) → Children t x ys →
        (∃ y ∈ q ++ ys, 3 < y.depth) → Full t b := by
      intro x q ys hsearch hch hy
      have hx : k < x.depth := by
        obtain ⟨y, hy, hy3⟩ := hy
        rcases List.mem_append.mp hy with hy | hy
        · have hlayer := hsearch.layered
          rw [List.map_cons] at hlayer
          have := ((List.pairwise_cons.mp hlayer).1 _ (List.mem_map_of_mem hy)).2
          simp only [node] at this
          omega
        · obtain ⟨-, s, e, -, rfl⟩ := hch y hy
          simp only [child] at hy3
          omega
      exact hsearch.covers.done_of_lt hsearch.layered hs hx hlimit hwalk
    by_cases hfull : q.full = true
    · cases q with
      | nil => cases hfull
      | cons x q =>
        obtain ⟨y, hy, hy3⟩ := hdeep _ hforecast hfull
        rcases List.mem_cons.mp hy with rfl | hy
        · exact h.covers.done_of_lt h.layered hs (show k < y.depth by omega) hlimit hwalk
        · exact hlast x q [] h (children_nil t x) ⟨y, List.mem_append_left [] hy, hy3⟩
    cases q with
    | nil =>
      rcases h.covers s b k hs hlimit hwalk with hb | ⟨y, hy, -⟩
      · exact hb
      · cases hy
    | cons x q =>
      simp only [slotSearchLoop, if_neg hfull] at hnone
      rcases expand_spec t x (List.range slotPerBucket) q with
        ⟨i, -, -, hfound⟩ | ⟨ys, hq, hch, hlen, hrest⟩
      · rw [hfound] at hnone
        cases hnone
      · rw [hq] at hnone
        have hvisit : forecast slotPerBucket 3 ((q ++ ys).map node) + 1 < maxCuckooCount := by
          rw [List.map_append]
          refine lt_of_le_of_lt (Nat.succ_le_succ (forecast_visit (fun y hy => ?_) ?_)) hforecast
          · obtain ⟨z, hz, rfl⟩ := List.mem_map.mp hy
            obtain ⟨-, s, e, -, rfl⟩ := hch z hz
            rfl
          · rw [List.length_map]
            exact hlen
        rcases hrest with hfull' | hall
        · exact hlast x q ys h hch (hdeep _ hvisit hfull')
        · have hwork := work_visit (q := q) (h.depth_le x List.mem_cons_self) hch hlen
          exact ih (h.visit hch hall) (by omega) hvisit hnone

/-- If a bucket within two relocations has a free slot, the search finds one that is no further
away. -/
lemma slotSearch_of_near {k b : ℕ} (hnear : Near t i1 i2 k b) (hk : k ≤ 2) (hfree : ¬ Full t b) :
    ∃ y, t.slotSearch i1 i2 = some y ∧ y.depth ≤ k := by
  cases hsearch : t.slotSearch i1 i2 with
  | none =>
    refine absurd (full_of_slotSearchLoop (searching_start t i1 i2) ?_ ?_ hsearch hnear hk) hfree
    · show work [⟨0, 0, 0⟩, ⟨0, 1, 0⟩] < searchFuel
      decide
    · show forecast slotPerBucket 3 [((0 : ℕ), 0), (0, 0)] + 1 < maxCuckooCount
      decide
  | some y =>
    obtain ⟨c, l, x, s, hshort, rfl⟩ := slotSearchLoop_spec _ _ (searching_start t i1 i2) y hsearch
    refine ⟨_, rfl, ?_⟩
    show x.depth ≤ k
    by_contra hlt
    obtain ⟨b', hb', hwalk⟩ := hnear
    exact hfree (hshort.nearest b' k hb' (Nat.lt_of_not_le hlt) b hwalk)

/-! ## The slots of a path -/

section Changes

variable {hash : Key → UInt64} {t' : Table Key T}

lemma length_pathSlots (n code : ℕ) (acc : List Slot) :
    (pathSlots n code acc).1.length = n + acc.length := by
  induction n generalizing code acc with
  | zero => rw [pathSlots, Nat.zero_add]
  | succ n ih =>
    rw [pathSlots, ih, List.length_cons]
    omega

lemma length_followPath_le (b : ℕ) (l : List Slot) :
    (t.followPath hash b l).length ≤ l.length := by
  induction l generalizing b with
  | nil => exact Nat.zero_le _
  | cons s l ih =>
    rw [followPath]
    cases t.buckets b s with
    | none => exact Nat.succ_le_succ (Nat.zero_le _)
    | some e => exact Nat.succ_le_succ (ih _)

/-- A path has one record more than it takes relocations. -/
lemma length_of_cuckoopathSearch {y : BSlot} (hy : t.slotSearch i1 i2 = some y)
    {path : List CuckooRecord} (hpath : t.cuckoopathSearch hash i1 i2 = some path) :
    path.length ≤ y.depth + 1 := by
  simp only [cuckoopathSearch, hy, Option.some.injEq] at hpath
  rw [← hpath]
  exact (length_followPath_le _ _).trans (length_pathSlots _ _ []).le

/-- Nothing happens outside the path. -/
lemma cells_moveAlong {path : List CuckooRecord} {ok : Bool}
    (hmove : t.moveAlong hash path = (t', ok)) {p : Position} (hp : p ∉ path.map recordPos) :
    t'.cells p = t.cells p := by
  induction path generalizing t with
  | nil =>
    obtain ⟨rfl, -⟩ := Prod.mk.inj hmove
    rfl
  | cons target path ih =>
    cases path with
    | nil =>
      obtain ⟨rfl, -⟩ := Prod.mk.inj hmove
      rfl
    | cons source rest =>
      have hrest : p ∉ (source :: rest).map recordPos := fun h => hp (List.mem_cons_of_mem _ h)
      have htarget : p ≠ (target.bucket, target.slot) := fun h => hp (h ▸ List.mem_cons_self)
      have hsource : p ≠ (source.bucket, source.slot) := fun h => hrest (h ▸ List.mem_cons_self)
      unfold moveAlong at hmove
      split at hmove
      · split_ifs at hmove with hhash
        · rw [ih hmove hrest, cells_moveToBucket, Function.update_of_ne hsource,
            Function.update_of_ne htarget]
        · obtain ⟨rfl, -⟩ := Prod.mk.inj hmove
          rfl
      · obtain ⟨rfl, -⟩ := Prod.mk.inj hmove
        rfl

lemma cells_cuckoopathMove {path : List CuckooRecord} {ok : Bool}
    (hmove : t.cuckoopathMove hash path = (t', ok)) {p : Position}
    (hp : p ∉ path.map recordPos) : t'.cells p = t.cells p := by
  unfold cuckoopathMove at hmove
  split at hmove
  · obtain ⟨rfl, -⟩ := Prod.mk.inj hmove
    rfl
  · refine cells_moveAlong hmove fun h => hp ?_
    rwa [List.map_reverse, List.mem_reverse] at h

/-- `run_cuckoo` frees the first slot of the path, and leaves the slots outside of it alone. -/
lemma WellFormed.runCuckoo_cells (h : t.WellFormed hash) {y : BSlot}
    (hy : t.slotSearch i1 i2 = some y) (fuel : ℕ) :
    ∃ t' first path, t.runCuckoo hash i1 i2 (fuel + 1) = (t', .ok (recordPos first)) ∧
      (first :: path).length ≤ y.depth + 1 ∧
      ∀ p ∉ (first :: path).map recordPos, t'.cells p = t.cells p := by
  obtain ⟨rs, last, hpath, hmovable⟩ := h.cuckoopathSearch_spec hy
  obtain ⟨first, path, t', hl, hmove, -⟩ := h.cuckoopathMove_spec hmovable
  rw [hl] at hpath hmove
  refine ⟨t', first, path, ?_, length_of_cuckoopathSearch hy hpath, fun p hp =>
    cells_cuckoopathMove hmove hp⟩
  rw [runCuckoo, hpath]
  simp only [hmove]
  rfl

/-! ## The insertion -/

variable [DecidableEq Key]

/-- What `cuckoo_insert` changes: the slots of a path, of which the free slot it returns is one. -/
lemma WellFormed.cuckooInsert_cells (h : t.WellFormed hash) (key : Key) (tag : UInt8) {y : BSlot}
    (hy : t.slotSearch i1 i2 = some y) :
    ∃ ps : List Position, ps.length ≤ y.depth + 1 ∧
      (∀ p ∉ ps, (t.cuckooInsert hash key tag i1 i2).1.cells p = t.cells p) ∧
      ∀ p, (t.cuckooInsert hash key tag i1 i2).2 = .ok p → p ∈ ps := by
  have hplace : ∀ p : Position, ∃ ps : List Position, ps.length ≤ y.depth + 1 ∧
      (∀ q ∉ ps, t.cells q = t.cells q) ∧ ∀ q, InsertStatus.ok p = .ok q → q ∈ ps := by
    intro p
    refine ⟨[p], Nat.succ_le_succ (Nat.zero_le _), fun _ _ => rfl, fun q hq => ?_⟩
    rw [InsertStatus.ok.inj hq]
    exact List.mem_singleton_self q
  have hduplicate : ∀ p : Position, ∃ ps : List Position, ps.length ≤ y.depth + 1 ∧
      (∀ q ∉ ps, t.cells q = t.cells q) ∧ ∀ q, InsertStatus.keyDuplicated p = .ok q → q ∈ ps :=
    fun p => ⟨[], Nat.zero_le _, fun _ _ => rfl, fun q hq => by cases hq⟩
  rw [cuckooInsert]
  cases tryFindInsertBucket (t.buckets i1) tag key with
  | duplicate s => exact hduplicate (i1, s)
  | room res1 =>
    cases tryFindInsertBucket (t.buckets i2) tag key with
    | duplicate s => exact hduplicate (i2, s)
    | room res2 =>
      cases res1 with
      | some s => exact hplace (i1, s)
      | none =>
        cases res2 with
        | some s => exact hplace (i2, s)
        | none =>
          obtain ⟨t', first, path, hrun, hlen, hcells⟩ := h.runCuckoo_cells hy 1
          simp only [cuckooFuel, hrun]
          refine ⟨(first :: path).map recordPos, by rwa [List.length_map], ?_⟩
          cases t'.cuckooFind key tag i1 i2 with
          | some p => exact ⟨hcells, fun q hq => by cases hq⟩
          | none =>
            refine ⟨hcells, fun p hp => ?_⟩
            rw [← InsertStatus.ok.inj hp]
            exact List.mem_cons_self

/-- **An insertion is local.** If a slot is free within `k ≤ 2` relocations of the buckets of a new
key, then the key is inserted, whatever the allocator would do: the table is not doubled, and at
most `k + 1` slots change. -/
theorem WellFormed.upsert_of_near (h : t.WellFormed hash) (alloc : Allocator) {key : Key}
    (fn : T → Except Exn T) (val : T) (hnew : t.find hash key = none) {k b : ℕ} {s : Slot}
    (hnear : Near t (t.bucketIndices (hashedKey hash key)).1
      (t.bucketIndices (hashedKey hash key)).2 k b) (hk : k ≤ 2) (hfree : t.buckets b s = none) :
    (t.upsert hash alloc key fn val).2 = .ok true ∧
      (t.upsert hash alloc key fn val).1.hashpower = t.hashpower ∧
      ∃ ps : List Position, ps.length ≤ k + 1 ∧
        ∀ p ∉ ps, (t.upsert hash alloc key fn val).1.cells p = t.cells p := by
  have habs : Absent t key := (h.find_eq_none_iff key).mp hnew
  obtain ⟨y, hy, hdepth⟩ := slotSearch_of_near hnear hk fun hfull => hfull s hfree
  obtain ⟨ps, hlen, hcells, hplace⟩ := h.cuckooInsert_cells key (partialKey (hash key)) hy
  have hspec := h.cuckooInsert_spec key
  -- the first round of the loop finds a place
  have hplaced : ∀ t' p, t'.hashpower = t.hashpower →
      t.cuckooInsert hash key (partialKey (hash key)) (t.bucketIndices (hashedKey hash key)).1
        (t.bucketIndices (hashedKey hash key)).2 = (t', .ok p) →
      (t.upsert hash alloc key fn val).2 = .ok true ∧
        (t.upsert hash alloc key fn val).1.hashpower = t.hashpower ∧
        ∃ ps : List Position, ps.length ≤ k + 1 ∧
          ∀ p ∉ ps, (t.upsert hash alloc key fn val).1.cells p = t.cells p := by
    intro t' p hhp hinsert
    rw [hinsert] at hcells hplace
    have hloop : cuckooInsertLoop hash alloc key doublingFuel t = (t', .ok (p, false)) := by
      rw [doublingFuel, cuckooInsertLoop]
      simp only [show (hashedKey hash key).partialTag = partialKey (hash key) from rfl, hinsert]
    rw [Table.upsert, hloop]
    refine ⟨rfl, hhp, ps, by omega, fun q hq => ?_⟩
    have hne : q ≠ p := fun hqp => hq (hqp ▸ hplace p rfl)
    show (t'.addToBucket p ⟨partialKey (hash key), key, val⟩).cells q = t.cells q
    rw [Table.addToBucket, cells_incCounter, cells_setSlot, Function.update_of_ne hne]
    exact hcells q hq
  generalize hinsert : t.cuckooInsert hash key (partialKey (hash key))
    (t.bucketIndices (hashedKey hash key)).1 (t.bucketIndices (hashedKey hash key)).2 = r at hspec
  cases hspec with
  | room => exact hplaced t _ rfl hinsert
  | relocated _ _ _ _ hhp => exact hplaced _ _ hhp hinsert
  | duplicate _ hp hk' => exact absurd hk' (habs _ (holds_of_eq hp))
  | full _ hnone =>
    obtain ⟨rs, last, hpath, -⟩ := h.cuckoopathSearch_spec hy
    rw [pathFor, hpath] at hnone
    cases hnone

/-- The allocator grants nothing, and the table of the constructor has room. -/
theorem upsert_of_near_create :
    ((create defaultSize : Table ℕ ℕ).upsert (fun _ => 0) ⟨fun _ => false, nofun⟩ 5 .ok 7).2
        = .ok true ∧
      ((create defaultSize : Table ℕ ℕ).upsert (fun _ => 0) ⟨fun _ => false, nofun⟩ 5 .ok
          7).1.hashpower = (create defaultSize : Table ℕ ℕ).hashpower ∧
      ∃ ps : List Position, ps.length ≤ 0 + 1 ∧ ∀ p ∉ ps,
        ((create defaultSize : Table ℕ ℕ).upsert (fun _ => 0) ⟨fun _ => false, nofun⟩ 5 .ok
          7).1.cells p = (create defaultSize : Table ℕ ℕ).cells p :=
  wellFormed_create.upsert_of_near ⟨fun _ => false, nofun⟩ .ok 7
    ((wellFormed_create.find_eq_none_iff 5).mpr fun e ⟨p, hp⟩ => by cases hp)
    ⟨_, .inl rfl, .refl _⟩ (Nat.zero_le 2)
    (rfl : (create defaultSize : Table ℕ ℕ).buckets _ 0 = none)

end Changes

end Table

end Jakilid.Cuckoo
