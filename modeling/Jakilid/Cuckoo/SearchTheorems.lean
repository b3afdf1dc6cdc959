import Jakilid.Lib.BreadthFirst
import Jakilid.Cuckoo.TableTheorems

/-!
# The search for a free slot

`slot_search` is a breadth-first search over buckets, one step leading from a bucket to the
alternate bucket of one of its entries. What it returns is the code of a shortest path from one
of the two buckets to a bucket with a free slot, so the path passes no bucket twice
(`WellFormed.cuckoopathSearch_spec`). The rounds the model allows are never used up
(`slotSearchLoop_add`).
-/

namespace Jakilid.Cuckoo

open CellStore BreadthFirst

namespace Table

variable {Key T : Type} {t : Table Key T} {i1 i2 : ℕ}

/-! ## Buckets as nodes -/

/-- An entry of the first bucket has the second one as its other bucket. -/
def Step (t : Table Key T) (b b' : ℕ) : Prop :=
  ∃ s e, t.buckets b s = some e ∧ b' = altIndex t.hashpower e.partialTag b

/-- No slot of the bucket is free. -/
def Full (t : Table Key T) (b : ℕ) : Prop := ∀ s, t.buckets b s ≠ none

/-- The bucket and the depth of an item of the queue. -/
def node (x : BSlot) : ℕ × ℕ := (x.bucket, x.depth)

/-- The item `slot_search` enqueues for an entry of the bucket of `x`. -/
def child (t : Table Key T) (x : BSlot) (slot : Slot) (e : Entry Key T) : BSlot :=
  ⟨altIndex t.hashpower e.partialTag x.bucket, x.pathcode * slotPerBucket + slot, x.depth + 1⟩

/-- The slot the inner loop looks at in its `i`-th round. -/
def slotAt (x : BSlot) (i : ℕ) : Slot := Fin.ofNat slotPerBucket (x.pathcode % slotPerBucket + i)

/-- The four rounds of the inner loop are the four slots. -/
lemma exists_slotAt (x : BSlot) (s : Slot) : ∃ i ∈ List.range slotPerBucket, slotAt x i = s := by
  refine ⟨(s.val + slotPerBucket - x.pathcode % slotPerBucket) % slotPerBucket, ?_, ?_⟩
  · exact List.mem_range.mpr (Nat.mod_lt _ (by decide))
  · have hs := s.isLt
    have hp := Nat.mod_lt x.pathcode (show slotPerBucket > 0 by decide)
    apply Fin.ext
    simp only [slotAt, Fin.val_ofNat, slotPerBucket] at hs hp ⊢
    omega

/-- The items are those of entries of the bucket of `x`, which is not at the last depth. -/
def Children (t : Table Key T) (x : BSlot) (ys : List BSlot) : Prop :=
  ∀ y ∈ ys, x.depth < maxBfsPathLen - 1 ∧
    ∃ s e, t.buckets x.bucket s = some e ∧ y = t.child x s e

lemma children_nil (t : Table Key T) (x : BSlot) : Children t x [] :=
  fun _ hy => absurd hy List.not_mem_nil

/-- One round of the inner loop. -/
lemma expand_cons {x : BSlot} {i : ℕ} {is : List ℕ} {q : BQueue} (hfull : ¬ q.full = true) :
    t.expand x (i :: is) q =
      match t.buckets x.bucket (slotAt x i) with
      | none => .found { x with pathcode := x.pathcode * slotPerBucket + slotAt x i }
      | some e =>
        if x.depth < maxBfsPathLen - 1 then t.expand x is (q ++ [t.child x (slotAt x i) e])
        else t.expand x is q := by
  rw [expand, if_neg hfull]
  rfl

/-- The inner loop ends with a free slot, or with the queue to which it has appended the items
of all entries it passed, unless the queue filled up. -/
lemma expand_spec (t : Table Key T) (x : BSlot) (is : List ℕ) (q : BQueue) :
    (∃ i ∈ is, t.buckets x.bucket (slotAt x i) = none ∧
      t.expand x is q = .found { x with
        pathcode := x.pathcode * slotPerBucket + slotAt x i }) ∨
    (∃ ys, t.expand x is q = .queue (q ++ ys) ∧ Children t x ys ∧ ys.length ≤ is.length ∧
      ((q ++ ys).full = true ∨
        ∀ i ∈ is, ∃ e, t.buckets x.bucket (slotAt x i) = some e ∧
          (x.depth < maxBfsPathLen - 1 → t.child x (slotAt x i) e ∈ ys))) := by
  induction is generalizing q with
  | nil =>
    refine .inr ⟨[], by rw [expand, List.append_nil], children_nil t x, le_rfl, .inr ?_⟩
    exact fun i hi => absurd hi List.not_mem_nil
  | cons i is ih =>
    by_cases hfull : q.full = true
    · refine .inr ⟨[], by rw [expand, if_pos hfull, List.append_nil], children_nil t x,
        Nat.zero_le _, .inl ?_⟩
      rwa [List.append_nil]
    cases hb : t.buckets x.bucket (slotAt x i) with
    | none => exact .inl ⟨i, List.mem_cons_self, hb, by simp only [expand_cons hfull, hb]⟩
    | some e =>
      by_cases hdepth : x.depth < maxBfsPathLen - 1
      · simp only [expand_cons hfull, hb, if_pos hdepth]
        rcases ih (q ++ [t.child x (slotAt x i) e]) with
          ⟨j, hj, hnone, hfound⟩ | ⟨ys, hq, hch, hlen, hdone⟩
        · exact .inl ⟨j, List.mem_cons_of_mem i hj, hnone, hfound⟩
        refine .inr ⟨t.child x (slotAt x i) e :: ys, ?_, ?_, Nat.succ_le_succ hlen, ?_⟩
        · rw [hq, List.append_assoc]
          rfl
        · intro y hy
          rcases List.mem_cons.mp hy with rfl | hy
          · exact ⟨hdepth, slotAt x i, e, hb, rfl⟩
          · exact hch y hy
        · rw [List.append_assoc] at hdone
          refine hdone.imp id fun hall j hj => ?_
          rcases List.mem_cons.mp hj with rfl | hj
          · exact ⟨e, hb, fun _ => List.mem_cons_self⟩
          · obtain ⟨f, hf, hmem⟩ := hall j hj
            exact ⟨f, hf, fun hd => List.mem_cons_of_mem _ (hmem hd)⟩
      · simp only [expand_cons hfull, hb, if_neg hdepth]
        rcases ih q with ⟨j, hj, hnone, hfound⟩ | ⟨ys, hq, hch, hlen, hdone⟩
        · exact .inl ⟨j, List.mem_cons_of_mem i hj, hnone, hfound⟩
        refine .inr ⟨ys, hq, hch, hlen.trans (Nat.le_succ _), hdone.imp id fun hall j hj => ?_⟩
        rcases List.mem_cons.mp hj with rfl | hj
        · exact ⟨e, hb, fun hd => absurd hd hdepth⟩
        · exact hall j hj

/-! ## Path codes -/

/-- `x` is the code of the path from bucket `b` that takes the given slots, where `c` is the
code of the path without slots. -/
inductive PathTo (t : Table Key T) (b c : ℕ) : List Slot → BSlot → Prop
  | start : PathTo t b c [] ⟨b, c, 0⟩
  | step {l : List Slot} {x : BSlot} {s : Slot} {e : Entry Key T} (h : PathTo t b c l x)
      (he : t.buckets x.bucket s = some e) : PathTo t b c (l ++ [s]) (t.child x s e)

lemma PathTo.length {b c : ℕ} {l : List Slot} {x : BSlot} (h : PathTo t b c l x) :
    l.length = x.depth := by
  induction h with
  | start => rfl
  | step h he ih => rw [List.length_append, ih]; rfl

lemma pathSlots_succ (n code : ℕ) (s : Slot) (acc : List Slot) :
    pathSlots (n + 1) (code * slotPerBucket + s) acc = pathSlots n code (s :: acc) := by
  have hs := s.isLt
  have hslot : Fin.ofNat slotPerBucket (code * slotPerBucket + s) = s := by
    apply Fin.ext
    rw [Fin.val_ofNat, Nat.mul_add_mod_self_right, Nat.mod_eq_of_lt hs]
  have hcode : (code * slotPerBucket + s) / slotPerBucket = code := by
    simp only [slotPerBucket] at hs ⊢
    omega
  rw [pathSlots, hslot, hcode]

/-- Decoding gives the slots of the path and the code it started with. -/
lemma PathTo.pathSlots {b c : ℕ} {l : List Slot} {x : BSlot} (h : PathTo t b c l x)
    (acc : List Slot) : pathSlots x.depth x.pathcode acc = (l ++ acc, c) := by
  induction h generalizing acc with
  | start => rfl
  | @step l x s e h he ih =>
    show Table.pathSlots (x.depth + 1) (x.pathcode * slotPerBucket + s) acc = _
    rw [pathSlots_succ, ih, List.append_assoc]
    rfl

/-! ## The loop -/

/-- The bucket a path with this start code starts in. -/
def startBucket (i1 i2 c : ℕ) : ℕ := if c = 0 then i1 else i2

lemma startBucket_eq (i1 i2 c : ℕ) : startBucket i1 i2 c = i1 ∨ startBucket i1 i2 c = i2 := by
  rw [startBucket]
  split
  · exact .inl rfl
  · exact .inr rfl

/-- What the queue of `slot_search` satisfies: its items are codes of paths of fewer than
`MAX_BFS_PATH_LEN` slots, and it is the queue of a breadth-first search. -/
structure Searching (t : Table Key T) (i1 i2 : ℕ) (q : BQueue) : Prop where
  coded : ∀ y ∈ q, ∃ c l, PathTo t (startBucket i1 i2 c) c l y
  depth_le : ∀ y ∈ q, y.depth ≤ maxBfsPathLen - 1
  covers : Covers (Step t) (Full t) (fun b => b = i1 ∨ b = i2) (maxBfsPathLen - 1) (q.map node)
  layered : Layered (q.map node)

lemma searching_start (t : Table Key T) (i1 i2 : ℕ) :
    Searching t i1 i2 [⟨i1, 0, 0⟩, ⟨i2, 1, 0⟩] where
  coded := by
    simp only [List.mem_cons, List.not_mem_nil, or_false, forall_eq_or_imp, forall_eq]
    exact ⟨⟨0, [], .start⟩, ⟨1, [], .start⟩⟩
  depth_le := by
    simp only [List.mem_cons, List.not_mem_nil, or_false, forall_eq_or_imp, forall_eq]
    exact ⟨Nat.zero_le _, Nat.zero_le _⟩
  covers := covers_starts fun s hs => by
    rcases hs with rfl | rfl
    · exact List.mem_cons_self
    · exact List.mem_cons_of_mem _ List.mem_cons_self
  layered := by simp [Layered, node]

/-- One item is worked off. -/
lemma Searching.visit {x : BSlot} {q ys : BQueue} (h : Searching t i1 i2 (x :: q))
    (hch : Children t x ys)
    (hall : ∀ i ∈ List.range slotPerBucket, ∃ e, t.buckets x.bucket (slotAt x i) = some e ∧
      (x.depth < maxBfsPathLen - 1 → t.child x (slotAt x i) e ∈ ys)) :
    Searching t i1 i2 (q ++ ys) where
  coded := by
    intro y hy
    rcases List.mem_append.mp hy with hy | hy
    · exact h.coded y (List.mem_cons_of_mem x hy)
    · obtain ⟨-, s, e, he, rfl⟩ := hch y hy
      obtain ⟨c, l, hl⟩ := h.coded x List.mem_cons_self
      exact ⟨c, l ++ [s], hl.step he⟩
  depth_le := by
    intro y hy
    rcases List.mem_append.mp hy with hy | hy
    · exact h.depth_le y (List.mem_cons_of_mem x hy)
    · obtain ⟨hd, s, e, he, rfl⟩ := hch y hy
      exact hd
  covers := by
    rw [List.map_append]
    refine h.covers.visit (fun s => ?_) (fun hd b hb => ?_)
    · obtain ⟨i, hi, rfl⟩ := exists_slotAt x s
      obtain ⟨e, he, -⟩ := hall i hi
      rw [show (node x).1 = x.bucket from rfl, he]
      exact Option.some_ne_none e
    · obtain ⟨s, e, he, rfl⟩ := hb
      obtain ⟨i, hi, rfl⟩ := exists_slotAt x s
      obtain ⟨f, hf, hmem⟩ := hall i hi
      have he' : t.buckets x.bucket (slotAt x i) = some e := he
      obtain rfl : f = e := Option.some.inj (hf.symm.trans he')
      exact List.mem_map.mpr ⟨_, hmem hd, rfl⟩
  layered := by
    rw [List.map_append]
    refine h.layered.visit fun y hy => ?_
    obtain ⟨z, hz, rfl⟩ := List.mem_map.mp hy
    obtain ⟨-, s, e, -, rfl⟩ := hch z hz
    rfl

/-- A path to a bucket with a free slot such that no bucket with one is nearer. -/
structure Shortest (t : Table Key T) (i1 i2 c : ℕ) (l : List Slot) (x : BSlot) (s : Slot) :
    Prop where
  path : PathTo t (startBucket i1 i2 c) c l x
  free : t.buckets x.bucket s = none
  nearest : ∀ b k, (b = i1 ∨ b = i2) → k < x.depth → ∀ b', Walk (Step t) k b b' → Full t b'

/-- What the search returns is the code of a shortest path. -/
lemma slotSearchLoop_spec (fuel : ℕ) (q : BQueue) (h : Searching t i1 i2 q) (y : BSlot)
    (hy : t.slotSearchLoop fuel q = some y) :
    ∃ c l x s, Shortest t i1 i2 c l x s ∧
      y = { x with pathcode := x.pathcode * slotPerBucket + s } := by
  induction fuel generalizing q with
  | zero => cases hy
  | succ fuel ih =>
    by_cases hfull : q.full = true
    · simp [slotSearchLoop, hfull] at hy
    cases q with
    | nil => simp [slotSearchLoop] at hy
    | cons x q =>
      simp only [slotSearchLoop, if_neg hfull] at hy
      rcases expand_spec t x (List.range slotPerBucket) q with
        ⟨i, -, hnone, hfound⟩ | ⟨ys, hq, hch, -, hrest⟩
      · rw [hfound] at hy
        obtain ⟨c, l, hl⟩ := h.coded x List.mem_cons_self
        refine ⟨c, l, x, slotAt x i, ⟨hl, hnone, fun b k hb hk b' hb' => ?_⟩,
          (Option.some.inj hy).symm⟩
        have hle := h.depth_le x List.mem_cons_self
        exact h.covers.done_of_lt h.layered hb hk (by omega) hb'
      · rw [hq] at hy
        rcases hrest with hfull' | hall
        · -- the queue filled up, which ends the outer loop as well
          cases fuel with
          | zero => cases hy
          | succ fuel => simp [slotSearchLoop, hfull'] at hy
        · exact ih (q ++ ys) (h.visit hch hall) hy

/-! ## The bound on the rounds -/

/-- The items that come of an item at a depth, itself included. -/
def subtree (depth : ℕ) : ℕ := ∑ j ∈ Finset.range (maxBfsPathLen - depth), slotPerBucket ^ j

/-- The rounds a queue is good for. -/
def work (q : BQueue) : ℕ := (q.map fun x => subtree x.depth).sum

lemma subtree_pos {d : ℕ} (h : d ≤ maxBfsPathLen - 1) : 0 < subtree d := by
  have hrange : maxBfsPathLen - d = maxBfsPathLen - d - 1 + 1 := by
    simp only [maxBfsPathLen] at h ⊢
    omega
  rw [subtree, hrange, Finset.sum_range_succ']
  exact Nat.succ_pos _

lemma subtree_succ {d : ℕ} (h : d < maxBfsPathLen - 1) :
    subtree d = slotPerBucket * subtree (d + 1) + 1 := by
  have hrange : maxBfsPathLen - d = maxBfsPathLen - (d + 1) + 1 := by
    simp only [maxBfsPathLen] at h ⊢
    omega
  rw [subtree, hrange, Finset.sum_range_succ', subtree, Finset.mul_sum, pow_zero]
  simp only [pow_succ']

/-- Working off an item leaves less work. -/
lemma work_visit {x : BSlot} {q ys : BQueue} (hx : x.depth ≤ maxBfsPathLen - 1)
    (hch : Children t x ys) (hlen : ys.length ≤ slotPerBucket) :
    work (q ++ ys) < work (x :: q) := by
  have hys : work ys < subtree x.depth := by
    by_cases hd : x.depth < maxBfsPathLen - 1
    · have hsame : ∀ y ∈ ys, subtree y.depth ≤ subtree (x.depth + 1) := by
        intro y hy
        obtain ⟨-, s, e, -, rfl⟩ := hch y hy
        exact le_rfl
      have hsum : work ys ≤ ys.length * subtree (x.depth + 1) := by
        have := List.sum_le_card_nsmul (ys.map fun y => subtree y.depth) (subtree (x.depth + 1))
          (by simpa using hsame)
        rwa [List.length_map, smul_eq_mul] at this
      rw [subtree_succ hd]
      exact Nat.lt_succ_of_le (hsum.trans (Nat.mul_le_mul_right _ hlen))
    · have hnil : ys = [] := List.eq_nil_iff_forall_not_mem.mpr fun y hy => hd (hch y hy).1
      rw [hnil]
      exact subtree_pos hx
  simp only [work, List.map_append, List.map_cons, List.sum_append, List.sum_cons] at hys ⊢
  omega

/-- More rounds than the queue is good for change nothing. -/
lemma slotSearchLoop_add (n k : ℕ) (q : BQueue) (h : Searching t i1 i2 q) (hn : work q < n) :
    t.slotSearchLoop (n + k) q = t.slotSearchLoop n q := by
  induction n generalizing q with
  | zero => exact absurd hn (Nat.not_lt_zero _)
  | succ n ih =>
    rw [Nat.add_right_comm]
    by_cases hfull : q.full = true
    · simp [slotSearchLoop, hfull]
    cases q with
    | nil => simp [slotSearchLoop]
    | cons x q =>
      simp only [slotSearchLoop, if_neg hfull]
      rcases expand_spec t x (List.range slotPerBucket) q with
        ⟨i, -, hnone, hfound⟩ | ⟨ys, hq, hch, hlen, hrest⟩
      · rw [hfound]
      · rw [hq]
        have hwork := work_visit (q := q) (h.depth_le x List.mem_cons_self) hch hlen
        rcases hrest with hfull' | hall
        · cases n <;> cases k <;> simp [slotSearchLoop, hfull']
        · exact ih (q ++ ys) (h.visit hch hall) (by omega)

/-- The bound the model puts on the search is never reached. -/
theorem slotSearch_eq (t : Table Key T) (i1 i2 k : ℕ) :
    t.slotSearchLoop (searchFuel + k) [⟨i1, 0, 0⟩, ⟨i2, 1, 0⟩] = t.slotSearch i1 i2 := by
  refine slotSearchLoop_add _ _ _ (searching_start t i1 i2) ?_
  show work [⟨0, 0, 0⟩, ⟨0, 1, 0⟩] < searchFuel
  decide

/-! ## The records of the path -/

/-- One record of a path follows another: its bucket is the alternate of the other's. -/
def Follows (hp : ℕ) (target source : CuckooRecord) : Prop :=
  target.bucket = altIndex hp source.hv.partialTag source.bucket ∧
    source.hv.partialTag = partialKey source.hv.hash

/-- The position of a record. -/
def recordPos (r : CuckooRecord) : Position := (r.bucket, r.slot)

section Records

variable {hash : Key → UInt64}

/-- The record has the hash of the entry in its slot. -/
def Sees (hash : Key → UInt64) (t : Table Key T) (r : CuckooRecord) : Prop :=
  ∃ e, t.cells (recordPos r) = some e ∧ r.hv = hashedKey hash e.key

/-- Whatever slots are taken, each record follows the one before, which has seen an entry. -/
lemma followPath_isChain (hash : Key → UInt64) (t : Table Key T) (l : List Slot) (b : ℕ) :
    List.IsChain (fun r r' => Sees hash t r ∧ Follows t.hashpower r' r)
      (t.followPath hash b l) ∧
    ∀ r ∈ (t.followPath hash b l).head?, r.bucket = b := by
  induction l generalizing b with
  | nil => exact ⟨.nil, fun r hr => by cases hr⟩
  | cons s l ih =>
    cases hb : t.buckets b s with
    | none =>
      simp only [followPath, hb]
      exact ⟨.singleton _, fun r hr => by cases hr; rfl⟩
    | some e =>
      simp only [followPath, hb]
      obtain ⟨hchain, hhead⟩ := ih (altIndex t.hashpower (hashedKey hash e.key).partialTag b)
      refine ⟨hchain.cons fun r hr => ⟨⟨e, hb, rfl⟩, hhead r hr, rfl⟩, fun r hr => ?_⟩
      cases hr
      rfl

/-- Along a path of the search the records see the entries the search saw. -/
lemma PathTo.followPath (hwf : t.WellFormed hash) {b c : ℕ} {l : List Slot} {x : BSlot}
    (h : PathTo t b c l x) (rest : List Slot) :
    ∃ rs, rs.length = l.length ∧ (∀ r ∈ rs, Sees hash t r) ∧
      t.followPath hash b (l ++ rest) = rs ++ t.followPath hash x.bucket rest := by
  induction h generalizing rest with
  | start => exact ⟨[], rfl, fun r hr => absurd hr List.not_mem_nil, rfl⟩
  | @step l x s e h he ih =>
    obtain ⟨rs, hlen, hsees, hpath⟩ := ih (s :: rest)
    have htag : (hashedKey hash e.key).partialTag = e.partialTag :=
      (hwf.home (x.bucket, s) e he).tag.symm
    refine ⟨rs ++ [⟨x.bucket, s, hashedKey hash e.key⟩], ?_, fun r hr => ?_, ?_⟩
    · rw [List.length_append, List.length_append, hlen]
      rfl
    · rcases List.mem_append.mp hr with hr | hr
      · exact hsees r hr
      · obtain rfl := List.mem_singleton.mp hr
        exact ⟨e, he, rfl⟩
    · rw [List.append_assoc, List.singleton_append, hpath, List.append_assoc]
      simp only [Table.followPath, he, htag]
      rfl

/-- A path along which entries can be moved: all records but the last one see an entry, the
slot of the last one is free, and no bucket occurs twice. -/
structure CuckooPath (hash : Key → UInt64) (t : Table Key T) (i1 i2 : ℕ)
    (rs : List CuckooRecord) (last : CuckooRecord) : Prop where
  sees : ∀ r ∈ rs, Sees hash t r
  free : t.cells (recordPos last) = none
  chain : List.IsChain (fun r r' => Follows t.hashpower r' r) (rs ++ [last])
  distinct : ((rs ++ [last]).map CuckooRecord.bucket).Nodup
  start : ∀ r ∈ (rs ++ [last]).head?, r.bucket = i1 ∨ r.bucket = i2

/-- The buckets of the records of a shortest path are a shortest walk. -/
lemma WellFormed.nodup_buckets (hwf : t.WellFormed hash) {rs : List CuckooRecord}
    {last : CuckooRecord} {d : ℕ}
    (hchain : List.IsChain (fun r r' => Sees hash t r ∧ Follows t.hashpower r' r) (rs ++ [last]))
    (hstart : ∀ r ∈ (rs ++ [last]).head?, r.bucket = i1 ∨ r.bucket = i2)
    (hlength : (rs ++ [last]).length = d + 1) (hfree : t.cells (recordPos last) = none)
    (hnearest : ∀ b k, (b = i1 ∨ b = i2) → k < d → ∀ b', Walk (Step t) k b b' → Full t b') :
    ((rs ++ [last]).map CuckooRecord.bucket).Nodup := by
  have hsteps : List.IsChain (Step t) ((rs ++ [last]).map CuckooRecord.bucket) := by
    refine List.isChain_map_of_isChain _ (fun r r' h => ?_) hchain
    obtain ⟨⟨e, he, hv⟩, hfollows, -⟩ := h
    refine ⟨r.slot, e, he, ?_⟩
    rw [hfollows, hv]
    exact congrArg (altIndex t.hashpower · r.bucket) (hwf.home _ e he).tag.symm
  have hend : ((rs ++ [last]).map CuckooRecord.bucket).getLast? = some last.bucket := by
    rw [List.map_append, List.map_singleton, List.getLast?_concat]
  cases hl : rs ++ [last] with
  | nil => exact absurd hl (by simp)
  | cons r l =>
    rw [hl] at hsteps hend hstart hlength
    rw [List.map_cons] at hsteps hend ⊢
    rw [List.getLast?_eq_some_getLast (List.cons_ne_nil _ _)] at hend
    rw [List.length_cons] at hlength
    have hnear : ∀ k < (l.map CuckooRecord.bucket).length, ∀ b', Walk (Step t) k r.bucket b' →
        Full t b' := fun k hk b' hw => by
      rw [List.length_map] at hk
      exact hnearest r.bucket k (hstart r rfl) (by omega) b' hw
    refine nodup_of_shortest hsteps hnear ?_
    rw [Option.some.inj hend]
    exact fun h => h last.slot hfree

/-- What `cuckoopath_search` finds can be moved along. -/
theorem WellFormed.cuckoopathSearch_spec (hwf : t.WellFormed hash) {y : BSlot}
    (hy : t.slotSearch i1 i2 = some y) :
    ∃ rs last, t.cuckoopathSearch hash i1 i2 = some (rs ++ [last]) ∧
      CuckooPath hash t i1 i2 rs last := by
  obtain ⟨c, l, x, s, hshort, rfl⟩ := slotSearchLoop_spec _ _ (searching_start t i1 i2) y hy
  obtain ⟨rs, hlen, hsees, hpath⟩ := hshort.path.followPath hwf [s]
  have hlast : t.followPath hash x.bucket [s] = [⟨x.bucket, s, ⟨0, 0⟩⟩] := by
    simp only [followPath, hshort.free]
  rw [hlast] at hpath
  obtain ⟨hchain, hhead⟩ := followPath_isChain hash t (l ++ [s]) (startBucket i1 i2 c)
  rw [hpath] at hchain hhead
  have hlength : (rs ++ [(⟨x.bucket, s, ⟨0, 0⟩⟩ : CuckooRecord)]).length = x.depth + 1 := by
    rw [List.length_append, hlen, hshort.path.length]
    rfl
  have hstart : ∀ r ∈ (rs ++ [(⟨x.bucket, s, ⟨0, 0⟩⟩ : CuckooRecord)]).head?,
      r.bucket = i1 ∨ r.bucket = i2 := fun r hr => by
    rw [hhead r hr]
    exact startBucket_eq i1 i2 c
  refine ⟨rs, ⟨x.bucket, s, ⟨0, 0⟩⟩, ?_, hsees, hshort.free, hchain.imp fun _ _ h => h.2,
    hwf.nodup_buckets hchain hstart hlength hshort.free hshort.nearest, hstart⟩
  have hcode : pathSlots (x.depth + 1) (x.pathcode * slotPerBucket + s) [] = (l ++ [s], c) := by
    rw [pathSlots_succ, hshort.path.pathSlots]
  simp only [cuckoopathSearch, hy, hcode]
  exact congrArg some hpath

end Records

end Table

end Jakilid.Cuckoo
