import Jakilid.Cuckoo.DoubleTheorems
import Jakilid.Cuckoo.SearchTheorems

/-!
# Insertion keeps the entries

Making room for a new key relocates entries to their alternate buckets and doubles the table.
Neither changes which entries there are, nor any counter (`Reorganised`). On top of that,
`upsert` does to the contents of the table what its description says
(`WellFormed.upsert_spec`).
-/

namespace Jakilid.Cuckoo

open CellStore

namespace Table

variable {Key T : Type} {hash : Key → UInt64}

/-- `t'` is a well-formed table with the entries and the counters of `t`. -/
structure Reorganised (hash : Key → UInt64) (t t' : Table Key T) : Prop where
  wellFormed : t'.WellFormed hash
  rearranged : Rearranges (fun _ => ()) t.cells t'.cells
  counters : t'.elemCounter = t.elemCounter

namespace Reorganised

variable {t t' t'' : Table Key T}

lemma refl (h : t.WellFormed hash) : Reorganised hash t t := ⟨h, Rearranges.refl _ _, rfl⟩

lemma trans (h : Reorganised hash t t') (h' : Reorganised hash t' t'') :
    Reorganised hash t t'' :=
  ⟨h'.wellFormed, h.rearranged.trans h'.rearranged, h'.counters.trans h.counters⟩

lemma holds_iff (h : Reorganised hash t t') (e : Entry Key T) :
    Holds t'.cells e ↔ Holds t.cells e :=
  h.rearranged.holds_iff e

end Reorganised

/-- Doubling is a reorganisation. -/
lemma WellFormed.reorganised_double {alloc : Allocator} {t t' : Table Key T}
    (h : t.WellFormed hash) (hdouble : t.cuckooFastDouble hash alloc = .ok t') :
    Reorganised hash t t' := by
  obtain ⟨hwf, hrearr, hcount, -⟩ := h.cuckooFastDouble hdouble
  exact ⟨hwf, hrearr.coarsen fun _ => (), hcount⟩

/-! ## Moving entries along a path -/

/-- An entry may be moved to the alternate of its bucket. -/
lemma WellFormed.moveToBucket {t : Table Key T} (h : t.WellFormed hash) {p q : Position}
    {e : Entry Key T} (hp : t.cells p = some e) (hq : t.cells q = none)
    (hhome : Home hash t.hashpower e q.1) : Reorganised hash t (t.moveToBucket p q) := by
  have hrearr : Rearranges (fun _ => ()) t.cells (t.moveToBucket p q).cells := by
    rw [cells_moveToBucket]
    exact rearranges_move hq rfl
  refine ⟨⟨?_, hrearr.distinct h.distinct, ?_, h.minHashpower, h.fits⟩, hrearr, rfl⟩
  · intro r f hr
    rw [cells_moveToBucket] at hr
    have hrp : r ≠ p := by
      rintro rfl
      rw [Function.update_self] at hr
      cases hr
    rw [Function.update_of_ne hrp] at hr
    by_cases hrq : r = q
    · rw [hrq, Function.update_self, hp] at hr
      obtain rfl := Option.some.inj hr
      rw [hrq]
      exact hhome
    · rw [Function.update_of_ne hrq] at hr
      exact h.home r f hr
  · rw [size_congr (elemCounter_moveToBucket t p q), h.counted, card_eq_of_rearranges hrearr]

/-- The entry at a record is at home in the bucket of the record that follows. -/
lemma Home.follow {hp : ℕ} {e : Entry Key T} {target source : CuckooRecord}
    (h : Home hash hp e source.bucket) (hlink : Follows hp target source)
    (hhash : hash e.key = source.hv.hash) : Home hash hp e target.bucket := by
  refine ⟨h.tag, ?_⟩
  have htag : (hashedKey hash e.key).partialTag = source.hv.partialTag := by
    rw [hlink.2, ← hhash]
    rfl
  rw [hlink.1, ← htag]
  exact h.candidate.altIndex

/-- A record sees the same entry after a move between other positions. -/
lemma Sees.moveToBucket {t : Table Key T} {r : CuckooRecord} (h : Sees hash t r)
    {p q : Position} (hp : recordPos r ≠ p) (hq : recordPos r ≠ q) :
    Sees hash (t.moveToBucket p q) r := by
  obtain ⟨e, he, hv⟩ := h
  refine ⟨e, ?_, hv⟩
  rw [cells_moveToBucket, Function.update_of_ne hp, Function.update_of_ne hq]
  exact he

/-- `t'` has one entry less under the lock `first` and one more under the lock `last` than
`t`. -/
def Shifted (t t' : Table Key T) (first last : ℕ) : Prop :=
  ∀ l, count lockOf t'.cells l + (if first = l then 1 else 0)
    = count lockOf t.cells l + if last = l then 1 else 0

/-- The loop of `cuckoopath_move` goes through to the first record of the path, which is the
last one of the list, and leaves its position free. -/
lemma WellFormed.moveAlong_spec (rest : List CuckooRecord) :
    ∀ (t : Table Key T) (r : CuckooRecord), t.WellFormed hash →
      List.IsChain (Follows t.hashpower) (r :: rest) →
      ((r :: rest).map recordPos).Nodup → (∀ s ∈ rest, Sees hash t s) →
      t.cells (recordPos r) = none →
      ∃ t', t.moveAlong hash (r :: rest) = (t', true) ∧ Reorganised hash t t' ∧
        t'.hashpower = t.hashpower ∧
        t'.cells (recordPos ((r :: rest).getLast (List.cons_ne_nil r rest))) = none ∧
        Shifted t t' (lockInd ((r :: rest).getLast (List.cons_ne_nil r rest)).bucket)
          (lockInd r.bucket) := by
  induction rest with
  | nil => exact fun t r h _ _ _ hr => ⟨t, rfl, .refl h, rfl, hr, fun l => rfl⟩
  | cons source rest ih =>
    intro t target h hchain hnodup hsees htarget
    rw [List.isChain_cons_cons] at hchain
    obtain ⟨htargets, hsources⟩ := List.nodup_cons.mp hnodup
    obtain ⟨e, he, hv⟩ := hsees source List.mem_cons_self
    have hhash : hash e.key = source.hv.hash := by rw [hv]; rfl
    have hstep := h.moveToBucket he htarget ((h.home (recordPos source) e he).follow hchain.1 hhash)
    -- the moved entry is in nobody's way, since no position occurs twice
    obtain ⟨t', hmove, hrec, hhp, hfree, hshift⟩ := ih _ source hstep.wellFormed hchain.2 hsources
      (fun s hs => (hsees s (List.mem_cons_of_mem _ hs)).moveToBucket
        (fun heq => (List.nodup_cons.mp hsources).1 (heq ▸ List.mem_map_of_mem hs))
        (fun heq => htargets (heq ▸ List.mem_map_of_mem (List.mem_cons_of_mem _ hs))))
      (by rw [cells_moveToBucket]; exact Function.update_self ..)
    refine ⟨t', ?_, hstep.trans hrec, hhp, hfree, fun l => ?_⟩
    · rw [moveAlong]
      have he' : t.buckets source.bucket source.slot = some e := he
      have htarget' : t.buckets target.bucket target.slot = none := htarget
      simp only [he', htarget', hhash, if_true]
      exact hmove
    · have hmoved := count_move lockOf h.finite he htarget l
      rw [← cells_moveToBucket] at hmoved
      exact (hshift l).trans hmoved

/-- `cuckoopath_move` succeeds on what `cuckoopath_search` finds. -/
lemma WellFormed.cuckoopathMove_spec {t : Table Key T} (h : t.WellFormed hash) {i1 i2 : ℕ}
    {rs : List CuckooRecord} {last : CuckooRecord} (hpath : CuckooPath hash t i1 i2 rs last) :
    ∃ first l t', rs ++ [last] = first :: l ∧
      t.cuckoopathMove hash (rs ++ [last]) = (t', true) ∧ Reorganised hash t t' ∧
      t'.hashpower = t.hashpower ∧ t'.cells (recordPos first) = none ∧
      Shifted t t' (lockInd first.bucket) (lockInd last.bucket) ∧
      (first.bucket = i1 ∨ first.bucket = i2) := by
  cases rs with
  | nil =>
    refine ⟨last, [], t, rfl, ?_, .refl h, rfl, hpath.free, fun l => rfl, hpath.start last rfl⟩
    have hfree : t.buckets last.bucket last.slot = none := hpath.free
    simp [cuckoopathMove, hfree]
  | cons first rs =>
    have hreverse : (first :: rs ++ [last]).reverse = last :: (first :: rs).reverse := by
      rw [List.reverse_append]
      rfl
    have hchain : List.IsChain (Follows t.hashpower) (last :: (first :: rs).reverse) := by
      rw [← hreverse, List.isChain_reverse]
      exact hpath.chain
    have hnodup : ((last :: (first :: rs).reverse).map recordPos).Nodup := by
      have hbuckets := List.nodup_reverse.mpr hpath.distinct
      rw [← List.map_reverse, hreverse] at hbuckets
      refine List.Nodup.of_map Prod.fst ?_
      rw [List.map_map]
      exact hbuckets
    obtain ⟨t', hmove, hrec, hhp, hfree, hshift⟩ := h.moveAlong_spec (first :: rs).reverse t last hchain
      hnodup (fun s hs => hpath.sees s (List.mem_reverse.mp hs)) hpath.free
    have hlast : (last :: (first :: rs).reverse).getLast (List.cons_ne_nil _ _) = first := by
      simp
    rw [hlast] at hfree hshift
    refine ⟨first, rs ++ [last], t', rfl, ?_, hrec, hhp, hfree, hshift, hpath.start first rfl⟩
    rw [cuckoopathMove, hreverse, hmove]
    intro only heq
    have := congrArg List.length heq
    simp at this

/-- The locks of the first and the last bucket of a path. -/
def pathEnds : List CuckooRecord → Option (ℕ × ℕ)
  | [] => none
  | first :: rest =>
    some (lockInd first.bucket, lockInd ((first :: rest).getLast (List.cons_ne_nil _ _)).bucket)

/-- `run_cuckoo` does not go round its loop: it fails when there is no path, and otherwise
frees a slot in one of the two buckets. -/
theorem WellFormed.runCuckoo_spec {t : Table Key T} (h : t.WellFormed hash) (i1 i2 fuel : ℕ) :
    (t.cuckoopathSearch hash i1 i2 = none ∧
      t.runCuckoo hash i1 i2 (fuel + 1) = (t, .failure)) ∨
    ∃ path a b t' p, t.cuckoopathSearch hash i1 i2 = some path ∧ pathEnds path = some (a, b) ∧
      t.runCuckoo hash i1 i2 (fuel + 1) = (t', .ok p) ∧ Reorganised hash t t' ∧
      t'.hashpower = t.hashpower ∧ t'.cells p = none ∧ Shifted t t' a b ∧
      (p.1 = i1 ∨ p.1 = i2) := by
  cases hsearch : t.slotSearch i1 i2 with
  | none =>
    have hnone : t.cuckoopathSearch hash i1 i2 = none := by simp [cuckoopathSearch, hsearch]
    exact .inl ⟨hnone, by rw [runCuckoo, hnone]⟩
  | some y =>
    obtain ⟨rs, last, hpath, hmovable⟩ := h.cuckoopathSearch_spec hsearch
    obtain ⟨first, l, t', hl, hmove, hrec, hhp, hfree, hshift, hfirst⟩ :=
      h.cuckoopathMove_spec hmovable
    have hlast : (first :: l).getLast (List.cons_ne_nil _ _) = last := by
      simp only [← hl, List.getLast_concat]
    refine .inr ⟨first :: l, lockInd first.bucket, lockInd last.bucket, t', recordPos first,
      by rw [hpath, hl], by rw [pathEnds, hlast], ?_, hrec, hhp, hfree, hshift, hfirst⟩
    rw [hl] at hpath hmove
    rw [runCuckoo, hpath]
    simp only [hmove]
    rfl

/-! ## Finding a place -/

/-- The table has no entry with the key. -/
def Absent (t : Table Key T) (key : Key) : Prop := ∀ e, Holds t.cells e → e.key ≠ key

lemma Reorganised.absent {t t' : Table Key T} (h : Reorganised hash t t') {key : Key} :
    Absent t' key ↔ Absent t key :=
  forall_congr' fun e => by rw [h.holds_iff e]

/-- A key that is in neither of its buckets is not in the table. -/
lemma WellFormed.absent_of_buckets {t : Table Key T} (h : t.WellFormed hash) {key : Key}
    (hno : ∀ b, Candidate t.hashpower (hashedKey hash key) b → ∀ s e, t.buckets b s = some e →
      ¬ (partialKey (hash key) = e.partialTag ∧ e.key = key)) : Absent t key := by
  rintro e ⟨p, hp⟩ rfl
  have hhome := h.home p e hp
  exact hno p.1 hhome.candidate p.2 e hp ⟨hhome.tag.symm, rfl⟩

/-- What `cuckoo_insert_loop` does: it ends with a free place for an absent key, with the place
of the key, or with an exception of the doubling. -/
inductive Placed (hash : Key → UInt64) (t : Table Key T) (key : Key) :
    Table Key T × Except Exn (Position × Bool) → Prop
  | free {t' : Table Key T} {p : Position} (hrec : Reorganised hash t t')
      (hp : t'.cells p = none) (hcand : Candidate t'.hashpower (hashedKey hash key) p.1)
      (habs : Absent t key) : Placed hash t key (t', .ok (p, false))
  | found {t' : Table Key T} {p : Position} {e : Entry Key T} (hrec : Reorganised hash t t')
      (hp : t'.cells p = some e) (hk : e.key = key) : Placed hash t key (t', .ok (p, true))
  | failed {t' : Table Key T} {x : Exn} (hrec : Reorganised hash t t') (habs : Absent t key)
      (hx : x ≠ .diverges) : Placed hash t key (t', .error x)

lemma Placed.of_reorganised {t t' : Table Key T} {key : Key}
    {r : Table Key T × Except Exn (Position × Bool)} (h : Reorganised hash t t')
    (hr : Placed hash t' key r) : Placed hash t key r := by
  cases hr with
  | free hrec hp hcand habs => exact .free (h.trans hrec) hp hcand (h.absent.mp habs)
  | found hrec hp hk => exact .found (h.trans hrec) hp hk
  | failed hrec habs hx => exact .failed (h.trans hrec) (h.absent.mp habs) hx

/-- A table of hashpower 29 has more buckets than the segment has bytes, so the loop doubles
the table less than 29 times. -/
lemma WellFormed.hashpower_lt {t : Table Key T} (h : t.WellFormed hash) : t.hashpower < 29 := by
  by_contra hge
  have hle : hashsize 29 ≤ hashsize t.hashpower := by
    rw [hashsize_eq, hashsize_eq]
    exact Nat.pow_le_pow_right (by decide) (Nat.le_of_not_lt hge)
  exact absurd (hle.trans h.fits) (by decide)

section Insert

variable [DecidableEq Key]

/-- What `try_find_insert_bucket` says about a bucket. -/
inductive Probed (b : Bucket Key T) (tag : UInt8) (key : Key) : Probe → Prop
  | duplicate {s : Slot} {e : Entry Key T} (he : b s = some e) (hk : e.key = key) :
      Probed b tag key (.duplicate s)
  | room {s : Slot} (hs : b s = none)
      (hno : ∀ s e, b s = some e → ¬ (tag = e.partialTag ∧ e.key = key)) :
      Probed b tag key (.room (some s))
  | full (hs : ∀ s, b s ≠ none)
      (hno : ∀ s e, b s = some e → ¬ (tag = e.partialTag ∧ e.key = key)) :
      Probed b tag key (.room none)

lemma probeFrom_spec (b : Bucket Key T) (tag : UInt8) (key : Key) (is : List Slot)
    (slot : Option Slot) (hslot : ∀ s ∈ slot, b s = none)
    (hseen : ∀ s, s ∉ is → (slot = none → b s ≠ none) ∧
      ∀ e, b s = some e → ¬ (tag = e.partialTag ∧ e.key = key)) :
    Probed b tag key (probeFrom b tag key is slot) := by
  induction is generalizing slot with
  | nil =>
    have hno : ∀ s e, b s = some e → ¬ (tag = e.partialTag ∧ e.key = key) :=
      fun s => (hseen s List.not_mem_nil).2
    cases slot with
    | none => exact .full (fun s => (hseen s List.not_mem_nil).1 rfl) hno
    | some s => exact .room (hslot s rfl) hno
  | cons i is ih =>
    cases hb : b i with
    | none =>
      simp only [probeFrom, hb]
      refine ih (some i) (fun s hs => by rwa [← Option.some.inj hs]) fun s hs => ?_
      refine ⟨nofun, fun e he => ?_⟩
      by_cases hsi : s = i
      · rw [hsi, hb] at he
        cases he
      · exact (hseen s (List.not_mem_cons_of_ne_of_not_mem hsi hs)).2 e he
    | some e =>
      by_cases hk : tag = e.partialTag ∧ e.key = key
      · simp only [probeFrom, hb, if_pos hk]
        exact .duplicate hb hk.2
      · simp only [probeFrom, hb, if_neg hk]
        refine ih slot hslot fun s hs => ?_
        by_cases hsi : s = i
        · rw [hsi, hb]
          exact ⟨fun _ => Option.some_ne_none e, fun f hf => by rwa [← Option.some.inj hf]⟩
        · exact hseen s (List.not_mem_cons_of_ne_of_not_mem hsi hs)

lemma tryFindInsertBucket_spec (b : Bucket Key T) (tag : UInt8) (key : Key) :
    Probed b tag key (tryFindInsertBucket b tag key) :=
  probeFrom_spec b tag key slots none (fun s hs => by cases hs)
    fun s hs => absurd (mem_slots s) hs

/-- Neither bucket of the key has room for it, and none has the key: the insertion has to make
room. -/
def crowded (hash : Key → UInt64) (t : Table Key T) (key : Key) : Bool :=
  let b := t.bucketIndices (hashedKey hash key)
  match tryFindInsertBucket (t.buckets b.1) (partialKey (hash key)) key,
    tryFindInsertBucket (t.buckets b.2) (partialKey (hash key)) key with
  | .room none, .room none => true
  | _, _ => false

/-- The path search for the two buckets of the key. -/
def pathFor (hash : Key → UInt64) (t : Table Key T) (key : Key) : Option (List CuckooRecord) :=
  let b := t.bucketIndices (hashedKey hash key)
  t.cuckoopathSearch hash b.1 b.2

/-- What `cuckoo_insert` does. -/
inductive CuckooInserted (hash : Key → UInt64) (t : Table Key T) (key : Key) :
    Table Key T × InsertStatus → Prop
  | room {p : Position} (hcrowded : crowded hash t key = false) (hp : t.cells p = none)
      (hcand : Candidate t.hashpower (hashedKey hash key) p.1) (habs : Absent t key) :
      CuckooInserted hash t key (t, .ok p)
  | relocated {t' : Table Key T} {p : Position} {path : List CuckooRecord} {a b : ℕ}
      (hcrowded : crowded hash t key = true) (hpath : pathFor hash t key = some path)
      (hends : pathEnds path = some (a, b)) (hrec : Reorganised hash t t')
      (hhp : t'.hashpower = t.hashpower) (hp : t'.cells p = none) (hshift : Shifted t t' a b)
      (hcand : Candidate t.hashpower (hashedKey hash key) p.1) (habs : Absent t key) :
      CuckooInserted hash t key (t', .ok p)
  | duplicate {p : Position} {e : Entry Key T} (hcrowded : crowded hash t key = false)
      (hp : t.cells p = some e) (hk : e.key = key) :
      CuckooInserted hash t key (t, .keyDuplicated p)
  | full (hcrowded : crowded hash t key = true) (hpath : pathFor hash t key = none)
      (habs : Absent t key) : CuckooInserted hash t key (t, .tableFull)

theorem WellFormed.cuckooInsert_spec {t : Table Key T} (h : t.WellFormed hash) (key : Key) :
    CuckooInserted hash t key (t.cuckooInsert hash key (partialKey (hash key))
      (t.bucketIndices (hashedKey hash key)).1 (t.bucketIndices (hashedKey hash key)).2) := by
  set i1 := (t.bucketIndices (hashedKey hash key)).1 with hi1
  set i2 := (t.bucketIndices (hashedKey hash key)).2 with hi2
  have hcrowded : crowded hash t key =
      match tryFindInsertBucket (t.buckets i1) (partialKey (hash key)) key,
        tryFindInsertBucket (t.buckets i2) (partialKey (hash key)) key with
      | .room none, .room none => true
      | _, _ => false := rfl
  have habsent : (∀ s e, t.buckets i1 s = some e →
        ¬ (partialKey (hash key) = e.partialTag ∧ e.key = key)) →
      (∀ s e, t.buckets i2 s = some e →
        ¬ (partialKey (hash key) = e.partialTag ∧ e.key = key)) → Absent t key := by
    intro h1 h2
    refine h.absent_of_buckets fun b hb => ?_
    rcases hb with rfl | rfl
    · exact h1
    · exact h2
  rw [cuckooInsert]
  have hprobe1 := tryFindInsertBucket_spec (t.buckets i1) (partialKey (hash key)) key
  have hprobe2 := tryFindInsertBucket_spec (t.buckets i2) (partialKey (hash key)) key
  generalize tryFindInsertBucket (t.buckets i1) (partialKey (hash key)) key = res1
    at hprobe1 hcrowded ⊢
  generalize tryFindInsertBucket (t.buckets i2) (partialKey (hash key)) key = res2
    at hprobe2 hcrowded ⊢
  cases hprobe1 with
  | @duplicate s e he hk => exact .duplicate (p := (i1, s)) hcrowded he hk
  | @room s hs hno1 =>
    cases hprobe2 with
    | @duplicate s e he hk => exact .duplicate (p := (i2, s)) hcrowded he hk
    | room _ hno2 => exact .room (p := (i1, s)) hcrowded hs (.inl rfl) (habsent hno1 hno2)
    | full _ hno2 => exact .room (p := (i1, s)) hcrowded hs (.inl rfl) (habsent hno1 hno2)
  | full hfull1 hno1 =>
    cases hprobe2 with
    | @duplicate s e he hk => exact .duplicate (p := (i2, s)) hcrowded he hk
    | @room s hs hno2 => exact .room (p := (i2, s)) hcrowded hs (.inr rfl) (habsent hno1 hno2)
    | full hfull2 hno2 =>
      have habs := habsent hno1 hno2
      rcases h.runCuckoo_spec i1 i2 1 with
        ⟨hnone, hrun⟩ | ⟨path, a, b, t', p, hpath, hends, hrun, hrec, hhp, hp, hshift, hp1⟩
      · simp only [cuckooFuel, hrun]
        exact .full hcrowded hnone habs
      · have hfind : t'.cuckooFind key (partialKey (hash key)) i1 i2 = none := by
          cases hfind : t'.cuckooFind key (partialKey (hash key)) i1 i2 with
          | none => rfl
          | some q =>
            obtain ⟨e, he, hk⟩ := cuckooFind_eq_some hfind
            exact absurd hk (hrec.absent.mpr habs e (holds_of_eq he))
        simp only [cuckooFuel, hrun, hfind]
        exact .relocated hcrowded hpath hends hrec hhp hp hshift hp1 habs

/-! ## The loop -/

theorem WellFormed.cuckooInsertLoop_spec (alloc : Allocator) (key : Key) (fuel : ℕ) :
    ∀ t : Table Key T, t.WellFormed hash → 29 ≤ fuel + t.hashpower →
      Placed hash t key (cuckooInsertLoop hash alloc key fuel t) := by
  induction fuel with
  | zero =>
    intro t h hfuel
    have := h.hashpower_lt
    omega
  | succ fuel ih =>
    intro t h hfuel
    have hins := h.cuckooInsert_spec key
    rw [cuckooInsertLoop]
    simp only [show (hashedKey hash key).partialTag = partialKey (hash key) from rfl]
    generalize t.cuckooInsert hash key (partialKey (hash key))
      (t.bucketIndices (hashedKey hash key)).1 (t.bucketIndices (hashedKey hash key)).2 = r
      at hins ⊢
    cases hins with
    | room _ hp hcand habs => exact .free (.refl h) hp hcand habs
    | relocated _ _ _ hrec hhp hp _ hcand habs => exact .free hrec hp (by rwa [hhp]) habs
    | duplicate _ hp hk => exact .found (.refl h) hp hk
    | full _ _ habs =>
      cases hdouble : t.cuckooFastDouble hash alloc with
      | error x =>
        simp only [hdouble]
        refine .failed (.refl h) habs ?_
        rcases cuckooFastDouble_eq_error hdouble with rfl | rfl
        · exact nofun
        · exact nofun
      | ok t' =>
        simp only [hdouble]
        obtain ⟨hwf, -, -, hhp⟩ := h.cuckooFastDouble hdouble
        exact .of_reorganised (h.reorganised_double hdouble) (ih t' hwf (by omega))

/-! ## `upsert` -/

/-- What `upsert` does to a dictionary with the contents `f`: the contents afterwards and the
result. -/
inductive Upserted (f : Key → Option T) (key : Key) (fn : T → Except Exn T) (val : T) :
    (Key → Option T) → Except Exn Bool → Prop
  | inserted (h : f key = none) :
      Upserted f key fn val (Function.update f key (some val)) (.ok true)
  | updated {v v' : T} (h : f key = some v) (hfn : fn v = .ok v') :
      Upserted f key fn val (Function.update f key (some v')) (.ok false)
  | thrown {v : T} {x : Exn} (h : f key = some v) (hfn : fn v = .error x) :
      Upserted f key fn val f (.error x)
  | failed {x : Exn} (h : f key = none) (hx : x ≠ .diverges) :
      Upserted f key fn val f (.error x)

/-- A table with one more entry finds its value under the new key. -/
lemma WellFormed.find_of_holds {t t' : Table Key T} (h : t.WellFormed hash)
    (h' : t'.WellFormed hash) {e : Entry Key T}
    (hholds : ∀ f, Holds t'.cells f ↔ f = e ∨ Holds t.cells f ∧ f.key ≠ e.key) :
    t'.find hash = Function.update (t.find hash) e.key (some e.val) := by
  funext k
  rw [Function.update_apply]
  apply Option.ext
  intro v
  split
  · next hk =>
    rw [hk, h'.find_eq_some_iff, Option.some.injEq]
    constructor
    · rintro ⟨f, hf, hkey, rfl⟩
      rcases (hholds f).mp hf with rfl | ⟨-, hne⟩
      · rfl
      · exact absurd hkey hne
    · rintro rfl
      exact ⟨e, (hholds e).mpr (.inl rfl), rfl, rfl⟩
  · next hk =>
    rw [h'.find_eq_some_iff, h.find_eq_some_iff]
    constructor
    · rintro ⟨f, hf, rfl, hv⟩
      rcases (hholds f).mp hf with rfl | ⟨hf, -⟩
      · exact absurd rfl hk
      · exact ⟨f, hf, rfl, hv⟩
    · rintro ⟨f, hf, rfl, hv⟩
      exact ⟨f, (hholds f).mpr (.inr ⟨hf, hk⟩), rfl, hv⟩

/-- `upsert` keeps the table well formed and does what its description says. -/
theorem WellFormed.upsert_spec {t : Table Key T} (h : t.WellFormed hash) (alloc : Allocator)
    (key : Key) (fn : T → Except Exn T) (val : T) :
    (t.upsert hash alloc key fn val).1.WellFormed hash ∧
      Upserted (t.find hash) key fn val ((t.upsert hash alloc key fn val).1.find hash)
        (t.upsert hash alloc key fn val).2 := by
  have hplaced := cuckooInsertLoop_spec alloc key doublingFuel t h
    (Nat.le_add_right_of_le (by decide))
  rw [upsert]
  generalize cuckooInsertLoop hash alloc key doublingFuel t = r at hplaced ⊢
  cases hplaced with
  | @free t' p hrec hp hcand habs =>
    have hnone : t.find hash key = none := (h.find_eq_none_iff key).mpr habs
    set e : Entry Key T := ⟨partialKey (hash key), key, val⟩ with he
    have habs' : ∀ f, Holds t'.cells f → f.key ≠ e.key := hrec.absent.mpr habs
    have hwf : (t'.addToBucket p e).WellFormed hash :=
      hrec.wellFormed.addToBucket hp ⟨rfl, hcand⟩ habs'
    refine ⟨hwf, ?_⟩
    rw [h.find_of_holds hwf (e := e) fun f => ?_]
    · exact .inserted hnone
    · rw [Table.addToBucket, cells_incCounter, cells_setSlot, holds_update_some hp, hrec.holds_iff]
      exact or_congr_right ⟨fun hf => ⟨hf, habs f hf⟩, fun hf => hf.1⟩
  | @found t' p e hrec hp hk =>
    subst hk
    have hsome : t.find hash e.key = some e.val :=
      (h.find_eq_some_iff _ _).mpr ⟨e, (hrec.holds_iff e).mp (holds_of_eq hp), rfl, rfl⟩
    have hsame : t'.find hash = t.find hash := find_congr h hrec.wellFormed hrec.holds_iff
    simp only [hp]
    cases hfn : fn e.val with
    | error x =>
      refine ⟨hrec.wellFormed, ?_⟩
      simp only [hsame]
      exact .thrown hsome hfn
    | ok v =>
      have hwf := hrec.wellFormed.setVal hp v
      refine ⟨hwf, ?_⟩
      simp only
      rw [h.find_of_holds hwf (e := { e with val := v }) fun f => ?_]
      · exact .updated hsome hfn
      · have hkey : ({ e with val := v } : Entry Key T).key = e.key := rfl
        rw [cells_setSlot, holds_replace hrec.wellFormed.distinct hp hkey, hrec.holds_iff]
  | @failed t' x hrec habs hx =>
    refine ⟨hrec.wellFormed, ?_⟩
    simp only [find_congr h hrec.wellFormed hrec.holds_iff]
    exact .failed ((h.find_eq_none_iff key).mpr habs) hx

end Insert

end Table

end Jakilid.Cuckoo
