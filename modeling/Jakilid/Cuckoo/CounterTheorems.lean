import Jakilid.Cuckoo.InsertTheorems

/-!
# The counters of the locks

`add_to_bucket`, `del_from_bucket` and `move_buckets` count an entry under the lock of its
bucket; `cuckoopath_move` moves entries between buckets and leaves the counters alone. The
`drift` of a lock is by how much its counter differs from the number of entries it guards. Only
a relocation changes it: by one up at the lock where the path starts, by one down at the lock
where it ends (`drift_upsert`).

All counters add up to the number of entries anyway, so `size()` is right, but `empty()` is
right only as long as there are entries or no lock has a drift (`WellFormed.empty_iff`).
-/

namespace Jakilid.Cuckoo

open CellStore

namespace Table

variable {Key T : Type} {hash : Key → UInt64}

/-- The counter of a lock, less the entries in its buckets. -/
noncomputable def drift (t : Table Key T) (l : ℕ) : BitVec 64 :=
  t.elemCounter l - BitVec.ofNat 64 (count lockOf t.cells l)

/-- What the relocation along a path with these ends does to the drift of a lock. -/
def shift : Option (ℕ × ℕ) → ℕ → BitVec 64
  | none, _ => 0
  | some (a, b), l => (if a = l then 1 else 0) - (if b = l then 1 else 0)

/-! ## Changes of the drift -/

lemma drift_create (n l : ℕ) : (create n : Table Key T).drift l = 0 := by
  have hcount : count lockOf (create n : Table Key T).cells l = 0 := by
    simp [count, cells_create]
  rw [drift, hcount]
  exact sub_self _

lemma drift_of_rearranges {t t' : Table Key T} (h : Rearranges lockOf t.cells t'.cells)
    (hcounters : t'.elemCounter = t.elemCounter) : t'.drift = t.drift := by
  funext l
  rw [drift, drift, h.count_eq, hcounters]

lemma drift_of_shifted {t t' : Table Key T} {a b : ℕ} (h : Shifted t t' a b)
    (hcounters : t'.elemCounter = t.elemCounter) (l : ℕ) :
    t'.drift l = t.drift l + shift (some (a, b)) l := by
  have hone : ∀ i : ℕ, BitVec.ofNat 64 (if i = l then 1 else 0) = if i = l then 1 else 0 :=
    fun i => apply_ite (BitVec.ofNat 64) _ _ _
  have hcount := congrArg (BitVec.ofNat 64) (h l)
  rw [BitVec.ofNat_add, BitVec.ofNat_add, hone, hone] at hcount
  rw [drift, drift, hcounters, shift, eq_sub_of_add_eq hcount]
  ring

/-- The counter of the lock of a new entry goes up. -/
lemma WellFormed.drift_addToBucket {t : Table Key T} (h : t.WellFormed hash) {p : Position}
    (hp : t.cells p = none) (e : Entry Key T) : (t.addToBucket p e).drift = t.drift := by
  funext l
  have hcount := congrArg (BitVec.ofNat 64) (count_update_some (e := e) lockOf h.finite hp l)
  rw [BitVec.ofNat_add] at hcount
  rw [drift, drift, Table.addToBucket, cells_incCounter, cells_setSlot, hcount]
  by_cases hl : lockOf p = l
  · subst hl
    simp [incCounter, lockOf]
  · have hl' : l ≠ lockInd p.1 := fun h => hl h.symm
    simp [incCounter, hl, Function.update_of_ne hl']

/-- The counter of the lock of a deleted entry goes down. -/
lemma WellFormed.drift_delFromBucket {t : Table Key T} (h : t.WellFormed hash) {p : Position}
    (hp : t.cells p ≠ none) : (t.delFromBucket p).drift = t.drift := by
  funext l
  have hcount := congrArg (BitVec.ofNat 64) (count_update_none lockOf h.finite hp l)
  rw [BitVec.ofNat_add] at hcount
  rw [drift, drift, Table.delFromBucket, cells_decCounter, cells_setSlot,
    eq_sub_of_add_eq hcount]
  by_cases hl : lockOf p = l
  · subst hl
    simp [decCounter, lockOf]
  · have hl' : l ≠ lockInd p.1 := fun h => hl h.symm
    simp [decCounter, hl, Function.update_of_ne hl']

lemma drift_setVal {t : Table Key T} {p : Position} {e : Entry Key T}
    (hp : t.cells p = some e) (v : T) :
    (t.setSlot p (some { e with val := v })).drift = t.drift := by
  funext l
  rw [drift, drift, cells_setSlot, count_replace lockOf hp, elemCounter_setSlot]

/-! ## The operations -/

variable [DecidableEq Key]

/-- The ends of the path along which an insertion of the key relocates entries, if it does. -/
def relocation (hash : Key → UInt64) (alloc : Allocator) (key : Key) :
    ℕ → Table Key T → Option (ℕ × ℕ)
  | 0, _ => none
  | fuel + 1, t =>
    if crowded hash t key then
      match pathFor hash t key with
      | some path => pathEnds path
      | none =>
        match t.cuckooFastDouble hash alloc with
        | .ok t' => relocation hash alloc key fuel t'
        | .error _ => none
    else none

lemma WellFormed.drift_cuckooInsertLoop (alloc : Allocator) (key : Key) (l fuel : ℕ) :
    ∀ t : Table Key T, t.WellFormed hash →
      (cuckooInsertLoop hash alloc key fuel t).1.drift l
        = t.drift l + shift (relocation hash alloc key fuel t) l := by
  induction fuel with
  | zero => exact fun t _ => (add_zero _).symm
  | succ fuel ih =>
    intro t h
    have hins := h.cuckooInsert_spec key
    rw [cuckooInsertLoop, relocation]
    simp only [show (hashedKey hash key).partialTag = partialKey (hash key) from rfl]
    generalize t.cuckooInsert hash key (partialKey (hash key))
      (t.bucketIndices (hashedKey hash key)).1 (t.bucketIndices (hashedKey hash key)).2 = r
      at hins ⊢
    cases hins with
    | room hcrowded _ _ _ =>
      rw [if_neg (by rw [hcrowded]; exact Bool.false_ne_true)]
      exact (add_zero _).symm
    | relocated hcrowded hpath hends hrec _ _ hshift _ _ =>
      rw [if_pos hcrowded, hpath]
      simp only [hends]
      exact drift_of_shifted hshift hrec.counters l
    | duplicate hcrowded _ _ =>
      rw [if_neg (by rw [hcrowded]; exact Bool.false_ne_true)]
      exact (add_zero _).symm
    | full hcrowded hpath _ =>
      rw [if_pos hcrowded, hpath]
      cases hdouble : t.cuckooFastDouble hash alloc with
      | error x =>
        simp only [hdouble]
        exact (add_zero _).symm
      | ok t' =>
        simp only [hdouble]
        obtain ⟨hwf, hrearr, hcounters, -⟩ := h.cuckooFastDouble hdouble
        rw [ih t' hwf, drift_of_rearranges hrearr hcounters]

/-- `upsert` changes the drift only where it relocates entries. -/
theorem WellFormed.drift_upsert {t : Table Key T} (h : t.WellFormed hash) (alloc : Allocator)
    (key : Key) (fn : T → Except Exn T) (val : T) (l : ℕ) :
    (t.upsert hash alloc key fn val).1.drift l
      = t.drift l + shift (relocation hash alloc key doublingFuel t) l := by
  have hplaced := cuckooInsertLoop_spec alloc key doublingFuel t h
    (Nat.le_add_right_of_le (by decide))
  rw [← h.drift_cuckooInsertLoop alloc key l doublingFuel t, upsert]
  generalize cuckooInsertLoop hash alloc key doublingFuel t = r at hplaced ⊢
  cases hplaced with
  | free hrec hp _ _ => rw [hrec.wellFormed.drift_addToBucket hp]
  | found hrec hp hk =>
    simp only [hp]
    split
    · rfl
    · rw [drift_setVal hp]
  | failed hrec _ _ => rfl

theorem WellFormed.drift_erase {t : Table Key T} (h : t.WellFormed hash) (key : Key) :
    (t.erase hash key).1.drift = t.drift := by
  unfold Table.erase
  split
  · next p hp =>
    obtain ⟨e, he, -⟩ := locate_eq_some hp
    exact h.drift_delFromBucket (by rw [he]; exact Option.some_ne_none e)
  · rfl

/-! ## `empty()` -/

omit [DecidableEq Key] in
/-- When `empty()` says whether there are entries. -/
theorem WellFormed.empty_iff {t : Table Key T} (h : t.WellFormed hash) :
    (t.empty = true ↔ ∀ p, t.cells p = none) ↔
      (∃ p, t.cells p ≠ none) ∨ ∀ l < maxNumLocks, t.drift l = 0 := by
  by_cases hnone : ∀ p, t.cells p = none
  · -- without entries the drift of a lock is its counter
    have hdrift : ∀ l, t.drift l = t.elemCounter l := by
      intro l
      have hcount : count lockOf t.cells l = 0 := by simp [count, hnone]
      rw [drift, hcount]
      exact sub_zero _
    have hno : ¬ ∃ p, t.cells p ≠ none := by
      rintro ⟨p, hp⟩
      exact hp (hnone p)
    simp only [hdrift, iff_true_right hnone, or_iff_right hno]
    exact t.empty_eq_true_iff
  · -- with entries the counters do not add up to zero
    have hne : ¬ t.empty = true := by
      intro hempty
      have hsize : t.size = 0 := by
        rw [size_eq_sum]
        exact Finset.sum_eq_zero fun l hl =>
          t.empty_eq_true_iff.mp hempty l (Finset.mem_range.mp hl)
      have hcard : card t.cells = 0 := by
        rw [← h.size_toNat, hsize]
        rfl
      exact hnone ((card_eq_zero_iff h.finite).mp hcard)
    have hsome : ∃ p, t.cells p ≠ none := not_forall.mp hnone
    exact ⟨fun _ => .inl hsome, fun _ => ⟨fun h => absurd h hne, fun h => absurd h hnone⟩⟩

end Table

end Jakilid.Cuckoo
