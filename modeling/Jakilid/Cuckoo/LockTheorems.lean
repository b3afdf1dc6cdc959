import Jakilid.Lib.Locks
import Jakilid.Cuckoo.MigrationTheorems

/-!
# What a thread does with its locks

`Session.held` are the locks a thread holds, read off where it is, and `Control.Sound` is what it
may rely on there.
-/

namespace Jakilid.Cuckoo.Concurrent

open CellStore Table

variable {Key T : Type}

/-! ## Lists of locks -/

lemma mem_lockTwo {i1 i2 l : ℕ} : l ∈ lockTwo i1 i2 ↔ l = lockInd i1 ∨ l = lockInd i2 := by
  unfold lockTwo
  split_ifs with h
  · by_cases hne : lockInd i1 ≠ lockInd i2
    · simp [hne, or_comm]
    · omega
  · by_cases hne : lockInd i2 ≠ lockInd i1
    · simp [hne]
    · simp only [hne, if_false, List.mem_singleton]
      omega

lemma sorted_lockTwo (i1 i2 : ℕ) : (lockTwo i1 i2).Pairwise (· < ·) := by
  unfold lockTwo
  split_ifs with h
  · by_cases hne : lockInd i1 ≠ lockInd i2
    · simp [hne, h]
    · simp [hne]
  · by_cases hne : lockInd i2 ≠ lockInd i1
    · simp only [hne, not_false_eq_true, ne_eq, if_true, List.pairwise_pair]
      omega
    · simp [hne]

lemma mem_lockThree {i1 i2 i3 l : ℕ} :
    l ∈ lockThree i1 i2 i3 ↔ l = lockInd i3 ∨ l = lockInd i1 ∨ l = lockInd i2 := by
  unfold lockThree
  dsimp only
  split_ifs <;> simp <;> omega

lemma sorted_lockThree (i1 i2 i3 : ℕ) : (lockThree i1 i2 i3).Pairwise (· < ·) := by
  unfold lockThree
  dsimp only
  split_ifs <;> simp <;> omega

lemma mem_unlockTwo {i1 i2 l : ℕ} : l ∈ unlockTwo i1 i2 ↔ l = lockInd i1 ∨ l = lockInd i2 := by
  unfold unlockTwo
  split_ifs with h
  · simp
  · rw [List.mem_singleton]
    omega

lemma nodup_unlockTwo (i1 i2 : ℕ) : (unlockTwo i1 i2).Nodup := by
  unfold unlockTwo
  split_ifs with h
  · simpa using h
  · simp

lemma mem_unlockExtra {i1 i2 i3 l : ℕ} :
    l ∈ unlockExtra i1 i2 i3 ↔ l = lockInd i3 ∧ l ≠ lockInd i1 ∧ l ≠ lockInd i2 := by
  unfold unlockExtra
  split_ifs with h
  · simp only [List.not_mem_nil, false_iff]
    omega
  · rw [List.mem_singleton]
    omega

lemma nodup_unlockExtra (i1 i2 i3 : ℕ) : (unlockExtra i1 i2 i3).Nodup := by
  unfold unlockExtra
  split_ifs <;> simp

/-- A task gives back the locks it has taken. -/
lemma Task.mem_unlocks {s : Snapshot} {task : Task} {l : ℕ} :
    l ∈ task.unlocks s ↔ l ∈ task.locks s := by
  cases task with
  | operate => exact mem_unlockTwo.trans mem_lockTwo.symm
  | inspect x i q => exact Iff.rfl
  | follow bucket slot rest seen => exact Iff.rfl
  | settle first => exact mem_unlockTwo.trans mem_lockTwo.symm
  | displace target source rest =>
    cases rest with
    | nil =>
      simp only [Task.unlocks, Task.locks, List.mem_append, mem_unlockExtra, mem_unlockTwo,
        mem_lockThree]
      omega
    | cons source' rest => exact mem_unlockTwo.trans mem_lockTwo.symm

lemma Task.nodup_unlocks (s : Snapshot) (task : Task) : (task.unlocks s).Nodup := by
  cases task with
  | operate => exact nodup_unlockTwo _ _
  | inspect x i q => exact List.nodup_singleton _
  | follow bucket slot rest seen => exact List.nodup_singleton _
  | settle first => exact nodup_unlockTwo _ _
  | displace target source rest =>
    cases rest with
    | nil =>
      refine (nodup_unlockExtra _ _ _).append (nodup_unlockTwo _ _) fun l hl hl' => ?_
      rw [mem_unlockExtra] at hl
      rw [mem_unlockTwo] at hl'
      omega
    | cons source' rest => exact nodup_unlockTwo _ _

/-- A task takes its locks in ascending order. -/
lemma Task.sorted_locks (s : Snapshot) (task : Task) : (task.locks s).Pairwise (· < ·) := by
  cases task with
  | operate => exact sorted_lockTwo _ _
  | inspect x i q => exact List.pairwise_singleton _ _
  | follow bucket slot rest seen => exact List.pairwise_singleton _ _
  | settle first => exact sorted_lockTwo _ _
  | displace target source rest =>
    cases rest with
    | nil => exact sorted_lockThree _ _ _
    | cons source' rest => exact sorted_lockTwo _ _

lemma Task.lt_of_mem_locks {s : Snapshot} {task : Task} {l : ℕ} (h : l ∈ task.locks s) :
    l < maxNumLocks := by
  have hlock : ∃ b, l = lockInd b := by
    cases task with
    | operate =>
      rcases mem_lockTwo.mp h with h | h
      · exact ⟨_, h⟩
      · exact ⟨_, h⟩
    | inspect x i q => exact ⟨_, List.mem_singleton.mp h⟩
    | follow bucket slot rest seen => exact ⟨_, List.mem_singleton.mp h⟩
    | settle first =>
      rcases mem_lockTwo.mp h with h | h
      · exact ⟨_, h⟩
      · exact ⟨_, h⟩
    | displace target source rest =>
      cases rest with
      | nil =>
        rcases mem_lockThree.mp h with h | h | h
        · exact ⟨_, h⟩
        · exact ⟨_, h⟩
        · exact ⟨_, h⟩
      | cons source' rest =>
        rcases mem_lockTwo.mp h with h | h
        · exact ⟨_, h⟩
        · exact ⟨_, h⟩
  obtain ⟨b, rfl⟩ := hlock
  exact lockInd_lt b

lemma Task.locks_ne_nil (s : Snapshot) (task : Task) : 0 < (task.locks s).length := by
  rw [List.length_pos_iff_exists_mem]
  cases task with
  | operate => exact ⟨_, mem_lockTwo.mpr (.inl rfl)⟩
  | inspect x i q => exact ⟨_, List.mem_singleton_self _⟩
  | follow bucket slot rest seen => exact ⟨_, List.mem_singleton_self _⟩
  | settle first => exact ⟨_, mem_lockTwo.mpr (.inl rfl)⟩
  | displace target source rest =>
    cases rest with
    | nil => exact ⟨_, mem_lockThree.mpr (.inl rfl)⟩
    | cons source' rest => exact ⟨_, mem_lockTwo.mpr (.inl rfl)⟩

/-! ## The locks a thread holds -/

/-- The bucket locks of a list. -/
def locksOf (ls : List ℕ) : Set Lock := {l | ∃ k ∈ ls, (k : Lock) = l}

lemma mem_locksOf {ls : List ℕ} {l : ℕ} : (l : Lock) ∈ locksOf ls ↔ l ∈ ls := by
  constructor
  · rintro ⟨k, hk, heq⟩
    obtain rfl := WithBot.coe_inj.mp heq
    exact hk
  · exact fun hl => ⟨l, hl, rfl⟩

lemma bot_notMem_locksOf (ls : List ℕ) : (⊥ : Lock) ∉ locksOf ls := by
  rintro ⟨k, -, heq⟩
  exact WithBot.coe_ne_bot heq

lemma locksOf_nil : locksOf [] = ∅ := by
  ext l
  simp [locksOf]

lemma locksOf_congr {ls ls' : List ℕ} (h : ∀ l, l ∈ ls ↔ l ∈ ls') : locksOf ls = locksOf ls' := by
  ext l
  exact exists_congr fun k => and_congr_left fun _ => h k

lemma locksOf_append (ls ls' : List ℕ) : locksOf (ls ++ ls') = locksOf ls ∪ locksOf ls' := by
  ext l
  simp only [locksOf, List.mem_append, Set.mem_ofPred_eq, Set.mem_union]
  constructor
  · rintro ⟨k, hk | hk, rfl⟩
    · exact .inl ⟨k, hk, rfl⟩
    · exact .inr ⟨k, hk, rfl⟩
  · rintro (⟨k, hk, rfl⟩ | ⟨k, hk, rfl⟩)
    · exact ⟨k, .inl hk, rfl⟩
    · exact ⟨k, .inr hk, rfl⟩

lemma locksOf_append_singleton (ls : List ℕ) (l : ℕ) :
    locksOf (ls ++ [l]) = insert (l : Lock) (locksOf ls) := by
  have hsingleton : locksOf [l] = {(l : Lock)} := by
    ext l'
    simp [locksOf, eq_comm]
  rw [locksOf_append, hsingleton, Set.union_comm, Set.singleton_union]

lemma Task.locksOf_unlocks (s : Snapshot) (task : Task) :
    locksOf (task.unlocks s) = locksOf (task.locks s) :=
  locksOf_congr fun _ => Task.mem_unlocks

/-- One more lock of an ascending list. -/
lemma locksOf_take_succ {ls : List ℕ} {n l : ℕ} (h : ls[n]? = some l) :
    locksOf (ls.take (n + 1)) = insert (l : Lock) (locksOf (ls.take n)) := by
  rw [List.take_add_one, h]
  exact locksOf_append_singleton _ l

/-- The locks a thread holds and goes on to use. -/
def Control.held : Control T → Set Lock
  | .start => ∅
  | .locking s task taken => locksOf ((task.locks s).take taken)
  | .checking s task => locksOf ((task.locks s).take 1)
  | .freed s _ => locksOf (unlockTwo s.i1 s.i2)
  | .expanding _ => ∅
  | .validating _ => {⊥}
  | .lockingAll _ taken => insert ⊥ (locksOf (List.range taken))
  | .migrating _ pending split => insert ⊥ {l | ∃ k, (k ∈ pending ∨ k ∈ split) ∧ (k : Lock) = l}
  | .finished _ => ∅

lemma mem_held_migrating {hp l : ℕ} {pending split : Finset ℕ} :
    (l : Lock) ∈ (Control.migrating hp pending split : Control T).held ↔
      l ∈ pending ∨ l ∈ split := by
  constructor
  · rintro (heq | ⟨k, hk, heq⟩)
    · exact absurd heq WithBot.coe_ne_bot
    · obtain rfl := WithBot.coe_inj.mp heq
      exact hk
  · exact fun hl => .inr ⟨l, hl, rfl⟩

/-- The locks a thread holds. -/
def Session.held (c : Session Key T) : Set Lock := {l | l ∈ c.unlocking} ∪ c.control.held

/-- No lock is to be given back twice, and none that is still used. -/
def Session.Tidy (c : Session Key T) : Prop :=
  c.unlocking.Nodup ∧ ∀ l ∈ c.unlocking, l ∉ c.control.held

lemma Session.held_of_nil {c : Session Key T} (h : c.unlocking = []) : c.held = c.control.held := by
  rw [held, h]
  simp

/-- A call that has no locks to give back goes on. -/
lemma Session.held_at {c : Session Key T} (h : c.unlocking = []) (control : Control T) :
    { c with control := control }.held = control.held :=
  held_of_nil h

lemma Session.tidy_of_nil {c : Session Key T} (h : c.unlocking = []) : c.Tidy := by
  rw [Tidy, h]
  exact ⟨List.nodup_nil, nofun⟩

lemma mem_map_coe {ls : List ℕ} {l : Lock} : l ∈ ls.map (↑) ↔ l ∈ locksOf ls := List.mem_map

lemma nodup_map_coe {ls : List ℕ} (h : ls.Nodup) : (ls.map ((↑) : ℕ → Lock)).Nodup :=
  h.map WithBot.coe_injective

/-- A session that only gives locks back holds those. -/
lemma Session.held_unlocking {c : Session Key T} {ls : List ℕ} (hc : c.unlocking = ls.map (↑))
    (hheld : c.control.held = ∅) : c.held = locksOf ls := by
  rw [held, hheld, Set.union_empty, hc]
  ext l
  exact mem_map_coe

lemma Session.tidy_unlocking {c : Session Key T} {ls : List ℕ} (hc : c.unlocking = ls.map (↑))
    (hnodup : ls.Nodup) (hheld : c.control.held = ∅) : c.Tidy := by
  rw [Tidy, hc, hheld]
  exact ⟨nodup_map_coe hnodup, fun _ _ => Set.notMem_empty _⟩

/-! ## What a thread may rely on -/

/-- The return value of a call that has one. -/
def Control.result : Control T → Option (Except Exn (Response T))
  | .finished r => some r
  | _ => none

/-- The locks whose buckets the thread is still to distribute. -/
def Control.pending : Control T → Finset ℕ
  | .migrating _ pending _ => pending
  | _ => ∅

/-- The records of a path, last one first: each follows the one before it, and the first one is in
one of the two buckets of the call. Nothing is said of what is in the slots. -/
def Linked (s : Snapshot) : List CuckooRecord → Prop
  | [] => False
  | [first] => first.bucket = s.i1 ∨ first.bucket = s.i2
  | target :: source :: rest => Follows s.hp target source ∧ Linked s (source :: rest)

def Task.Sound (op : TableOp Key T) (s : Snapshot) : Task → Prop
  | .operate => True
  | .inspect _ _ _ => op.Inserts
  | .follow bucket slot _ seen => op.Inserts ∧ ∀ hv, Linked s (⟨bucket, slot, hv⟩ :: seen)
  | .settle first => op.Inserts ∧ Linked s [first]
  | .displace target source rest => op.Inserts ∧ Linked s (target :: source :: rest)

def Control.Sound (hash : Key → UInt64) (op : TableOp Key T) (t : Table Key T) : Control T → Prop
  | .start => True
  | .locking s task taken =>
    SnapshotOf hash op.key s ∧ task.Sound op s ∧ taken ≤ (task.locks s).length ∧
      (0 < taken → s.hp = t.hashpower)
  | .checking s task => SnapshotOf hash op.key s ∧ task.Sound op s
  | .freed s p =>
    SnapshotOf hash op.key s ∧ op.Inserts ∧ s.hp = t.hashpower ∧ (p.1 = s.i1 ∨ p.1 = s.i2) ∧
      t.cells p = none
  | .expanding _ => op.Inserts
  | .validating _ => op.Inserts
  | .lockingAll hp taken => op.Inserts ∧ hp = t.hashpower ∧ taken ≤ maxNumLocks
  | .migrating hp pending split =>
    t.hashpower = hp + 1 ∧ 16 ≤ hp ∧ (∀ l, l ∈ pending ∨ l ∈ split → l < maxNumLocks) ∧
      Disjoint pending split
  | .finished _ => True

/-- Two tables with the same buckets under some locks. -/
structure AgreeOn (held : Set Lock) (t t' : Table Key T) : Prop where
  hashpower : t'.hashpower = t.hashpower
  cells : ∀ q : Position, ((lockInd q.1 : ℕ) : Lock) ∈ held → t'.cells q = t.cells q

lemma AgreeOn.refl (held : Set Lock) (t : Table Key T) : AgreeOn held t t :=
  ⟨rfl, fun _ _ => rfl⟩

/-- What a thread relies on is not changed by work on buckets whose locks it does not hold. -/
lemma Control.Sound.frame {hash : Key → UInt64} {op : TableOp Key T} {t t' : Table Key T}
    {control : Control T} (h : control.Sound hash op t) (hagree : AgreeOn control.held t t') :
    control.Sound hash op t' := by
  have hhp := hagree.hashpower
  cases control with
  | locking s task taken =>
    obtain ⟨hs, htask, htaken, hsame⟩ := h
    exact ⟨hs, htask, htaken, fun hpos => (hsame hpos).trans hhp.symm⟩
  | freed s p =>
    obtain ⟨hs, hop, hsame, hb, hfree⟩ := h
    refine ⟨hs, hop, hsame.trans hhp.symm, hb, ?_⟩
    rw [hagree.cells p, hfree]
    refine mem_locksOf.mpr (mem_unlockTwo.mpr ?_)
    rcases hb with hb | hb
    · exact .inl (congrArg lockInd hb)
    · exact .inr (congrArg lockInd hb)
  | lockingAll hp taken => exact ⟨h.1, h.2.1.trans hhp.symm, h.2.2⟩
  | migrating hp pending split => exact ⟨hhp.trans h.1, h.2⟩
  | start => exact trivial
  | checking s task => exact h
  | expanding hp => exact h
  | validating hp => exact h
  | finished r => exact trivial

/-- A thread that holds nothing relies on nothing in the table. -/
lemma Control.Sound.of_held {hash : Key → UInt64} {op : TableOp Key T} {t : Table Key T}
    {control : Control T} (h : control.Sound hash op t) (hheld : control.held = ∅)
    (t' : Table Key T) : control.Sound hash op t' := by
  have hbot : ∀ ls : Set Lock, insert ⊥ ls ≠ ∅ := fun ls => (Set.insert_nonempty ⊥ ls).ne_empty
  cases control with
  | locking s task taken =>
    obtain ⟨hs, htask, htaken, -⟩ := h
    refine ⟨hs, htask, htaken, fun hpos => ?_⟩
    -- the first lock is held
    have hlength : 0 < ((task.locks s).take taken).length := by
      rw [List.length_take]
      exact lt_min hpos (task.locks_ne_nil s)
    obtain ⟨l, hl⟩ := List.length_pos_iff_exists_mem.mp hlength
    have hmem : (l : Lock) ∈ (∅ : Set Lock) := by
      rw [← hheld]
      exact mem_locksOf.mpr hl
    exact absurd hmem (Set.notMem_empty _)
  | freed s p =>
    have hmem : ((lockInd s.i1 : ℕ) : Lock) ∈ (∅ : Set Lock) := by
      rw [← hheld]
      exact mem_locksOf.mpr (mem_unlockTwo.mpr (.inl rfl))
    exact absurd hmem (Set.notMem_empty _)
  | lockingAll hp taken => exact absurd hheld (hbot _)
  | migrating hp pending split => exact absurd hheld (hbot _)
  | start => exact trivial
  | checking s task => exact h
  | expanding hp => exact h
  | validating hp => exact h
  | finished r => exact trivial

/-- A place where the thread holds nothing. -/
structure Control.Fresh (hash : Key → UInt64) (op : TableOp Key T) (t : Table Key T)
    (control : Control T) : Prop where
  sound : control.Sound hash op t
  held : control.held = ∅
  result : control.result = none
  pending : control.pending = ∅

section Fresh

variable {hash : Key → UInt64} {op : TableOp Key T} {t : Table Key T} {s : Snapshot}

lemma fresh_start : (Control.start : Control T).Fresh hash op t := ⟨trivial, rfl, rfl, rfl⟩

lemma fresh_locking (hs : SnapshotOf hash op.key s) {task : Task} (htask : task.Sound op s) :
    (Control.locking s task 0 : Control T).Fresh hash op t :=
  ⟨⟨hs, htask, Nat.zero_le _, nofun⟩, locksOf_nil, rfl, rfl⟩

lemma fresh_search (hs : SnapshotOf hash op.key s) (hop : op.Inserts) :
    (Control.search s : Control T).Fresh hash op t :=
  fresh_locking hs hop

lemma fresh_expanding (hop : op.Inserts) (hp : ℕ) :
    (Control.expanding hp : Control T).Fresh hash op t :=
  ⟨hop, rfl, rfl, rfl⟩

lemma fresh_resume (hs : SnapshotOf hash op.key s) (hop : op.Inserts) (x : BSlot) (i : ℕ)
    (q : BQueue) : (Control.resume s x i q : Control T).Fresh hash op t := by
  unfold Control.resume
  split_ifs
  · exact fresh_expanding hop s.hp
  · exact fresh_locking hs hop
  · cases q with
    | nil => exact fresh_expanding hop s.hp
    | cons x q => exact fresh_locking hs hop

lemma fresh_trace (hs : SnapshotOf hash op.key s) (hop : op.Inserts) (x : BSlot) :
    (Control.trace s x : Control T).Fresh hash op t := by
  unfold Control.trace
  split
  · refine fresh_locking hs ⟨hop, fun hv => ?_⟩
    show _ = s.i1 ∨ _ = s.i2
    split_ifs
    · exact .inl rfl
    · exact .inr rfl
  · exact fresh_search hs hop

lemma fresh_move (hs : SnapshotOf hash op.key s) (hop : op.Inserts) {path : List CuckooRecord}
    (hpath : Linked s path) : (Control.move s path : Control T).Fresh hash op t := by
  match path, hpath with
  | [first], hpath => exact fresh_locking hs ⟨hop, hpath⟩
  | target :: source :: rest, hpath => exact fresh_locking hs ⟨hop, hpath⟩

end Fresh

end Jakilid.Cuckoo.Concurrent
