import Jakilid.Cuckoo.Assertions
import Jakilid.Cuckoo.InterferenceTheorems
import Jakilid.Cuckoo.QueueTheorems

/-!
# No assertion fails

However the steps of the threads interleave, every assertion of the hash table holds when it is
made (`asserts_of_run`). Most of them say what `Inv` says. Those of `slot_search` are about the
queue and the pathcodes of one thread (`Control.Searching`), and those of `move_buckets` about the
new bucket while an old one is distributed (`Splitting`).
-/

namespace Jakilid.Cuckoo.Concurrent

open CellStore Table Transition

variable {Key T : Type} {hash : Key → UInt64}

/-! ## `move_buckets` -/

section Split

variable {hp b : ℕ} {acc : Table Key T × ℕ} {s : Slot} {ss : List Slot} {t : Table Key T}

/-- The entries in the slots `ss` of an old bucket are still to be looked at. -/
structure Splitting (hash : Key → UInt64) (hp b : ℕ) (ss : List Slot) (acc : Table Key T × ℕ) :
    Prop where
  home : ∀ s ∈ ss, ∀ e, acc.1.cells (b, s) = some e → Home hash hp e b
  room : ∀ s' : Slot, acc.2 ≤ s' → acc.1.cells (b + hashsize hp, s') = none
  count : acc.2 + ss.length ≤ slotPerBucket

lemma Splitting.asserts (h : Splitting hash hp b (s :: ss) acc) :
    moveSlotAsserts hash hp b acc s = true := by
  have hcount := h.count
  rw [List.length_cons] at hcount
  unfold moveSlotAsserts
  split
  · rfl
  · next e he =>
    dsimp only
    split_ifs with hmove
    · -- the entry goes to the next slot of the new bucket
      have hslot : ((Fin.ofNat slotPerBucket acc.2 : Slot) : ℕ) = acc.2 :=
        Nat.mod_eq_of_lt (by omega)
      have hsource : acc.1.cells (b, s) = some e := he
      have htarget := h.room _ hslot.ge
      have hlt : acc.2 < slotPerBucket := by omega
      rw [moveToBucketAsserts, hsource, htarget, decide_eq_true hlt]
      rfl
    · have hhome := (h.home s List.mem_cons_self e he).candidate
      rw [not_or, not_and, not_and] at hmove
      obtain ⟨hfirst, hsecond⟩ := hmove
      rw [Bool.or_eq_true, Bool.and_eq_true, Bool.and_eq_true, beq_iff_eq, beq_iff_eq, beq_iff_eq,
        beq_iff_eq]
      rcases hhome with hb | hb
      · left
        rcases eq_or_eq_add_of_mod (indexHash_lt (hp + 1) _) (indexHash_succ_mod hp _) with hi | hi
        · exact ⟨hb, hi⟩
        · exact absurd (by rw [hi, hb]) (hfirst hb)
      · right
        rcases eq_or_eq_add_of_mod (altIndex_lt (hp + 1) _ _)
          (altIndex_succ_indexHash_mod hp (hashedKey hash e.key)) with hi | hi
        · exact ⟨hb, hi⟩
        · exact absurd (by rw [hi, hb]) (hsecond hb)

lemma Splitting.next (h : Splitting hash hp b (s :: ss) acc) (hs : s ∉ ss) :
    Splitting hash hp b ss (moveSlot hash hp b acc s) := by
  have hcount := h.count
  rw [List.length_cons] at hcount
  have hstay : Splitting hash hp b ss acc :=
    ⟨fun s' hs' => h.home s' (List.mem_cons_of_mem s hs'), h.room, by omega⟩
  have hpos := hashsize_pos hp
  rcases moveSlot_cases hash hp b acc s with
    ⟨-, heq⟩ | ⟨e, he, ⟨-, heq⟩ | ⟨-, heq⟩⟩ <;> rw [heq]
  · exact hstay
  · exact hstay
  · -- the new bucket has one free slot less
    refine ⟨fun s' hs' f hf => ?_, fun s' hs' => ?_, ?_⟩
    · rw [cells_incCounter, cells_decCounter, cells_moveToBucket, Function.update_of_ne,
        Function.update_of_ne] at hf
      · exact hstay.home s' hs' f hf
      · intro hcontra
        have := (Prod.mk.inj hcontra).1
        omega
      · intro hcontra
        rw [(Prod.mk.inj hcontra).2] at hs'
        exact hs hs'
    · have hle : acc.2 + 1 ≤ (s' : ℕ) := hs'
      rw [cells_incCounter, cells_decCounter, cells_moveToBucket, Function.update_of_ne,
        Function.update_of_ne]
      · exact h.room s' (by omega)
      · intro hcontra
        have hval : (s' : ℕ) = acc.2 % slotPerBucket := congrArg Fin.val (Prod.mk.inj hcontra).2
        rw [Nat.mod_eq_of_lt (by omega)] at hval
        omega
      · intro hcontra
        have := (Prod.mk.inj hcontra).1
        omega
    · show acc.2 + 1 + ss.length ≤ slotPerBucket
      omega

lemma Splitting.slotsAsserts (hnodup : ss.Nodup) (h : Splitting hash hp b ss acc) :
    slotsAsserts hash hp b ss acc = true := by
  induction ss generalizing acc with
  | nil => rfl
  | cons s ss ih =>
    obtain ⟨hs, hnodup⟩ := List.nodup_cons.mp hnodup
    rw [Concurrent.slotsAsserts, h.asserts, ih hnodup (h.next hs)]
    rfl

end Split

/-! ## `slot_search` -/

/-- The items of the search are in range, and the queue has room for one more. -/
def Task.Searching : Task → Prop
  | .inspect x _ q => (∀ y ∈ x :: q, InRange y) ∧ q.full = false
  | _ => True

def Control.Searching : Control T → Prop
  | .locking _ task _ => task.Searching
  | .checking _ task => task.Searching
  | _ => True

section Search

variable {s : Snapshot} {x : BSlot} {q : BQueue}

lemma searching_search (s : Snapshot) : (Control.search s : Control T).Searching :=
  ⟨inRange_starts s.i1 s.i2, rfl⟩

lemma searching_resume (hq : ∀ y ∈ x :: q, InRange y) (i : ℕ) :
    (Control.resume s x i q : Control T).Searching := by
  unfold Control.resume
  split_ifs with hfull hi
  · trivial
  · exact ⟨hq, Bool.eq_false_iff.mpr hfull⟩
  · cases q with
    | nil => trivial
    | cons y q =>
      refine ⟨fun z hz => hq z (List.mem_cons_of_mem x hz), ?_⟩
      -- there is room if there was with one item more
      simp only [BQueue.full, List.length_cons, decide_eq_true_eq, decide_eq_false_iff_not] at hfull ⊢
      omega

lemma searching_trace (s : Snapshot) (x : BSlot) : (Control.trace s x : Control T).Searching := by
  unfold Control.trace
  split
  · trivial
  · exact searching_search (T := T) s

lemma searching_move (s : Snapshot) (path : List CuckooRecord) :
    (Control.move s path : Control T).Searching := by
  cases path with
  | nil => exact searching_search (T := T) s
  | cons target path => cases path <;> trivial

/-- Where a thread gets to with its next step. -/
def Turn.Reaches (P : Control T → Prop) : Turn Key T → Prop
  | .take _ c => P c.control
  | .give _ c => P c.control
  | .work _ c => P c.control
  | _ => True

variable [DecidableEq Key] {t : Table Key T} {c : Session Key T}

lemma searching_runTask (ch : Chance) {task : Task} (h : task.Searching) :
    (runTask hash ch t c s task).Reaches Control.Searching := by
  cases task with
  | operate =>
    simp only [runTask]
    split
    · split <;> trivial
    · trivial
    · trivial
    · exact searching_search (T := T) s
  | inspect x i q =>
    obtain ⟨hitems, -⟩ := h
    simp only [runTask]
    split
    · exact searching_trace s _
    · refine searching_resume (fun y hy => ?_) (i + 1)
      split_ifs at hy with hdepth
      · rw [← List.cons_append] at hy
        rcases List.mem_append.mp hy with hy | hy
        · exact hitems y hy
        · obtain rfl := List.mem_singleton.mp hy
          refine ⟨(hitems x List.mem_cons_self).digit _, ?_⟩
          show x.depth + 1 ≤ maxBfsPathLen - 1
          omega
      · exact hitems y hy
  | follow bucket slot rest seen =>
    simp only [runTask]
    split
    · exact searching_move s _
    · cases rest with
      | nil => exact searching_move s _
      | cons slot' rest => trivial
  | settle first =>
    simp only [runTask]
    split
    · trivial
    · exact searching_search (T := T) s
  | displace target source rest =>
    simp only [runTask]
    split
    · split_ifs
      · exact searching_search (T := T) s
      · trivial
    · split_ifs
      · exact searching_search (T := T) s
      · cases rest <;> trivial

lemma searching_turn (ch : Chance) (h : c.control.Searching) :
    (turn hash ch t c).Reaches Control.Searching := by
  unfold turn
  split
  · exact h
  · unfold runControl
    split
    · trivial
    · next s task taken hcontrol =>
      rw [hcontrol] at h
      split
      · show Control.Searching (if taken = 0 then _ else _)
        split_ifs
        · exact h
        · exact h
      · exact searching_runTask ch h
    · next s task hcontrol =>
      rw [hcontrol] at h
      split_ifs
      · exact h
      · trivial
    · split
      · split <;> trivial
      · trivial
    · trivial
    · split_ifs <;> trivial
    · split_ifs <;> trivial
    · split_ifs <;> trivial
    · trivial

/-- The searches of all threads. -/
def Searches (w : State Key T) : Prop := ∀ i c, w.sessions i = some c → c.control.Searching

omit [DecidableEq Key] in
lemma Searches.update {w : State Key T} (h : Searches w) {table : Table Key T}
    {owner : Lock → Option ThreadId} (i : ThreadId) {o : Option (Session Key T)}
    (ho : ∀ c ∈ o, c.control.Searching) :
    Searches ⟨table, owner, Function.update w.sessions i o⟩ := by
  intro j c hc
  by_cases hj : j = i
  · rw [hj] at hc
    exact ho c (Function.update_self i o w.sessions ▸ hc)
  · exact h j c (Function.update_of_ne hj o w.sessions ▸ hc)

lemma Searches.step {w w' : State Key T} (h : Searches w) {a : Action Key T} {e : Event Key T}
    (hstep : w.step hash a = .next w' e) : Searches w' := by
  cases a with
  | invoke i op =>
    change w.invoke i op = .next w' e at hstep
    unfold State.invoke at hstep
    split at hstep
    · cases hstep
      exact h.update i fun c hc => by cases hc; trivial
    · cases hstep
  | advance i ch =>
    change w.advance hash i ch = .next w' e at hstep
    unfold State.advance at hstep
    split at hstep
    · cases hstep
    · next c hc =>
      have hreaches : (turn hash ch w.table c).Reaches Control.Searching :=
        searching_turn ch (h i c hc)
      revert hstep hreaches
      generalize turn hash ch w.table c = turn
      intro hstep hreaches
      cases turn with
      | blocked => cases hstep
      | fault f => cases hstep
      | take l c' =>
        simp only [State.perform] at hstep
        split_ifs at hstep
        cases hstep
        exact h.update i fun c hc => by cases hc; exact hreaches
      | give l c' =>
        cases hstep
        exact h.update i fun c hc => by cases hc; exact hreaches
      | work t c' =>
        cases hstep
        exact h.update i fun c hc => by cases hc; exact hreaches
      | finish r =>
        cases hstep
        exact h.update i fun c hc => by cases hc
  | split i l =>
    change w.split hash i l = .next w' e at hstep
    unfold State.split at hstep
    split at hstep
    · split_ifs at hstep
      cases hstep
      exact h.update i fun c hc => by cases hc; trivial
    · cases hstep
  | unlock i l =>
    change w.unlock i l = .next w' e at hstep
    unfold State.unlock at hstep
    split at hstep
    · split_ifs at hstep
      cases hstep
      exact h.update i fun c hc => by cases hc; trivial
    · cases hstep

end Search

/-! ## All steps -/

section Steps

variable [DecidableEq Key] {w : State Key T} {i : ThreadId} {c : Session Key T} {s : Snapshot}

omit [DecidableEq Key] in
lemma isCandidate_eq {hp b : ℕ} {hv : HashValue} (h : Candidate hp hv b) :
    isCandidate hp hv b = true := by
  rw [isCandidate, Bool.or_eq_true, beq_iff_eq, beq_iff_eq]
  exact h

omit [DecidableEq Key] in
/-- The locks a thread holds are its own. -/
lemma Inv.owner_eq (h : Inv hash w) (hc : w.sessions i = some c) {l : Lock} (hl : l ∈ c.held) :
    w.owner l = some i := by
  rw [h.owns, State.held_of_some hc]
  exact hl

omit [DecidableEq Key] in
lemma Inv.isActive (h : Inv hash w) (hc : w.sessions i = some c)
    (hheld : c.held = locksOf (unlockTwo s.i1 s.i2)) : isActive w i s = true := by
  have h1 : w.owner (lockInd s.i1 : ℕ) = some i := by
    apply h.owner_eq hc
    rw [hheld]
    exact mem_locksOf.mpr (mem_unlockTwo.mpr (.inl rfl))
  have h2 : w.owner (lockInd s.i2 : ℕ) = some i := by
    apply h.owner_eq hc
    rw [hheld]
    exact mem_locksOf.mpr (mem_unlockTwo.mpr (.inr rfl))
  rw [Concurrent.isActive, h1, h2, beq_self_eq_true, Bool.and_self]

omit [DecidableEq Key] in
/-- Before the first lock of a task is taken the thread holds none. -/
lemma Inv.not_isActive (h : Inv hash w) (hc : w.sessions i = some c) (hheld : c.held = ∅) :
    Concurrent.isActive w i s = false := by
  have hnot : w.owner (lockInd s.i1 : ℕ) ≠ some i := by
    intro howner
    rw [h.owns, State.held_of_some hc, hheld] at howner
    exact howner
  rw [Concurrent.isActive, beq_eq_false_iff_ne.mpr hnot, Bool.false_and]

omit [DecidableEq Key] in
/-- The assertions before the first lock of a task. -/
lemma Inv.entryAsserts (h : Inv hash w) (hc : w.sessions i = some c) {task : Task}
    (hcontrol : c.control = .locking s task 0) (hunlocking : c.unlocking = []) :
    task.entryAsserts w i s = true := by
  have hsound := h.sound i c hc
  rw [hcontrol] at hsound
  obtain ⟨-, htask, -, -⟩ := hsound
  have hactive : Concurrent.isActive w i s = false := by
    apply h.not_isActive hc
    rw [Session.held_of_nil hunlocking, hcontrol]
    exact locksOf_nil
  cases task with
  | settle first =>
    have hfirst : first.bucket = s.i1 ∨ first.bucket = s.i2 := htask.2
    rw [Task.entryAsserts, hactive, Bool.not_false, Bool.true_and, Bool.or_eq_true, beq_iff_eq,
      beq_iff_eq]
    exact hfirst
  | displace target source rest =>
    rw [Task.entryAsserts, hactive]
    rfl
  | _ => rfl

omit [DecidableEq Key] in
/-- The assertions on the slot that `run_cuckoo` has freed. -/
lemma Inv.freedAsserts (h : Inv hash w) (hc : w.sessions i = some c) {p : Position}
    (hcontrol : c.control = .freed s p) (hunlocking : c.unlocking = []) :
    freedAsserts hash w c.op s p = true := by
  have hsound := h.sound i c hc
  rw [hcontrol] at hsound
  obtain ⟨hs, -, hhp, hb, hfree⟩ := hsound
  have hactive : Concurrent.isActive w i s = true := by
    apply h.isActive hc
    rw [Session.held_of_nil hunlocking, hcontrol]
    rfl
  rw [Concurrent.isActive, Bool.and_eq_true, beq_iff_eq, beq_iff_eq] at hactive
  have hcand : Candidate w.table.hashpower (hashedKey hash c.op.key) p.1 := by
    rw [← hhp, hs.candidate_iff]
    exact hb
  have hbucket : (p.1 == s.i1 || p.1 == s.i2) = true := by
    rw [Bool.or_eq_true, beq_iff_eq, beq_iff_eq]
    exact hb
  rw [Concurrent.freedAsserts, hbucket, hactive.1, hactive.2, addToBucketAsserts, hfree,
    isCandidate_eq hcand]
  rfl

end Steps

end Jakilid.Cuckoo.Concurrent
