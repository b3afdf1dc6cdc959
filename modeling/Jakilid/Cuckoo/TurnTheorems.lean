import Jakilid.Cuckoo.LockTheorems

/-!
# The next step of a thread

`turn_spec` says once and for all what the next step of a thread is: it takes a lock above all
those it holds, gives one back, or works on the table (`Worked`), in one of four ways: entries are
moved without a change of the contents, the operation is done, it is given up with an exception,
or the bucket arrays are swapped.
-/

namespace Jakilid.Cuckoo.Concurrent

open CellStore Table

variable {Key T : Type}

/-! ## Kinds of work -/

section Turns

variable {hash : Key → UInt64} {t t' : Table Key T} {c c' : Session Key T} {pending : Set ℕ}

/-- A call goes on as it should. -/
structure Kept (hash : Key → UInt64) (t : Table Key T) (c c' : Session Key T) : Prop where
  op : c'.op = c.op
  tidy : c'.Tidy
  sound : c'.control.Sound hash c'.op t

/-- Nothing happens in buckets whose locks the thread does not hold. -/
def Framed (c : Session Key T) (t t' : Table Key T) : Prop :=
  ∀ q : Position, ((lockInd q.1 : ℕ) : Lock) ∉ c.held → t'.cells q = t.cells q

/-- Work of a thread on the table. -/
inductive Worked [DecidableEq Key] (hash : Key → UInt64) (pending : Set ℕ) (t : Table Key T)
    (c : Session Key T) : Table Key T → Session Key T → Prop
  | moved {t' : Table Key T} {c' : Session Key T} (hkept : Kept hash t' c c')
      (hheld : c'.held = c.held) (hconsistent : Consistent hash t' pending)
      (hhp : t'.hashpower = t.hashpower) (hframe : Framed c t t')
      (hholds : ∀ e, Holds t'.cells e ↔ Holds t.cells e) (hresult : c'.control.result = none)
      (hpending : c'.control.pending = ∅) : Worked hash pending t c t' c'
  | operated {t' : Table Key T} {c' : Session Key T} {r : Except Exn (Response T)}
      (hkept : Kept hash t' c c') (hheld : c'.held = c.held)
      (hoperated : Operated hash pending c.op t t' r) (hframe : Framed c t t')
      (hresult : c'.control.result = some r) (hpending : c'.control.pending = ∅) :
      Worked hash pending t c t' c'
  | thrown {c' : Session Key T} {x : Exn} (hkept : Kept hash t c c') (hheld : c'.held = c.held)
      (hop : c.op.Inserts) (hx : x = .badAlloc ∨ x = .loadFactorTooLow)
      (hresult : c'.control.result = some (.error x)) (hpending : c'.control.pending = ∅) :
      Worked hash pending t c t c'
  | enlarged {c' : Session Key T} (hkept : Kept hash t.enlarge c c') (hheld : c'.held = c.held)
      (hall : ⊥ ∈ c.held ∧ ∀ l < maxNumLocks, (l : Lock) ∈ c.held)
      (hconsistent : Consistent hash t.enlarge {l | l < maxNumLocks})
      (hcells : t.enlarge.cells = t.cells) (hresult : c'.control.result = none)
      (hpending : c'.control.pending = Finset.range maxNumLocks) :
      Worked hash pending t c t.enlarge c'

/-- The next step of a thread. -/
inductive TurnSpec [DecidableEq Key] (hash : Key → UInt64) (pending : Set ℕ) (ch : Chance)
    (t : Table Key T) (c : Session Key T) : Turn Key T → Prop
  /-- it waits for its worker threads -/
  | blocked {hp : ℕ} {todo split : Finset ℕ} (hcontrol : c.control = .migrating hp todo split)
      (hunlocking : c.unlocking = []) (hleft : todo ≠ ∅ ∨ split ≠ ∅) :
      TurnSpec hash pending ch t c .blocked
  | fault (hch : ch.survives = false) : TurnSpec hash pending ch t c (.fault .deadKey)
  | take {l : Lock} {c' : Session Key T} (hkept : Kept hash t c c')
      (hheld : c'.held = insert l c.held) (habove : ∀ l' ∈ c.held, l' < l)
      (hlt : l < (maxNumLocks : Lock))
      (hresult : c'.control.result = none ∧ c.control.result = none)
      (hpending : c'.control.pending = ∅ ∧ c.control.pending = ∅) :
      TurnSpec hash pending ch t c (.take l c')
  | give {l : Lock} {c' : Session Key T} (hkept : Kept hash t c c') (hl : l ∈ c.held)
      (hheld : c'.held = c.held \ {l}) (hcontrol : c'.control = c.control) :
      TurnSpec hash pending ch t c (.give l c')
  | work {t' : Table Key T} {c' : Session Key T} (hworked : Worked hash pending t c t' c')
      (hresult : c.control.result = none) (hpending : c.control.pending = ∅) :
      TurnSpec hash pending ch t c (.work t' c')
  | finish {r : Except Exn (Response T)} (hcontrol : c.control = .finished r)
      (hheld : c.held = ∅) : TurnSpec hash pending ch t c (.finish r)

lemma Framed.refl : Framed c t t := fun _ _ => rfl

/-- The table is as it was, the locks are given back, and the thread goes on elsewhere. -/
lemma worked_next [DecidableEq Key] {s : Snapshot} {task : Task} {control : Control T}
    (hheld : c.held = locksOf (task.locks s)) (hfresh : control.Fresh hash c.op t')
    (hconsistent : Consistent hash t' pending) (hhp : t'.hashpower = t.hashpower)
    (hframe : Framed c t t') (hholds : ∀ e, Holds t'.cells e ↔ Holds t.cells e) :
    Worked hash pending t c t' (c.next s task control) := by
  have hunlocking : (c.next s task control).unlocking = (task.unlocks s).map (↑) := rfl
  refine .moved ⟨rfl, ?_, hfresh.sound⟩ ?_ hconsistent hhp hframe hholds hfresh.result
    hfresh.pending
  · exact Session.tidy_unlocking hunlocking (task.nodup_unlocks s) hfresh.held
  · rw [hheld, Session.held_unlocking hunlocking hfresh.held]
    exact task.locksOf_unlocks s

/-- The operation is done. -/
lemma worked_over [DecidableEq Key] {s : Snapshot} {r : Except Exn (Response T)}
    (hheld : c.held = locksOf (unlockTwo s.i1 s.i2))
    (hoperated : Operated hash pending c.op t t' r) (hframe : Framed c t t') :
    Worked hash pending t c t' (c.over s r) := by
  have hunlocking : (c.over s r).unlocking = (unlockTwo s.i1 s.i2).map (↑) := rfl
  refine .operated ⟨rfl, ?_, trivial⟩ ?_ hoperated hframe rfl rfl
  · exact Session.tidy_unlocking hunlocking (nodup_unlockTwo _ _) rfl
  · rw [hheld, Session.held_unlocking hunlocking rfl]

/-- A change of one cell, with its lock. -/
lemma framed_of_cells {p : Position} (hp : ((lockInd p.1 : ℕ) : Lock) ∈ c.held)
    (hcells : ∀ q, q ≠ p → t'.cells q = t.cells q) : Framed c t t' := by
  intro q hq
  apply hcells
  rintro rfl
  exact hq hp

section Operate

variable [DecidableEq Key] {s : Snapshot}

lemma worked_visit (hconsistent : Consistent hash t pending)
    (hheld : c.held = locksOf (unlockTwo s.i1 s.i2))
    (hown : ∀ l : ℕ, (l : Lock) ∈ c.held → l ∉ pending) {p : Position} {e : Entry Key T}
    (hp : t.cells p = some e) (hk : e.key = c.op.key) (hb : p.1 = s.i1 ∨ p.1 = s.i2) :
    Worked hash pending t c (visit t c.op p e).1 (c.over s (visit t c.op p e).2) := by
  have hlock : ((lockInd p.1 : ℕ) : Lock) ∈ c.held := by
    rw [hheld, mem_locksOf, mem_unlockTwo]
    rcases hb with hb | hb
    · exact .inl (congrArg lockInd hb)
    · exact .inr (congrArg lockInd hb)
  refine worked_over hheld (operated_visit hconsistent hp hk (hown _ hlock))
    (framed_of_cells hlock fun q hq => ?_)
  rw [cells_visit, Function.update_of_ne hq]

lemma worked_add (hconsistent : Consistent hash t pending)
    (hheld : c.held = locksOf (unlockTwo s.i1 s.i2))
    (hown : ∀ l : ℕ, (l : Lock) ∈ c.held → l ∉ pending) (hs : SnapshotOf hash c.op.key s)
    (hhp : s.hp = t.hashpower) {p : Position} (hp : t.cells p = none) (hop : c.op.Inserts)
    (habs : Absent t c.op.key) (hb : p.1 = s.i1 ∨ p.1 = s.i2) :
    Worked hash pending t c (add hash t c.op p) (c.over s c.op.missing.2) := by
  have hlock : ((lockInd p.1 : ℕ) : Lock) ∈ c.held := by
    rw [hheld, mem_locksOf, mem_unlockTwo]
    rcases hb with hb | hb
    · exact .inl (congrArg lockInd hb)
    · exact .inr (congrArg lockInd hb)
  have hcand : Candidate t.hashpower (hashedKey hash c.op.key) p.1 := by
    rw [← hhp, hs.candidate_iff]
    exact hb
  exact worked_over hheld (operated_add hconsistent hp (hown _ hlock) hop habs hcand)
    (framed_of_cells hlock fun q hq => cells_add_of_ne hq)

end Operate

/-! ## What is done with the locks of a task -/

section Tasks

variable [DecidableEq Key] {s : Snapshot} {ch : Chance}

lemma TurnSpec.of_worked (hworked : Worked hash pending t c t' c')
    (hcontrol : c.control.result = none ∧ c.control.pending = ∅) :
    TurnSpec hash pending ch t c (.work t' c') :=
  .work hworked hcontrol.1 hcontrol.2

/-- The operation is done, or `run_cuckoo` has to make room. -/
lemma operate_spec (hconsistent : Consistent hash t pending) (hs : SnapshotOf hash c.op.key s)
    (hhp : s.hp = t.hashpower) (hheld : c.held = locksOf (Task.operate.locks s))
    (hown : ∀ l : ℕ, (l : Lock) ∈ c.held → l ∉ pending)
    (hcontrol : c.control.result = none ∧ c.control.pending = ∅) :
    TurnSpec hash pending ch t c (runTask hash ch t c s .operate) := by
  have hheldTwo : c.held = locksOf (unlockTwo s.i1 s.i2) := by
    rw [hheld]
    exact (Task.operate.locksOf_unlocks s).symm
  have hi1 : lockInd s.i1 ∉ pending := by
    apply hown
    rw [hheldTwo, mem_locksOf, mem_unlockTwo]
    exact .inl rfl
  have hi2 : lockInd s.i2 ∉ pending := by
    apply hown
    rw [hheldTwo, mem_locksOf, mem_unlockTwo]
    exact .inr rfl
  have hsite := site_spec hconsistent hs hhp hi1 hi2
  simp only [runTask]
  generalize site hash t c.op s = place at hsite ⊢
  cases hsite with
  | @found p e hp hk hb =>
    simp only [hp]
    exact .of_worked (worked_visit hconsistent hheldTwo hown hp hk hb) hcontrol
  | free hp hb habs hop =>
    exact .of_worked (worked_add hconsistent hheldTwo hown hs hhp hp hop habs hb) hcontrol
  | absent habs hop =>
    exact .of_worked (worked_over hheldTwo (operated_absent hconsistent habs hop) .refl) hcontrol
  | crowded hop =>
    exact .of_worked (worked_next hheld (fresh_search hs hop) hconsistent rfl .refl
      fun _ => Iff.rfl) hcontrol

/-- `slot_search` only looks. -/
lemma inspect_spec (hconsistent : Consistent hash t pending) (hs : SnapshotOf hash c.op.key s)
    (hop : c.op.Inserts) {x : BSlot} {i : ℕ} {q : BQueue}
    (hheld : c.held = locksOf ((Task.inspect x i q).locks s))
    (hcontrol : c.control.result = none ∧ c.control.pending = ∅) :
    TurnSpec hash pending ch t c (runTask hash ch t c s (.inspect x i q)) := by
  have hnext : ∀ control : Control T, control.Fresh hash c.op t →
      TurnSpec hash pending ch t c (.work t (c.next s (.inspect x i q) control)) := by
    intro control hfresh
    exact .of_worked (worked_next hheld hfresh hconsistent rfl .refl fun _ => Iff.rfl) hcontrol
  simp only [runTask]
  split
  · exact hnext _ (fresh_trace hs hop _)
  · exact hnext _ (fresh_resume hs hop ..)

/-- `cuckoopath_search` only looks, and each record is where the one before it points. -/
lemma follow_spec (hconsistent : Consistent hash t pending) (hs : SnapshotOf hash c.op.key s)
    {bucket : ℕ} {slot : Slot} {rest : List Slot} {seen : List CuckooRecord}
    (htask : (Task.follow bucket slot rest seen).Sound c.op s)
    (hheld : c.held = locksOf ((Task.follow bucket slot rest seen).locks s))
    (hcontrol : c.control.result = none ∧ c.control.pending = ∅) :
    TurnSpec hash pending ch t c (runTask hash ch t c s (.follow bucket slot rest seen)) := by
  obtain ⟨hop, hlinked⟩ := htask
  have hnext : ∀ control : Control T, control.Fresh hash c.op t →
      TurnSpec hash pending ch t c
        (.work t (c.next s (.follow bucket slot rest seen) control)) := by
    intro control hfresh
    exact .of_worked (worked_next hheld hfresh hconsistent rfl .refl fun _ => Iff.rfl) hcontrol
  simp only [runTask]
  split
  · exact hnext _ (fresh_move hs hop (hlinked _))
  · apply hnext
    cases rest with
    | nil => exact fresh_move hs hop (hlinked _)
    | cons slot' rest =>
      refine fresh_locking hs ⟨hop, fun hv => ?_⟩
      exact ⟨⟨rfl, rfl⟩, hlinked _⟩

/-- A path of one record leads to a free slot, or there is a new search. -/
lemma settle_spec (hconsistent : Consistent hash t pending) (hs : SnapshotOf hash c.op.key s)
    (hhp : s.hp = t.hashpower) {first : CuckooRecord} (htask : (Task.settle first).Sound c.op s)
    (hheld : c.held = locksOf ((Task.settle first).locks s)) (hunlocking : c.unlocking = [])
    (hcontrol : c.control.result = none ∧ c.control.pending = ∅) :
    TurnSpec hash pending ch t c (runTask hash ch t c s (.settle first)) := by
  obtain ⟨hop, hfirst⟩ := htask
  simp only [runTask]
  split
  · next hfree =>
    refine .of_worked (.moved ⟨rfl, ?_, ?_⟩ ?_ hconsistent rfl .refl (fun _ => Iff.rfl) rfl rfl)
      hcontrol
    · exact Session.tidy_of_nil hunlocking
    · exact ⟨hs, hop, hhp, hfirst, hfree⟩
    · rw [hheld, ← Task.locksOf_unlocks]
      exact Session.held_at hunlocking _
  · exact .of_worked (worked_next hheld (fresh_search hs hop) hconsistent rfl .refl
      fun _ => Iff.rfl) hcontrol

/-- The locks of a round of `cuckoopath_move` include those of the two buckets of its records. -/
lemma mem_locks_displace {target source : CuckooRecord} {rest : List CuckooRecord}
    (hlinked : Linked s (target :: source :: rest)) :
    lockInd target.bucket ∈ (Task.displace target source rest).locks s ∧
      lockInd source.bucket ∈ (Task.displace target source rest).locks s := by
  cases rest with
  | nil =>
    refine ⟨mem_lockThree.mpr (.inl rfl), mem_lockThree.mpr (.inr ?_)⟩
    rcases hlinked.2 with hb | hb
    · exact .inl (congrArg lockInd hb)
    · exact .inr (congrArg lockInd hb)
  | cons source' rest => exact ⟨mem_lockTwo.mpr (.inr rfl), mem_lockTwo.mpr (.inl rfl)⟩

/-- A round of `cuckoopath_move`. -/
lemma displace_spec (hconsistent : Consistent hash t pending) (hs : SnapshotOf hash c.op.key s)
    (hhp : s.hp = t.hashpower) {target source : CuckooRecord} {rest : List CuckooRecord}
    (htask : (Task.displace target source rest).Sound c.op s)
    (hheld : c.held = locksOf ((Task.displace target source rest).locks s))
    (hown : ∀ l : ℕ, (l : Lock) ∈ c.held → l ∉ pending)
    (hcontrol : c.control.result = none ∧ c.control.pending = ∅) :
    TurnSpec hash pending ch t c (runTask hash ch t c s (.displace target source rest)) := by
  obtain ⟨hop, hlinked⟩ := htask
  obtain ⟨htarget, hsource⟩ := mem_locks_displace hlinked
  rw [← mem_locksOf, ← hheld] at htarget hsource
  have hagain : TurnSpec hash pending ch t c
      (.work t (c.next s (.displace target source rest) (.search s))) :=
    .of_worked (worked_next hheld (fresh_search hs hop) hconsistent rfl .refl fun _ => Iff.rfl)
      hcontrol
  simp only [runTask]
  split
  · split_ifs with hsurvives
    · exact hagain
    · exact .fault (Bool.eq_false_iff.mpr hsurvives)
  · next e he =>
    split_ifs with hlost
    · exact hagain
    · -- the entry is still the one of the record, and its alternate bucket has room
      rw [not_or, not_not, Option.not_isSome_iff_eq_none] at hlost
      obtain ⟨hhash, hfree⟩ := hlost
      have hhome : Home hash t.hashpower e target.bucket := by
        have hthere := hconsistent.homeNew (source.bucket, source.slot) e he (hown _ hsource)
        refine hthere.follow ?_ hhash
        rw [← hhp]
        exact hlinked.1
      obtain ⟨hconsistent', hholds⟩ := hconsistent.moveToBucket
        (p := (source.bucket, source.slot)) (q := (target.bucket, target.slot)) he hfree
        (hown _ hsource) (hown _ htarget) hhome
      have hframe : Framed c t
          (t.moveToBucket (source.bucket, source.slot) (target.bucket, target.slot)) := by
        intro r hr
        rw [cells_moveToBucket, Function.update_of_ne, Function.update_of_ne]
        · rintro rfl
          exact hr htarget
        · rintro rfl
          exact hr hsource
      cases rest with
      | nil =>
        refine .of_worked (.moved ⟨rfl, ⟨?_, ?_⟩, ?_⟩ ?_ hconsistent' rfl hframe hholds rfl rfl)
          hcontrol
        · exact nodup_map_coe (nodup_unlockExtra _ _ _)
        · intro l hl hl'
          obtain ⟨k, hk, rfl⟩ := mem_map_coe.mp hl
          rw [mem_unlockExtra] at hk
          have hk' := mem_unlockTwo.mp (mem_locksOf.mp hl')
          omega
        · refine ⟨hs, hop, hhp, hlinked.2, ?_⟩
          show (t.moveToBucket _ _).cells _ = none
          rw [cells_moveToBucket, Function.update_self]
        · rw [hheld, ← Task.locksOf_unlocks]
          show {l | l ∈ (unlockExtra s.i1 s.i2 target.bucket).map (↑)} ∪ _ = locksOf (_ ++ _)
          rw [locksOf_append]
          congr 1
          ext l
          exact mem_map_coe
      | cons source' rest =>
        exact .of_worked (worked_next hheld (fresh_locking hs ⟨hop, hlinked.2⟩) hconsistent' rfl
          hframe hholds) hcontrol

/-- The first lock of a task has been taken, so there is no end of them yet. -/
lemma taken_pos {task : Task} {taken : ℕ} (h : (task.locks s)[taken]? = none) : 0 < taken := by
  have hlength := task.locks_ne_nil s
  rw [List.getElem?_eq_none_iff] at h
  omega

lemma runTask_spec (hconsistent : Consistent hash t pending) {task : Task} {taken : ℕ}
    (hsound : (Control.locking s task taken : Control T).Sound hash c.op t)
    (hdone : (task.locks s)[taken]? = none) (hcontrol : c.control = .locking s task taken)
    (hunlocking : c.unlocking = []) (hown : ∀ l : ℕ, (l : Lock) ∈ c.held → l ∉ pending) :
    TurnSpec hash pending ch t c (runTask hash ch t c s task) := by
  obtain ⟨hs, htask, -, hhp⟩ := hsound
  replace hhp := hhp (taken_pos hdone)
  have hheld : c.held = locksOf (task.locks s) := by
    rw [Session.held_of_nil hunlocking, hcontrol]
    show locksOf ((task.locks s).take taken) = _
    rw [List.take_of_length_le (List.getElem?_eq_none_iff.mp hdone)]
  have hsilent : c.control.result = none ∧ c.control.pending = ∅ := by
    rw [hcontrol]
    exact ⟨rfl, rfl⟩
  cases task with
  | operate => exact operate_spec hconsistent hs hhp hheld hown hsilent
  | inspect x i q => exact inspect_spec hconsistent hs htask hheld hsilent
  | follow bucket slot rest seen => exact follow_spec hconsistent hs htask hheld hsilent
  | settle first => exact settle_spec hconsistent hs hhp htask hheld hunlocking hsilent
  | displace target source rest =>
    exact displace_spec hconsistent hs hhp htask hheld hown hsilent

end Tasks

/-! ## The other steps -/

/-- A call that holds `expansion_lock_` gives it back and does something else. -/
lemma held_unlocking_bot {control : Control T} (hheld : control.held = ∅) :
    ({ c with control := control, unlocking := [⊥] } : Session Key T).held = {⊥} := by
  rw [Session.held, hheld, Set.union_empty]
  ext l
  simp

lemma tidy_unlocking_bot {control : Control T} (hheld : control.held = ∅) :
    ({ c with control := control, unlocking := [⊥] } : Session Key T).Tidy := by
  refine ⟨List.nodup_singleton _, fun l _ => ?_⟩
  rw [hheld]
  exact Set.notMem_empty l

section Controls

variable [DecidableEq Key] {ch : Chance}

/-- The next lock of a task. -/
lemma take_spec {s : Snapshot} {task : Task} {taken l : ℕ}
    (hsound : (Control.locking s task taken : Control T).Sound hash c.op t)
    (hl : (task.locks s)[taken]? = some l) (hcontrol : c.control = .locking s task taken)
    (hunlocking : c.unlocking = []) :
    TurnSpec hash pending ch t c
      (.take l { c with
        control := if taken = 0 then .checking s task else .locking s task (taken + 1) }) := by
  obtain ⟨hs, htask, -, hhp⟩ := hsound
  have hlt : taken < (task.locks s).length := (List.getElem?_eq_some_iff.mp hl).1
  have hheld : c.held = locksOf ((task.locks s).take taken) := by
    rw [Session.held_of_nil hunlocking, hcontrol]
    rfl
  refine .take ⟨rfl, Session.tidy_of_nil hunlocking, ?_⟩ ?_ ?_ ?_ ⟨?_, ?_⟩ ⟨?_, ?_⟩
  · show Control.Sound hash c.op t (if taken = 0 then _ else _)
    split_ifs with hzero
    · exact ⟨hs, htask⟩
    · exact ⟨hs, htask, hlt, fun _ => hhp (Nat.pos_of_ne_zero hzero)⟩
  · rw [hheld, ← locksOf_take_succ hl]
    refine (Session.held_at hunlocking _).trans ?_
    split_ifs with hzero
    · rw [hzero]
      rfl
    · rfl
  · rw [hheld]
    rintro l' ⟨k, hk, rfl⟩
    refine WithBot.coe_lt_coe.mpr ?_
    -- the locks of a task ascend
    obtain ⟨i, hi, rfl⟩ := List.mem_iff_getElem.mp hk
    rw [List.length_take] at hi
    rw [List.getElem_take]
    obtain ⟨-, rfl⟩ := List.getElem?_eq_some_iff.mp hl
    exact List.pairwise_iff_getElem.mp (task.sorted_locks s) i taken _ _ (by omega)
  · exact WithBot.coe_lt_coe.mpr (Task.lt_of_mem_locks (List.mem_of_getElem? hl))
  · show Control.result (if taken = 0 then _ else _) = none
    split_ifs <;> rfl
  · rw [hcontrol]
    rfl
  · show Control.pending (if taken = 0 then _ else _) = ∅
    split_ifs <;> rfl
  · rw [hcontrol]
    rfl

/-- A call that holds nothing goes on without touching the table. -/
lemma fresh_spec (hconsistent : Consistent hash t pending) (hunlocking : c.unlocking = [])
    (hheld : c.control.held = ∅) (hcontrol : c.control.result = none ∧ c.control.pending = ∅)
    {control : Control T} (hfresh : control.Fresh hash c.op t) :
    TurnSpec hash pending ch t c (.work t { c with control := control }) := by
  refine .of_worked (.moved ⟨rfl, Session.tidy_of_nil hunlocking, hfresh.sound⟩ ?_ hconsistent rfl
    .refl (fun _ => Iff.rfl) hfresh.result hfresh.pending) hcontrol
  rw [Session.held_of_nil hunlocking, hheld]
  exact (Session.held_at hunlocking _).trans hfresh.held

/-- `check_hashpower` -/
lemma checking_spec (hconsistent : Consistent hash t pending) {s : Snapshot} {task : Task}
    (hsound : (Control.checking s task : Control T).Sound hash c.op t)
    (hcontrol : c.control = .checking s task) (hunlocking : c.unlocking = []) :
    TurnSpec hash pending ch t c
      (if t.hashpower = s.hp then .work t { c with control := .locking s task 1 }
      else .work t { c with
        control := .start, unlocking := ((task.locks s).take 1).map (↑) }) := by
  have hsilent : c.control.result = none ∧ c.control.pending = ∅ := by
    rw [hcontrol]
    exact ⟨rfl, rfl⟩
  have hheld : c.held = locksOf ((task.locks s).take 1) := by
    rw [Session.held_of_nil hunlocking, hcontrol]
    rfl
  split_ifs with hhp
  · refine .of_worked (.moved ⟨rfl, Session.tidy_of_nil hunlocking, ?_⟩ ?_ hconsistent rfl .refl
      (fun _ => Iff.rfl) rfl rfl) hsilent
    · exact ⟨hsound.1, hsound.2, task.locks_ne_nil s, fun _ => hhp.symm⟩
    · rw [hheld]
      exact Session.held_at hunlocking _
  · have hnodup : ((task.locks s).take 1).Nodup :=
      ((task.sorted_locks s).imp fun h => h.ne).sublist (List.take_sublist _ _)
    refine .of_worked (.moved ⟨rfl, Session.tidy_unlocking rfl hnodup rfl, trivial⟩ ?_ hconsistent
      rfl .refl (fun _ => Iff.rfl) rfl rfl) hsilent
    rw [hheld]
    exact Session.held_unlocking rfl rfl

/-- After `run_cuckoo` the key is looked for once more: another thread may have inserted it. -/
lemma freed_spec (hconsistent : Consistent hash t pending) {s : Snapshot} {p : Position}
    (hsound : (Control.freed s p : Control T).Sound hash c.op t)
    (hcontrol : c.control = .freed s p) (hunlocking : c.unlocking = [])
    (hown : ∀ l : ℕ, (l : Lock) ∈ c.held → l ∉ pending) :
    TurnSpec hash pending ch t c
      (match t.cuckooFind c.op.key (hashedKey hash c.op.key).partialTag s.i1 s.i2 with
      | some p' =>
        match t.cells p' with
        | some e => .work (visit t c.op p' e).1 (c.over s (visit t c.op p' e).2)
        | none => .blocked
      | none => .work (add hash t c.op p) (c.over s c.op.missing.2)) := by
  obtain ⟨hs, hop, hhp, hb, hfree⟩ := hsound
  have hsilent : c.control.result = none ∧ c.control.pending = ∅ := by
    rw [hcontrol]
    exact ⟨rfl, rfl⟩
  have hheld : c.held = locksOf (unlockTwo s.i1 s.i2) := by
    rw [Session.held_of_nil hunlocking, hcontrol]
    rfl
  cases hfind : t.cuckooFind c.op.key (hashedKey hash c.op.key).partialTag s.i1 s.i2 with
  | some p' =>
    obtain ⟨e, he, hk⟩ := cuckooFind_eq_some hfind
    simp only [he]
    exact .of_worked (worked_visit hconsistent hheld hown he hk (cuckooFind_bucket hfind)) hsilent
  | none =>
    have habs : Absent t c.op.key := by
      refine hconsistent.cuckooFind_eq_none hs hhp (hown _ ?_) (hown _ ?_) hfind
      · rw [hheld, mem_locksOf, mem_unlockTwo]
        exact .inl rfl
      · rw [hheld, mem_locksOf, mem_unlockTwo]
        exact .inr rfl
    exact .of_worked (worked_add hconsistent hheld hown hs hhp hfree hop habs hb) hsilent

/-- `check_resize_validity` -/
lemma validating_spec (hconsistent : Consistent hash t pending) {hp : ℕ} (hop : c.op.Inserts)
    (hcontrol : c.control = .validating hp) (hunlocking : c.unlocking = []) :
    TurnSpec hash pending ch t c
      (if noMaximumHashpower ≠ 0 ∧ noMaximumHashpower < hp + 1 then
        .work t { c with
          control := .finished (.error (.maximumHashpowerExceeded (hp + 1))), unlocking := [⊥] }
      else if ch.lowLoad then
        .work t { c with control := .finished (.error .loadFactorTooLow), unlocking := [⊥] }
      else if t.hashpower ≠ hp then .work t { c with control := .start, unlocking := [⊥] }
      else .work t { c with control := .lockingAll hp 0 }) := by
  have hsilent : c.control.result = none ∧ c.control.pending = ∅ := by
    rw [hcontrol]
    exact ⟨rfl, rfl⟩
  have hheld : c.held = {⊥} := by
    rw [Session.held_of_nil hunlocking, hcontrol]
    rfl
  have hmax : ¬ (noMaximumHashpower ≠ 0 ∧ noMaximumHashpower < hp + 1) := fun h => h.1 rfl
  rw [if_neg hmax]
  split_ifs with hlow hhp
  · refine .of_worked (.thrown ⟨rfl, tidy_unlocking_bot rfl, trivial⟩ ?_ hop (.inr rfl) rfl rfl)
      hsilent
    rw [hheld]
    exact held_unlocking_bot rfl
  · refine .of_worked (.moved ⟨rfl, tidy_unlocking_bot rfl, trivial⟩ ?_ hconsistent rfl .refl
      (fun _ => Iff.rfl) rfl rfl) hsilent
    rw [hheld]
    exact held_unlocking_bot rfl
  · refine .of_worked (.moved ⟨rfl, Session.tidy_of_nil hunlocking, ?_⟩ ?_ hconsistent rfl .refl
      (fun _ => Iff.rfl) rfl rfl) hsilent
    · exact ⟨hop, (not_not.mp hhp).symm, Nat.zero_le _⟩
    · rw [hheld]
      refine (Session.held_at hunlocking _).trans ?_
      show insert ⊥ (locksOf []) = _
      rw [locksOf_nil, insert_empty_eq]

/-- `snapshot_and_lock_all`, and the swap of the bucket arrays. -/
lemma lockingAll_spec (hconsistent : Consistent hash t pending) {hp taken : ℕ}
    (hsound : (Control.lockingAll hp taken : Control T).Sound hash c.op t)
    (hcontrol : c.control = .lockingAll hp taken) (hunlocking : c.unlocking = [])
    (hown : ∀ l : ℕ, (l : Lock) ∈ c.held → l ∉ pending) :
    TurnSpec hash pending ch t c
      (if taken < t.numLocks then .take taken { c with control := .lockingAll hp (taken + 1) }
      else if ch.alloc.grants (hashsize t.hashpower * 2) then
        .work t.enlarge { c with
          control := .migrating hp (Finset.range (min t.numLocks (hashsize hp))) ∅ }
      else
        .work t { c with
          control := .finished (.error .badAlloc)
          unlocking := (List.range t.numLocks).map (↑) ++ [⊥] }) := by
  obtain ⟨hop, rfl, htaken⟩ := hsound
  have hsilent : c.control.result = none ∧ c.control.pending = ∅ := by
    rw [hcontrol]
    exact ⟨rfl, rfl⟩
  have hheld : c.held = insert ⊥ (locksOf (List.range taken)) := by
    rw [Session.held_of_nil hunlocking, hcontrol]
    rfl
  rw [numLocks_eq]
  split_ifs with hlt hgrant
  · refine .take ⟨rfl, Session.tidy_of_nil hunlocking, hop, rfl, hlt⟩ ?_ ?_
      (WithBot.coe_lt_coe.mpr hlt) ⟨rfl, hsilent.1⟩ ⟨rfl, hsilent.2⟩
    · rw [hheld, Set.insert_comm, ← locksOf_append_singleton, ← List.range_succ]
      exact Session.held_at hunlocking _
    · rw [hheld]
      rintro l' (rfl | ⟨k, hk, rfl⟩)
      · exact WithBot.bot_lt_coe taken
      · exact WithBot.coe_lt_coe.mpr (List.mem_range.mp hk)
  · obtain rfl : taken = maxNumLocks := by omega
    have hlocks : min maxNumLocks (hashsize t.hashpower) = maxNumLocks := by
      apply Nat.min_eq_left
      rw [hashsize_eq, maxNumLocks_eq]
      exact Nat.pow_le_pow_right (by decide) hconsistent.minHashpower
    have hall : ∀ l < maxNumLocks, (l : Lock) ∈ c.held := by
      intro l hl
      rw [hheld]
      exact Set.mem_insert_of_mem _ (mem_locksOf.mpr (List.mem_range.mpr hl))
    -- with all the locks there is no bucket left that is still to be distributed
    have hwell : t.WellFormed hash := by
      refine Consistent.wellFormed (hconsistent.of_agree fun l hl => ?_)
      exact iff_of_false (hown l (hall l hl)) (Set.notMem_empty l)
    have hfits : hashsize (t.hashpower + 1) ≤ segmentSize := by
      rw [hashsize_succ, ← Nat.mul_two]
      exact ch.alloc.bounded _ hgrant
    obtain ⟨hconsistent', hcells⟩ :
        Consistent hash t.enlarge {l | l < maxNumLocks} ∧ t.enlarge.cells = t.cells :=
      hwell.consistent_enlarge hfits fun l hl => hl
    rw [hlocks]
    refine .of_worked (.enlarged ⟨rfl, Session.tidy_of_nil hunlocking, ?_⟩ ?_ ⟨?_, hall⟩
      hconsistent' hcells rfl rfl) hsilent
    · refine ⟨rfl, hconsistent.minHashpower, fun l hl => ?_, Finset.disjoint_empty_right _⟩
      simpa using hl
    · rw [hheld]
      refine (Session.held_at hunlocking _).trans ?_
      ext l
      simp [Control.held, locksOf]
    · rw [hheld]
      exact Set.mem_insert _ _
  · obtain rfl : taken = maxNumLocks := by omega
    have hbot : (⊥ : Lock) ∉ (List.range maxNumLocks).map ((↑) : ℕ → Lock) := by
      rw [mem_map_coe]
      exact bot_notMem_locksOf _
    refine .of_worked (.thrown ⟨rfl, ⟨?_, fun _ _ => Set.notMem_empty _⟩, trivial⟩ ?_ hop (.inl rfl)
      rfl rfl) hsilent
    · refine (nodup_map_coe List.nodup_range).append (List.nodup_singleton _) ?_
      rw [List.disjoint_singleton]
      exact hbot
    · rw [hheld]
      ext l
      simp only [Session.held, Control.held, Set.union_empty, Set.mem_ofPred_eq, List.mem_append,
        mem_map_coe, List.mem_singleton, Set.mem_insert_iff]
      exact or_comm

/-- The end of `cuckoo_fast_double`. -/
lemma migrating_spec (hconsistent : Consistent hash t pending) {hp : ℕ} {todo split : Finset ℕ}
    (hsound : (Control.migrating hp todo split : Control T).Sound hash c.op t)
    (hcontrol : c.control = .migrating hp todo split) (hunlocking : c.unlocking = []) :
    TurnSpec hash pending ch t c
      (if todo = ∅ ∧ split = ∅ then
        .work t { c with
          control := .start
          unlocking :=
            ((List.range t.numLocks).drop (min t.numLocks (hashsize hp))).map (↑) ++ [⊥] }
      else .blocked) := by
  obtain ⟨-, h16, -, -⟩ := hsound
  split_ifs with hdone
  · obtain ⟨rfl, rfl⟩ := hdone
    have hheld : c.held = {⊥} := by
      rw [Session.held_of_nil hunlocking, hcontrol]
      show insert ⊥ {l | ∃ k, (k ∈ (∅ : Finset ℕ) ∨ k ∈ (∅ : Finset ℕ)) ∧ (k : Lock) = l} = _
      simp
    -- every lock was one of the old table's
    have hlocks : (List.range t.numLocks).drop (min t.numLocks (hashsize hp)) = [] := by
      rw [List.drop_eq_nil_iff, List.length_range, numLocks_eq, Nat.min_eq_left]
      rw [hashsize_eq, maxNumLocks_eq]
      exact Nat.pow_le_pow_right (by decide) h16
    rw [hlocks, List.map_nil, List.nil_append]
    refine .of_worked (.moved ⟨rfl, tidy_unlocking_bot rfl, trivial⟩ ?_ hconsistent rfl .refl
      (fun _ => Iff.rfl) rfl rfl) ?_
    · rw [hheld]
      exact held_unlocking_bot rfl
    · rw [hcontrol]
      exact ⟨rfl, rfl⟩
  · refine .blocked hcontrol hunlocking ?_
    by_contra hleft
    rw [not_or, not_not, not_not] at hleft
    exact hdone hleft

/-- A lock that is not needed any more. -/
lemma give_spec (hsound : c.control.Sound hash c.op t) (htidy : c.Tidy) {l : Lock} {ls : List Lock}
    (hunlocking : c.unlocking = l :: ls) :
    TurnSpec hash pending ch t c (.give l { c with unlocking := ls }) := by
  obtain ⟨hnodup, hheld⟩ := htidy
  rw [hunlocking] at hnodup hheld
  obtain ⟨hnotMem, hnodup⟩ := List.nodup_cons.mp hnodup
  refine .give ⟨rfl, ⟨hnodup, fun l' hl' => hheld l' (List.mem_cons_of_mem l hl')⟩, hsound⟩ ?_ ?_
    rfl
  · rw [Session.held, hunlocking]
    exact .inl List.mem_cons_self
  · rw [Session.held, Session.held, hunlocking]
    ext l'
    simp only [Set.mem_union, Set.mem_ofPred_eq, Set.mem_sdiff, List.mem_cons,
      Set.mem_singleton_iff]
    constructor
    · rintro (hl' | hl')
      · refine ⟨.inl (.inr hl'), ?_⟩
        rintro rfl
        exact hnotMem hl'
      · refine ⟨.inr hl', ?_⟩
        rintro rfl
        exact hheld l' List.mem_cons_self hl'
    · rintro ⟨(hl' | hl') | hl', hne⟩
      · exact absurd hl' hne
      · exact .inl hl'
      · exact .inr hl'

/-- **The next step of a thread**, in a consistent table of whose pending locks it holds none,
unless it is the one that distributes their buckets. -/
theorem turn_spec (hconsistent : Consistent hash t pending) (hsound : c.control.Sound hash c.op t)
    (htidy : c.Tidy)
    (hown : c.control.pending = ∅ → ∀ l : ℕ, (l : Lock) ∈ c.held → l ∉ pending) :
    TurnSpec hash pending ch t c (turn hash ch t c) := by
  unfold turn
  split
  · next l ls hunlocking => exact give_spec hsound htidy hunlocking
  · next hunlocking =>
    unfold runControl
    split <;> rename_i hcontrol
    all_goals rw [hcontrol] at hsound hown
    · -- start
      have hs : SnapshotOf hash c.op.key ⟨t.hashpower,
          (t.bucketIndices (hashedKey hash c.op.key)).1,
          (t.bucketIndices (hashedKey hash c.op.key)).2⟩ := ⟨rfl, rfl⟩
      refine fresh_spec hconsistent hunlocking ?_ ?_ (fresh_locking hs trivial)
      · rw [hcontrol]
        rfl
      · rw [hcontrol]
        exact ⟨rfl, rfl⟩
    · -- locking
      split
      · next hl => exact take_spec hsound hl hcontrol hunlocking
      · next hdone => exact runTask_spec hconsistent hsound hdone hcontrol hunlocking (hown rfl)
    · exact checking_spec hconsistent hsound hcontrol hunlocking
    · exact freed_spec hconsistent hsound hcontrol hunlocking (hown rfl)
    · -- expanding
      have hheld : c.held = ∅ := by
        rw [Session.held_of_nil hunlocking, hcontrol]
        rfl
      refine .take ⟨rfl, Session.tidy_of_nil hunlocking, hsound⟩ ?_ ?_ (WithBot.bot_lt_coe _)
        ⟨rfl, ?_⟩ ⟨rfl, ?_⟩
      · rw [hheld, insert_empty_eq]
        exact Session.held_at hunlocking _
      · rw [hheld]
        exact fun l' hl' => absurd hl' (Set.notMem_empty l')
      · rw [hcontrol]
        rfl
      · rw [hcontrol]
        rfl
    · exact validating_spec hconsistent hsound hcontrol hunlocking
    · exact lockingAll_spec hconsistent hsound hcontrol hunlocking (hown rfl)
    · exact migrating_spec hconsistent hsound hcontrol hunlocking
    · -- finished
      refine .finish hcontrol ?_
      rw [Session.held_of_nil hunlocking, hcontrol]
      rfl

end Controls

end Turns

end Jakilid.Cuckoo.Concurrent
