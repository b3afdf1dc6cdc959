import Jakilid.Cuckoo.ConcurrentTheorems

/-!
# What the threads do to each other

They do not block each other for ever: as long as a call is in progress, some call can go on
(`exists_progress`). A thread changes nothing that is not under its locks (`guarded_by_locks`). And
they do not get in each other's way: what a thread does next under the locks it holds is not changed
by any step of another thread (`isolated`).
-/

namespace Jakilid.Cuckoo.Concurrent

open CellStore Locks Table Transition

variable {Key T : Type} {hash : Key → UInt64} {w : State Key T}

lemma inv_of_run [DecidableEq Key] {ts : List (Taken (State Key T) (Action Key T) (Event Key T))}
    (h : (system hash).Run ts w) : Inv hash w :=
  h.invariant (P := fun _ _ => True) inv_init (fun hinv _ hstep => hinv.moved (hinv.moved_of_step hstep))
    fun _ _ => trivial

/-! ## Progress -/

/-- The step goes on with a call that has been invoked. -/
def Action.Continues : Action Key T → Prop
  | .invoke _ _ => False
  | _ => True

/-- The lock that is to be taken next. -/
def Turn.lock : Turn Key T → Option Lock
  | .take l _ => some l
  | _ => none

/-- The lock a thread waits for. -/
def waits [DecidableEq Key] (hash : Key → UInt64) (w : State Key T) (i : ThreadId) : Option Lock :=
  (w.sessions i).bind fun c => (turn hash .plain w.table c).lock

section Workers

variable {i : ThreadId} {op : TableOp Key T} {hp l : ℕ} {todo split : Finset ℕ}

lemma split_of_mem (hc : w.sessions i = some ⟨op, .migrating hp todo split, []⟩) (hl : l ∈ todo) :
    w.split hash i l = .next ({ w with table := splitLock hash hp l w.table }.setSession i
      (some ⟨op, .migrating hp (todo.erase l) (insert l split), []⟩)) .silent := by
  rw [State.split, hc]
  exact if_pos hl

lemma unlock_of_mem (hc : w.sessions i = some ⟨op, .migrating hp todo split, []⟩)
    (hl : l ∈ split) :
    w.unlock i l = .next ((w.setOwner l none).setSession i
      (some ⟨op, .migrating hp todo (split.erase l), []⟩)) .silent := by
  rw [State.unlock, hc]
  exact if_pos hl

end Workers

section Progress

variable [DecidableEq Key]

/-- A thread that waits for no lock that is taken can go on. -/
lemma Inv.exists_step (h : Inv hash w) {i : ThreadId} {c : Session Key T}
    (hc : w.sessions i = some c) (hfree : ¬ Stuck w.owner (waits hash w) i) :
    ∃ a w' e, a.Continues ∧ w.step hash a = .next w' e := by
  have hadvance : ∀ w' e, w.advance hash i .plain = .next w' e →
      ∃ a w' e, a.Continues ∧ w.step hash a = .next w' e :=
    fun w' e hstep => ⟨.advance i .plain, w', e, trivial, hstep⟩
  have hspec := h.turn_spec hc .plain
  have hwaits : waits hash w i = (turn hash .plain w.table c).lock := by
    rw [waits, hc]
    rfl
  have hstep : w.advance hash i .plain = w.perform i (turn hash .plain w.table c) := by
    rw [State.advance, hc]
  generalize turn hash .plain w.table c = next at hspec hwaits hstep
  cases hspec with
  | @blocked hp todo split hcontrol hunlocking hleft =>
    -- the worker threads have something to do
    obtain ⟨op, control, unlocking⟩ := c
    simp only at hcontrol hunlocking
    subst hcontrol hunlocking
    rcases hleft with hleft | hleft
    · obtain ⟨l, hl⟩ := Finset.nonempty_iff_ne_empty.mpr hleft
      exact ⟨.split i l, _, _, trivial, split_of_mem hc hl⟩
    · obtain ⟨l, hl⟩ := Finset.nonempty_iff_ne_empty.mpr hleft
      exact ⟨.unlock i l, _, _, trivial, unlock_of_mem hc hl⟩
  | fault hch => cases hch
  | @take l c' =>
    have hnone : w.owner l = none := by
      by_contra hne
      exact hfree ⟨l, hwaits, hne⟩
    refine hadvance _ _ (hstep.trans (if_pos ?_))
    rw [hnone]
    rfl
  | give => exact hadvance _ _ hstep
  | work => exact hadvance _ _ hstep
  | finish => exact hadvance _ _ hstep

/-- A thread waits for locks above those it holds. -/
lemma Inv.ascending (h : Inv hash w) : Ascending w.held (waits hash w) := by
  intro i l hl l' hl'
  obtain ⟨c, hc, hturn⟩ := Option.bind_eq_some_iff.mp hl
  have hspec := h.turn_spec hc .plain
  rw [State.held_of_some hc] at hl'
  generalize turn hash .plain w.table c = next at hspec hturn
  cases hspec with
  | take _ _ habove =>
    obtain rfl := Option.some.inj hturn
    exact habove l' hl'
  | _ => cases hturn

omit [DecidableEq Key] in
lemma Inv.finite_taken (h : Inv hash w) : {l | w.owner l ≠ none}.Finite := by
  refine (((Set.finite_Iio maxNumLocks).image ((↑) : ℕ → Lock)).insert ⊥).subset fun l hl => ?_
  have hlt := h.bounded l hl
  induction l using WithBot.recBotCoe with
  | bot => exact .inl rfl
  | coe l => exact .inr ⟨l, WithBot.coe_lt_coe.mp hlt, rfl⟩

/-- **No deadlock.** In every state that any number of threads can get to, as long as a call is in
progress, there is a step that goes on with some call. -/
theorem exists_progress {ts : List (Taken (State Key T) (Action Key T) (Event Key T))}
    (h : (system hash).Run ts w) {i : ThreadId} (hbusy : w.sessions i ≠ none) :
    ∃ a w' e, a.Continues ∧ w.step hash a = .next w' e := by
  have hinv := inv_of_run h
  obtain ⟨c, hc⟩ := Option.ne_none_iff_exists'.mp hbusy
  by_cases hstuck : Stuck w.owner (waits hash w) i
  · -- somebody who has a lock waits for none that is taken
    obtain ⟨j, l, hl, hfree⟩ :=
      exists_not_stuck hinv.owns hinv.ascending hinv.finite_taken hstuck
    cases hc' : w.sessions j with
    | none =>
      rw [State.held, hc'] at hl
      exact absurd hl (Set.notMem_empty l)
    | some c' => exact hinv.exists_step hc' hfree
  · exact hinv.exists_step hc hstuck

/-- The second thread waits for a lock of the first one. -/
theorem exists_progress_twoInsertions :
    ∃ a w' e, a.Continues ∧ (twoThreads 3).step (fun _ => 0) a = .next w' e :=
  exists_progress (System.run_attempt (system fun _ => 0) (twoInsertions 3))
    (show (twoThreads 3).sessions 1 ≠ none from Option.some_ne_none _)

end Progress

/-! ## The lock discipline -/

/-- What a step changes it changes under the locks of its thread. -/
lemma Inv.guarded [DecidableEq Key] (h : Inv hash w) {i : ThreadId} {w' : State Key T}
    {e : Event Key T} (hmoved : Moved hash w i w' e) :
    (∀ p : Position, w'.table.cells p ≠ w.table.cells p →
      ((lockInd p.1 : ℕ) : Lock) ∈ w.held i) ∧
    (w'.table.hashpower ≠ w.table.hashpower →
      ⊥ ∈ w.held i ∧ ∀ l < maxNumLocks, (l : Lock) ∈ w.held i) := by
  have hframed : ∀ {c : Session Key T} {t : Table Key T}, w.sessions i = some c →
      Framed c w.table t → ∀ p : Position, t.cells p ≠ w.table.cells p →
        ((lockInd p.1 : ℕ) : Lock) ∈ w.held i := by
    intro c t hc hframe p hp
    rw [State.held_of_some hc]
    by_contra hnot
    exact hp (hframe p hnot)
  cases hmoved with
  | @split op hp l todo split hc hl =>
    obtain ⟨hhp, h16, hlt, -⟩ := h.sound i _ hc
    have hpending : l ∈ w.pending := ⟨i, by rw [hc]; exact hl⟩
    refine ⟨hframed hc (h.framed_split hc hl), fun hne => absurd ?_ hne⟩
    exact (h.consistent.splitLock hhp h16 (hlt l (.inl hl)) hpending).2.1
  | work hc hworked =>
    cases hworked with
    | moved _ _ _ hhp hframe => exact ⟨hframed hc hframe, fun hne => absurd hhp hne⟩
    | operated _ _ hoperated hframe =>
      exact ⟨hframed hc hframe, fun hne => absurd hoperated.hashpower hne⟩
    | thrown => exact ⟨fun p hp => absurd rfl hp, fun hne => absurd rfl hne⟩
    | enlarged _ _ hall _ hcells =>
      rw [← State.held_of_some hc] at hall
      exact ⟨fun p hp => absurd (congrFun hcells p) hp, fun _ => hall⟩
  | _ => exact ⟨fun p hp => absurd rfl hp, fun hne => absurd rfl hne⟩

/-- **The lock discipline.** In every state that any number of threads can get to, a step changes a
bucket only if its thread is the owner of the lock of the bucket, and the size of the table only if
its thread is the owner of all locks. -/
theorem guarded_by_locks [DecidableEq Key]
    {ts : List (Taken (State Key T) (Action Key T) (Event Key T))} (h : (system hash).Run ts w)
    {a : Action Key T} {w' : State Key T} {e : Event Key T}
    (hstep : w.step hash a = .next w' e) :
    (∀ p : Position, w'.table.cells p ≠ w.table.cells p →
      w.owner (lockInd p.1 : ℕ) = some a.thread) ∧
    (w'.table.hashpower ≠ w.table.hashpower →
      w.owner ⊥ = some a.thread ∧ ∀ l < maxNumLocks, w.owner (l : ℕ) = some a.thread) := by
  have hinv := inv_of_run h
  obtain ⟨hcells, hhp⟩ := hinv.guarded (hinv.moved_of_step hstep)
  refine ⟨fun p hp => (hinv.owns _ _).mpr (hcells p hp), fun hne => ?_⟩
  obtain ⟨hbot, hall⟩ := hhp hne
  exact ⟨(hinv.owns _ _).mpr hbot, fun l hl => (hinv.owns _ _).mpr (hall l hl)⟩

/-- The first thread inserts its key. -/
theorem guarded_by_locks_twoInsertions :
    (∀ p : Position, (twoThreads 5).table.cells p ≠ (twoThreads 4).table.cells p →
      (twoThreads 4).owner (lockInd p.1 : ℕ) = some 0) ∧
    ((twoThreads 5).table.hashpower ≠ (twoThreads 4).table.hashpower →
      (twoThreads 4).owner ⊥ = some 0 ∧
        ∀ l < maxNumLocks, (twoThreads 4).owner (l : ℕ) = some 0) :=
  guarded_by_locks (System.run_attempt (system fun _ => 0) (twoInsertions 4))
    (show (twoThreads 4).step (fun _ => 0) (.advance 0 .plain) = .next (twoThreads 5) .silent
      from rfl)

/-! ## Isolation -/

/-- The same step, as far as the buckets under some locks are concerned. -/
inductive Turn.Alike (held : Set Lock) : Turn Key T → Turn Key T → Prop
  | refl (x : Turn Key T) : Alike held x x
  | work {t t' : Table Key T} (c : Session Key T) (h : AgreeOn held t t') :
      Alike held (.work t c) (.work t' c)

section Alike

variable {t t' : Table Key T} {held : Set Lock} {c : Session Key T} {s : Snapshot}

lemma AgreeOn.buckets (h : AgreeOn held t t') {b : ℕ} (hb : ((lockInd b : ℕ) : Lock) ∈ held) :
    t'.buckets b = t.buckets b :=
  funext fun slot => h.cells (b, slot) hb

/-- What one cell holds is replaced in both tables. -/
lemma AgreeOn.update {u u' : Table Key T} (h : AgreeOn held t t') (hhp : u.hashpower = t.hashpower)
    (hhp' : u'.hashpower = t'.hashpower) {p : Position} {o : Option (Entry Key T)}
    (hu : u.cells = Function.update t.cells p o) (hu' : u'.cells = Function.update t'.cells p o) :
    AgreeOn held u u' := by
  refine ⟨by rw [hhp, hhp', h.hashpower], fun q hq => ?_⟩
  rw [hu, hu']
  by_cases hqp : q = p
  · rw [hqp, Function.update_self, Function.update_self]
  · rw [Function.update_of_ne hqp, Function.update_of_ne hqp]
    exact h.cells q hq

lemma AgreeOn.visit (h : AgreeOn held t t') (op : TableOp Key T) (p : Position)
    (e : Entry Key T) : AgreeOn held (visit t op p e).1 (visit t' op p e).1 := by
  refine h.update ?_ ?_ (cells_visit p e) (cells_visit p e)
  all_goals
    rw [Concurrent.visit]
    cases op.found e.val with
    | mk o r => cases o <;> rfl

lemma AgreeOn.add (h : AgreeOn held t t') (op : TableOp Key T) (p : Position) :
    AgreeOn held (add hash t op p) (add hash t' op p) := by
  rw [Concurrent.add, Concurrent.add]
  cases op.missing.1 with
  | none => exact h
  | some val => exact h.update rfl rfl (cells_addToBucket ..) (cells_addToBucket ..)

lemma AgreeOn.moveToBucket (h : AgreeOn held t t') {p q : Position}
    (hp : ((lockInd p.1 : ℕ) : Lock) ∈ held) :
    AgreeOn held (t.moveToBucket p q) (t'.moveToBucket p q) := by
  have hmid : AgreeOn held (t.setSlot q (t.cells p)) (t'.setSlot q (t'.cells p)) := by
    rw [h.cells p hp]
    exact h.update rfl rfl (cells_setSlot ..) (cells_setSlot ..)
  exact hmid.update rfl rfl (cells_setSlot ..) (cells_setSlot ..)

lemma AgreeOn.enlarge (h : AgreeOn held t t') : AgreeOn held t.enlarge t'.enlarge := by
  refine ⟨congrArg (· + 1) h.hashpower, fun q hq => ?_⟩
  show (if q.1 < hashsize t'.hashpower then t'.buckets q.1 else fun _ => none) q.2
    = (if q.1 < hashsize t.hashpower then t.buckets q.1 else fun _ => none) q.2
  rw [h.hashpower, h.buckets hq]

variable [DecidableEq Key]

lemma AgreeOn.cuckooFind (h : AgreeOn held t t') {i1 i2 : ℕ}
    (h1 : ((lockInd i1 : ℕ) : Lock) ∈ held) (h2 : ((lockInd i2 : ℕ) : Lock) ∈ held) (key : Key)
    (tag : UInt8) : t'.cuckooFind key tag i1 i2 = t.cuckooFind key tag i1 i2 := by
  rw [Table.cuckooFind, Table.cuckooFind, h.buckets h1, h.buckets h2]

lemma AgreeOn.site (h : AgreeOn held t t') (h1 : ((lockInd s.i1 : ℕ) : Lock) ∈ held)
    (h2 : ((lockInd s.i2 : ℕ) : Lock) ∈ held) (op : TableOp Key T) :
    site hash t' op s = site hash t op s := by
  cases op with
  | upsert key fn val => simp only [Concurrent.site, h.buckets h1, h.buckets h2]
  | _ => simp only [Concurrent.site, h.cuckooFind h1 h2]

/-- What is done with the locks of a task. -/
lemma runTask_alike {ch : Chance} {task : Task}
    (hsited : task = .operate → Sited t c.op s (site hash t c.op s))
    (htask : task.Sound c.op s) (hheld : held = locksOf (task.locks s))
    (h : AgreeOn held t t') :
    (runTask hash ch t c s task).Alike held (runTask hash ch t' c s task) := by
  have hmem : ∀ {b}, lockInd b ∈ task.locks s → ((lockInd b : ℕ) : Lock) ∈ held := by
    intro b hb
    rw [hheld]
    exact mem_locksOf.mpr hb
  cases task with
  | operate =>
    have h1 := hmem (mem_lockTwo.mpr (.inl rfl))
    have h2 := hmem (mem_lockTwo.mpr (.inr rfl))
    replace hsited := hsited rfl
    simp only [runTask, h.site h1 h2]
    generalize site hash t c.op s = place at hsited ⊢
    cases hsited with
    | @found p e hp hk hb =>
      have hlock : ((lockInd p.1 : ℕ) : Lock) ∈ held := by
        rcases hb with hb | hb
        · rwa [hb]
        · rwa [hb]
      simp only [h.cells p hlock, hp, visit_snd]
      exact .work _ (h.visit c.op p e)
    | free => exact .work _ (h.add c.op _)
    | absent => exact .work _ h
    | crowded => exact .work _ h
  | inspect x i q =>
    simp only [runTask, h.buckets (hmem (List.mem_singleton_self _))]
    split <;> exact .work _ h
  | follow bucket slot rest seen =>
    simp only [runTask, h.buckets (hmem (List.mem_singleton_self _))]
    split <;> exact .work _ h
  | settle first =>
    have hlock : ((lockInd first.bucket : ℕ) : Lock) ∈ held := by
      refine hmem (mem_lockTwo.mpr ?_)
      rcases htask.2 with hb | hb
      · exact .inl (congrArg lockInd hb)
      · exact .inr (congrArg lockInd hb)
    simp only [runTask, h.buckets hlock]
    split <;> exact .work _ h
  | displace target source rest =>
    obtain ⟨htarget, hsource⟩ := mem_locks_displace htask.2
    simp only [runTask, h.buckets (hmem htarget), h.buckets (hmem hsource)]
    split
    · split_ifs
      · exact .work _ h
      · exact .refl _
    · split_ifs
      · exact .work _ h
      · have hmoved : AgreeOn held
            (t.moveToBucket (source.bucket, source.slot) (target.bucket, target.slot))
            (t'.moveToBucket (source.bucket, source.slot) (target.bucket, target.slot)) :=
          h.moveToBucket (hmem hsource)
        cases rest with
        | nil => exact .work _ hmoved
        | cons source' rest => exact .work _ hmoved

/-- The step a thread takes depends on the buckets under its locks only. -/
lemma Inv.turn_alike {w : State Key T} (hinv : Inv hash w) {i : ThreadId}
    (hc : w.sessions i = some c) (h : AgreeOn c.held w.table t') (ch : Chance) :
    (turn hash ch w.table c).Alike c.held (turn hash ch t' c) := by
  have hsound := hinv.sound i c hc
  have hown : c.control.pending = ∅ → ∀ l : ℕ, (l : Lock) ∈ c.held → l ∉ w.pending :=
    fun hpending _ hl => hinv.notMem_pending hc hpending hl
  unfold turn
  split
  · exact .refl _
  · next hunlocking =>
    unfold runControl
    split <;> rename_i hcontrol
    all_goals rw [hcontrol] at hsound hown
    · -- start
      rw [Table.bucketIndices, Table.bucketIndices, h.hashpower]
      exact .work _ h
    · -- locking
      rename_i s task taken
      split
      · exact .refl _
      · next hdone =>
        obtain ⟨hs, htask, -, hhp⟩ := hsound
        have hheld : c.held = locksOf (task.locks s) := by
          rw [Session.held_of_nil hunlocking, hcontrol]
          show locksOf ((task.locks s).take taken) = _
          rw [List.take_of_length_le (List.getElem?_eq_none_iff.mp hdone)]
        refine runTask_alike (fun htask => ?_) htask hheld h
        rw [htask] at hheld
        refine site_spec hinv.consistent hs (hhp (taken_pos hdone)) (hown rfl _ ?_) (hown rfl _ ?_)
        · rw [hheld]
          exact mem_locksOf.mpr (mem_lockTwo.mpr (.inl rfl))
        · rw [hheld]
          exact mem_locksOf.mpr (mem_lockTwo.mpr (.inr rfl))
    · rw [h.hashpower]
      split_ifs
      · exact .work _ h
      · exact .work _ h
    · -- freed
      rename_i s p
      obtain ⟨hs, hop, hhp, hb, hfree⟩ := hsound
      have hlock : ∀ {b}, b = s.i1 ∨ b = s.i2 → ((lockInd b : ℕ) : Lock) ∈ c.held := by
        intro b hb
        rw [Session.held_of_nil hunlocking, hcontrol]
        refine mem_locksOf.mpr (mem_unlockTwo.mpr ?_)
        rcases hb with rfl | rfl
        · exact .inl rfl
        · exact .inr rfl
      rw [h.cuckooFind (hlock (.inl rfl)) (hlock (.inr rfl))]
      split
      · next p' hfind =>
        rw [h.cells p' (hlock (cuckooFind_bucket hfind))]
        split
        · simp only [visit_snd]
          exact .work _ (h.visit c.op p' _)
        · exact .refl _
      · exact .work _ (h.add c.op p)
    · exact .refl _
    · rw [h.hashpower]
      split_ifs <;> exact .work _ h
    · -- lockingAll
      rw [numLocks_eq, numLocks_eq, h.hashpower]
      split_ifs
      · exact .refl _
      · exact .work _ h.enlarge
      · exact .work _ h
    · rw [numLocks_eq, numLocks_eq]
      split_ifs
      · exact .work _ h
      · exact .refl _
    · exact .refl _

end Alike

/-- What another thread does leaves the call of a thread where it is, and the buckets under its
locks as they are. -/
lemma Inv.untouched [DecidableEq Key] (h : Inv hash w) {i j : ThreadId} {w' : State Key T}
    {e : Event Key T} (hij : i ≠ j) (hmoved : Moved hash w j w' e) {c : Session Key T}
    (hc : w.sessions i = some c) :
    w'.sessions i = some c ∧ (c.held = ∅ ∨ AgreeOn c.held w.table w'.table) := by
  have hstay : ∀ c', Function.update w.sessions j c' i = some c := by
    intro c'
    rw [Function.update_of_ne hij, hc]
  cases hmoved with
  | invoke => exact ⟨hstay _, .inr (.refl _ _)⟩
  | take => exact ⟨hstay _, .inr (.refl _ _)⟩
  | give => exact ⟨hstay _, .inr (.refl _ _)⟩
  | finish => exact ⟨hstay _, .inr (.refl _ _)⟩
  | unlock => exact ⟨hstay _, .inr (.refl _ _)⟩
  | split hc' hl =>
    refine ⟨hstay _, .inr (h.agreeOn_of_framed hij hc' hc ?_ (h.framed_split hc' hl))⟩
    obtain ⟨hhp, h16, hlt, -⟩ := h.sound j _ hc'
    refine (h.consistent.splitLock hhp h16 (hlt _ (.inl hl)) ⟨j, ?_⟩).2.1
    rw [hc']
    exact hl
  | work hc' hworked =>
    refine ⟨hstay _, ?_⟩
    cases hworked with
    | moved _ _ _ hhp hframe => exact .inr (h.agreeOn_of_framed hij hc' hc hhp hframe)
    | operated _ _ hoperated hframe =>
      exact .inr (h.agreeOn_of_framed hij hc' hc hoperated.hashpower hframe)
    | thrown => exact .inr (.refl _ _)
    | enlarged _ _ hall =>
      -- whoever swaps the bucket arrays is alone
      rw [← State.held_of_some hc'] at hall
      rw [← State.held_of_some hc]
      exact .inl (h.held_eq_empty hij hall)

/-- **Isolation.** In every state that any number of threads can get to, a step of one thread
does not change what another thread does next, as far as that one holds locks: its next step is
the one it would have taken before, with the same outcome in the buckets under its locks. -/
theorem isolated [DecidableEq Key]
    {ts : List (Taken (State Key T) (Action Key T) (Event Key T))} (h : (system hash).Run ts w)
    {a : Action Key T} {w' : State Key T} {e : Event Key T} (hstep : w.step hash a = .next w' e)
    {i : ThreadId} (hi : i ≠ a.thread) {c : Session Key T} (hc : w.sessions i = some c) :
    w'.sessions i = some c ∧ (c.held.Nonempty → ∀ ch,
      (turn hash ch w.table c).Alike c.held (turn hash ch w'.table c)) := by
  have hinv := inv_of_run h
  obtain ⟨hstay, hagree⟩ := hinv.untouched hi (hinv.moved_of_step hstep) hc
  refine ⟨hstay, fun hheld ch => ?_⟩
  rcases hagree with hempty | hagree
  · exact absurd hempty hheld.ne_empty
  · exact hinv.turn_alike hc hagree ch

/-- A third thread begins a call while the first one has a lock. -/
theorem isolated_twoInsertions :
    ((twoThreads 2).setSession 2 (some ⟨.findFn 0 .ok, .start, []⟩)).sessions 0
        = some ⟨.upsert 0 .ok 7, .checking ⟨16, 0, 0xe995⟩ .operate, []⟩ ∧
      ((⟨.upsert 0 .ok 7, .checking ⟨16, 0, 0xe995⟩ .operate, []⟩ : Session ℕ ℕ).held.Nonempty →
        ∀ ch, (turn (fun _ => 0) ch (twoThreads 2).table
            ⟨.upsert 0 .ok 7, .checking ⟨16, 0, 0xe995⟩ .operate, []⟩).Alike
          (Session.held ⟨.upsert 0 .ok 7, .checking ⟨16, 0, 0xe995⟩ .operate, []⟩)
          (turn (fun _ => 0) ch
            ((twoThreads 2).setSession 2 (some ⟨.findFn 0 .ok, .start, []⟩)).table
            ⟨.upsert 0 .ok 7, .checking ⟨16, 0, 0xe995⟩ .operate, []⟩)) :=
  isolated (System.run_attempt (system fun _ => 0) (twoInsertions 2))
    (show (twoThreads 2).step (fun _ => 0) (.invoke 2 (.findFn 0 .ok)) = .next _ _ from rfl)
    (show (0 : ThreadId) ≠ 2 by decide) rfl

end Jakilid.Cuckoo.Concurrent
