import Jakilid.Cuckoo.TurnTheorems

/-!
# The hash table under any interleaving

`Inv` is what holds between any two steps of the threads: each lock has the owner that holds it,
every thread is where it may be, and the table is consistent but for the buckets that are still to
be distributed. `Moved` says what a step of the system is, and `Inv.moved` that it keeps `Inv`.

So it holds at every moment of every run. The results about runs rest on it: that the table is
linearizable, that the threads do not block each other for ever, and that no thread sees what
another one does to buckets it works on.
-/

namespace Jakilid.Cuckoo.Concurrent

open CellStore Locks Table Transition

variable {Key T : Type}

/-! ## The invariant -/

/-- The locks of a thread. -/
def heldOf (c : Option (Session Key T)) : Set Lock := c.elim ∅ Session.held

/-- The locks whose buckets a thread is still to distribute. -/
def pendingOf (c : Option (Session Key T)) : Finset ℕ := c.elim ∅ fun c => c.control.pending

namespace State

def held (w : State Key T) (i : ThreadId) : Set Lock := heldOf (w.sessions i)

def pending (w : State Key T) : Set ℕ := {l | ∃ i, l ∈ pendingOf (w.sessions i)}

variable {w : State Key T} {i : ThreadId}

lemma held_of_some {c : Session Key T} (h : w.sessions i = some c) : w.held i = c.held := by
  rw [held, h]
  rfl

/-- The pending locks are those of the only thread that has any. -/
lemma pending_eq (h : ∀ j, j ≠ i → pendingOf (w.sessions j) = ∅) :
    w.pending = ↑(pendingOf (w.sessions i)) := by
  ext l
  constructor
  · rintro ⟨j, hl⟩
    by_cases hj : j = i
    · rwa [← hj]
    · rw [h j hj] at hl
      exact absurd hl (Finset.notMem_empty l)
  · exact fun hl => ⟨i, hl⟩

/-- A thread goes on that has no pending locks. -/
lemma pending_update {t : Table Key T} {owner : Lock → Option ThreadId}
    {c : Option (Session Key T)} (h : pendingOf c = pendingOf (w.sessions i)) :
    State.pending ⟨t, owner, Function.update w.sessions i c⟩ = w.pending := by
  ext l
  refine exists_congr fun j => ?_
  by_cases hj : j = i
  · rw [hj]
    show l ∈ pendingOf (Function.update w.sessions i c i) ↔ _
    rw [Function.update_self, h]
  · show l ∈ pendingOf (Function.update w.sessions i c j) ↔ _
    rw [Function.update_of_ne hj]

lemma held_update {t : Table Key T} {owner : Lock → Option ThreadId} (i : ThreadId)
    (c : Option (Session Key T)) :
    State.held ⟨t, owner, Function.update w.sessions i c⟩ = Function.update w.held i (heldOf c) := by
  funext j
  by_cases hj : j = i
  · rw [hj, Function.update_self]
    show heldOf (Function.update w.sessions i c i) = _
    rw [Function.update_self]
  · rw [Function.update_of_ne hj]
    show heldOf (Function.update w.sessions i c j) = _
    rw [Function.update_of_ne hj]
    rfl

end State

/-- What holds between two steps. -/
structure Inv (hash : Key → UInt64) (w : State Key T) : Prop where
  owns : Owns w.owner w.held
  bounded : ∀ l, w.owner l ≠ none → l < (maxNumLocks : Lock)
  tidy : ∀ i c, w.sessions i = some c → c.Tidy
  sound : ∀ i c, w.sessions i = some c → c.control.Sound hash c.op w.table
  consistent : Consistent hash w.table w.pending

section Invariant

variable {hash : Key → UInt64} {w : State Key T}

/-- A thread with pending locks has `expansion_lock_`. -/
lemma bot_mem_held_of_pending {c : Session Key T} (h : c.control.pending ≠ ∅) : ⊥ ∈ c.held := by
  refine .inr ?_
  cases hcontrol : c.control with
  | migrating hp pending split => exact Set.mem_insert _ _
  | _ =>
    rw [hcontrol] at h
    exact absurd rfl h

namespace Inv

/-- While a thread has `expansion_lock_`, the others have no pending locks. -/
lemma pendingOf_eq_empty (h : Inv hash w) {i j : ThreadId} (hij : j ≠ i) (hi : ⊥ ∈ w.held i) :
    pendingOf (w.sessions j) = ∅ := by
  by_contra hne
  cases hc : w.sessions j with
  | none =>
    rw [hc] at hne
    exact hne rfl
  | some c =>
    rw [hc] at hne
    have hj : ⊥ ∈ w.held j := by
      rw [State.held_of_some hc]
      exact bot_mem_held_of_pending hne
    exact Set.disjoint_left.mp (h.owns.disjoint hij) hj hi

/-- A pending lock is held by the thread that distributes its buckets. -/
lemma notMem_pending (h : Inv hash w) {i : ThreadId} {c : Session Key T}
    (hc : w.sessions i = some c) (hpending : c.control.pending = ∅) {l : ℕ}
    (hl : (l : Lock) ∈ c.held) : l ∉ w.pending := by
  rintro ⟨j, hj⟩
  by_cases hij : j = i
  · rw [hij, hc] at hj
    change l ∈ c.control.pending at hj
    rw [hpending] at hj
    exact absurd hj (Finset.notMem_empty l)
  · cases hc' : w.sessions j with
    | none =>
      rw [hc'] at hj
      exact absurd hj (Finset.notMem_empty l)
    | some c' =>
      rw [hc'] at hj
      change l ∈ c'.control.pending at hj
      have hheld : (l : Lock) ∈ w.held j := by
        rw [State.held_of_some hc']
        refine .inr ?_
        cases hcontrol : c'.control with
        | migrating hp pending split =>
          rw [hcontrol] at hj
          exact .inr ⟨l, .inl hj, rfl⟩
        | _ =>
          rw [hcontrol] at hj
          exact absurd hj (Finset.notMem_empty l)
      rw [← State.held_of_some hc] at hl
      exact Set.disjoint_left.mp (h.owns.disjoint hij) hheld hl

lemma turn_spec [DecidableEq Key] (h : Inv hash w) {i : ThreadId} {c : Session Key T}
    (hc : w.sessions i = some c) (ch : Chance) :
    TurnSpec hash w.pending ch w.table c (turn hash ch w.table c) :=
  Concurrent.turn_spec h.consistent (h.sound i c hc) (h.tidy i c hc) fun hpending _ hl =>
    h.notMem_pending hc hpending hl

end Inv

/-! ## What a step is -/

/-- The thread that takes a step, or whose workers do. -/
def Action.thread : Action Key T → ThreadId
  | .invoke i _ => i
  | .advance i _ => i
  | .split i _ => i
  | .unlock i _ => i

/-- A step of a thread. -/
inductive Moved [DecidableEq Key] (hash : Key → UInt64) (w : State Key T) (i : ThreadId) :
    State Key T → Event Key T → Prop
  | invoke {op : TableOp Key T} (hidle : w.sessions i = none) :
      Moved hash w i (w.setSession i (some ⟨op, .start, []⟩)) (.invoked i op)
  | take {l : Lock} {c c' : Session Key T} (hc : w.sessions i = some c)
      (hfree : w.owner l = none) (hkept : Kept hash w.table c c')
      (hheld : c'.held = insert l c.held) (hlt : l < (maxNumLocks : Lock))
      (hresult : c'.control.result = none ∧ c.control.result = none)
      (hpending : c'.control.pending = ∅ ∧ c.control.pending = ∅) :
      Moved hash w i ((w.setOwner l (some i)).setSession i (some c')) .silent
  | give {l : Lock} {c c' : Session Key T} (hc : w.sessions i = some c)
      (hkept : Kept hash w.table c c') (hl : l ∈ c.held) (hheld : c'.held = c.held \ {l})
      (hcontrol : c'.control = c.control) :
      Moved hash w i ((w.setOwner l none).setSession i (some c')) .silent
  | work {t : Table Key T} {c c' : Session Key T} (hc : w.sessions i = some c)
      (hworked : Worked hash w.pending w.table c t c') (hresult : c.control.result = none)
      (hpending : c.control.pending = ∅) :
      Moved hash w i ({ w with table := t }.setSession i (some c')) .silent
  | finish {c : Session Key T} {r : Except Exn (Response T)}
      (hc : w.sessions i = some c) (hcontrol : c.control = .finished r) (hheld : c.held = ∅) :
      Moved hash w i (w.setSession i none) (.responded i r)
  | split {op : TableOp Key T} {hp l : ℕ} {todo split : Finset ℕ}
      (hc : w.sessions i = some ⟨op, .migrating hp todo split, []⟩) (hl : l ∈ todo) :
      Moved hash w i
        ({ w with table := splitLock hash hp l w.table }.setSession i
          (some ⟨op, .migrating hp (todo.erase l) (insert l split), []⟩)) .silent
  | unlock {op : TableOp Key T} {hp l : ℕ} {todo split : Finset ℕ}
      (hc : w.sessions i = some ⟨op, .migrating hp todo split, []⟩) (hl : l ∈ split) :
      Moved hash w i
        ((w.setOwner l none).setSession i (some ⟨op, .migrating hp todo (split.erase l), []⟩))
        .silent

variable [DecidableEq Key] {w' : State Key T} {e : Event Key T}

lemma Inv.moved_of_step (h : Inv hash w) {a : Action Key T}
    (hstep : w.step hash a = .next w' e) : Moved hash w a.thread w' e := by
  cases a with
  | invoke i op =>
    change w.invoke i op = .next w' e at hstep
    unfold State.invoke at hstep
    split at hstep
    · next hidle =>
      cases hstep
      exact .invoke hidle
    · cases hstep
  | advance i ch =>
    change w.advance hash i ch = .next w' e at hstep
    unfold State.advance at hstep
    split at hstep
    · cases hstep
    · next c hc =>
      have hspec := h.turn_spec hc ch
      revert hspec hstep
      generalize turn hash ch w.table c = turn
      intro hstep hspec
      cases hspec with
      | blocked => cases hstep
      | fault => cases hstep
      | @take l c' hkept hheld _ hlt hresult hpending =>
        simp only [State.perform] at hstep
        split_ifs at hstep with hfree
        cases hstep
        exact .take hc (Option.isNone_iff_eq_none.mp hfree) hkept hheld hlt hresult hpending
      | give hkept hl hheld hcontrol =>
        cases hstep
        exact .give hc hkept hl hheld hcontrol
      | work hworked hresult hpending =>
        cases hstep
        exact .work hc hworked hresult hpending
      | finish hcontrol hheld =>
        cases hstep
        exact .finish hc hcontrol hheld
  | split i l =>
    change w.split hash i l = .next w' e at hstep
    unfold State.split at hstep
    split at hstep
    · next hc =>
      split_ifs at hstep with hl
      cases hstep
      exact .split hc hl
    · cases hstep
  | unlock i l =>
    change w.unlock i l = .next w' e at hstep
    unfold State.unlock at hstep
    split at hstep
    · next hc =>
      split_ifs at hstep with hl
      cases hstep
      exact .unlock hc hl
    · cases hstep

/-! ## The invariant is kept -/

omit [DecidableEq Key] in
lemma Inv.sound_of_agreeOn (h : Inv hash w) {j : ThreadId} {c : Session Key T}
    (hc : w.sessions j = some c) {t : Table Key T} (hagree : AgreeOn c.held w.table t) :
    c.control.Sound hash c.op t :=
  (h.sound j c hc).frame ⟨hagree.hashpower, fun q hq => hagree.cells q (.inr hq)⟩

omit [DecidableEq Key] in
/-- The state of a thread is another one. -/
lemma Inv.update (h : Inv hash w) {i : ThreadId} {t : Table Key T}
    {owner : Lock → Option ThreadId} {c' : Option (Session Key T)}
    (howns : Owns owner (Function.update w.held i (heldOf c')))
    (hbounded : ∀ l, owner l ≠ none → l < (maxNumLocks : Lock))
    (hself : ∀ c ∈ c', c.Tidy ∧ c.control.Sound hash c.op t)
    (hothers : ∀ j c, j ≠ i → w.sessions j = some c → c.control.Sound hash c.op t)
    (hconsistent : Consistent hash t
      (State.pending ⟨t, owner, Function.update w.sessions i c'⟩)) :
    Inv hash ⟨t, owner, Function.update w.sessions i c'⟩ := by
  refine ⟨?_, hbounded, fun j c hc => ?_, fun j c hc => ?_, hconsistent⟩
  · rw [State.held_update]
    exact howns
  · by_cases hj : j = i
    · rw [hj] at hc
      exact (hself c (Function.update_self i c' w.sessions ▸ hc)).1
    · exact h.tidy j c (Function.update_of_ne hj c' w.sessions ▸ hc)
  · by_cases hj : j = i
    · rw [hj] at hc
      exact (hself c (Function.update_self i c' w.sessions ▸ hc)).2
    · exact hothers j c hj (Function.update_of_ne hj c' w.sessions ▸ hc)

omit [DecidableEq Key] in
/-- A call goes on, with the pending locks it has. -/
lemma Inv.kept (h : Inv hash w) {i : ThreadId} {t : Table Key T}
    {owner : Lock → Option ThreadId} {c c' : Session Key T} (hc : w.sessions i = some c)
    (howns : Owns owner (Function.update w.held i c'.held))
    (hbounded : ∀ l, owner l ≠ none → l < (maxNumLocks : Lock)) (hkept : Kept hash t c c')
    (hothers : ∀ j c, j ≠ i → w.sessions j = some c → c.control.Sound hash c.op t)
    (hpending : c'.control.pending = c.control.pending) (hconsistent : Consistent hash t w.pending) :
    Inv hash ⟨t, owner, Function.update w.sessions i (some c')⟩ := by
  refine h.update howns hbounded (fun c'' hc'' => ?_) hothers ?_
  · obtain rfl := Option.some.inj hc''
    exact ⟨hkept.tidy, hkept.sound⟩
  · rwa [State.pending_update]
    rw [hc]
    exact hpending

omit [DecidableEq Key] in
/-- The other threads are not disturbed by what happens under the locks of this one. -/
lemma Inv.agreeOn_of_framed (h : Inv hash w) {i j : ThreadId} {c c' : Session Key T} (hij : j ≠ i)
    (hc : w.sessions i = some c) (hc' : w.sessions j = some c') {t : Table Key T}
    (hhp : t.hashpower = w.table.hashpower) (hframe : Framed c w.table t) :
    AgreeOn c'.held w.table t := by
  refine ⟨hhp, fun q hq => hframe q fun hq' => ?_⟩
  rw [← State.held_of_some hc] at hq'
  rw [← State.held_of_some hc'] at hq
  exact Set.disjoint_left.mp (h.owns.disjoint hij) hq hq'

omit [DecidableEq Key] in
/-- Who has all locks is the only one to have any. -/
lemma Inv.held_eq_empty (h : Inv hash w) {i j : ThreadId} (hij : j ≠ i)
    (hall : ⊥ ∈ w.held i ∧ ∀ l < maxNumLocks, (l : Lock) ∈ w.held i) : w.held j = ∅ := by
  refine Set.eq_empty_of_forall_notMem fun l hl => ?_
  have hlt : l < (maxNumLocks : Lock) := by
    apply h.bounded
    rw [(h.owns l j).mpr hl]
    exact Option.some_ne_none j
  refine Set.disjoint_left.mp (h.owns.disjoint hij) hl ?_
  induction l using WithBot.recBotCoe with
  | bot => exact hall.1
  | coe l => exact hall.2 l (WithBot.coe_lt_coe.mp hlt)

omit [DecidableEq Key] in
lemma Inv.bounded_give (h : Inv hash w) (l : Lock) :
    ∀ l', Function.update w.owner l none l' ≠ none → l' < (maxNumLocks : Lock) := by
  intro l' hl'
  by_cases hll : l' = l
  · rw [hll, Function.update_self] at hl'
    exact absurd rfl hl'
  · rw [Function.update_of_ne hll] at hl'
    exact h.bounded l' hl'

lemma Inv.worked (h : Inv hash w) {i : ThreadId} {t : Table Key T} {c c' : Session Key T}
    (hc : w.sessions i = some c) (hworked : Worked hash w.pending w.table c t c')
    (hpending : c.control.pending = ∅) :
    Inv hash ({ w with table := t }.setSession i (some c')) := by
  have hheld := State.held_of_some hc
  cases hworked with
  | moved hkept hheld' hconsistent hhp hframe _ _ hpending' =>
    exact h.kept hc (h.owns.keep (hheld'.trans hheld.symm)) h.bounded hkept
      (fun j c'' hj hc'' => h.sound_of_agreeOn hc'' (h.agreeOn_of_framed hj hc hc'' hhp hframe))
      (hpending'.trans hpending.symm) hconsistent
  | operated hkept hheld' hoperated hframe _ hpending' =>
    exact h.kept hc (h.owns.keep (hheld'.trans hheld.symm)) h.bounded hkept
      (fun j c'' hj hc'' => h.sound_of_agreeOn hc''
        (h.agreeOn_of_framed hj hc hc'' hoperated.hashpower hframe))
      (hpending'.trans hpending.symm) hoperated.consistent
  | thrown hkept hheld' _ _ _ hpending' =>
    exact h.kept hc (h.owns.keep (hheld'.trans hheld.symm)) h.bounded hkept
      (fun j c'' _ hc'' => h.sound j c'' hc'') (hpending'.trans hpending.symm) h.consistent
  | enlarged hkept hheld' hall hconsistent _ _ hpending' =>
    rw [← hheld] at hall
    refine h.update (h.owns.keep (hheld'.trans hheld.symm)) h.bounded (fun c'' hc'' => ?_) ?_ ?_
    · obtain rfl := Option.some.inj hc''
      exact ⟨hkept.tidy, hkept.sound⟩
    · -- the others hold nothing, so they rely on nothing
      intro j c'' hj hc''
      refine (h.sound j c'' hc'').of_held ?_ _
      have hempty := h.held_eq_empty hj hall
      rw [State.held_of_some hc''] at hempty
      exact (Set.union_empty_iff.mp hempty).2
    · rw [State.pending_eq (i := i) fun j hj => ?_]
      · show Consistent hash w.table.enlarge ↑(pendingOf (Function.update w.sessions i (some c') i))
        rw [Function.update_self]
        show Consistent hash w.table.enlarge ↑c'.control.pending
        rw [hpending', Finset.coe_range]
        exact hconsistent
      · show pendingOf (Function.update w.sessions i (some c') j) = ∅
        rw [Function.update_of_ne hj]
        exact h.pendingOf_eq_empty hj hall.1

omit [DecidableEq Key] in
/-- What a worker thread does happens under a lock of the thread it works for. -/
lemma Inv.framed_split (h : Inv hash w) {i : ThreadId} {op : TableOp Key T} {hp l : ℕ}
    {todo split : Finset ℕ} (hc : w.sessions i = some ⟨op, .migrating hp todo split, []⟩)
    (hl : l ∈ todo) :
    Framed (⟨op, .migrating hp todo split, []⟩ : Session Key T) w.table
      (splitLock hash hp l w.table) := by
  obtain ⟨-, h16, hlt, -⟩ := h.sound i _ hc
  intro q hq
  refine cells_splitLock h16 (hlt l (.inl hl)) w.table ?_
  rintro rfl
  exact hq (.inr (mem_held_migrating.mpr (.inl hl)))

omit [DecidableEq Key] in
/-- The buckets of a lock are distributed. -/
lemma Inv.split (h : Inv hash w) {i : ThreadId} {op : TableOp Key T} {hp l : ℕ}
    {todo split : Finset ℕ} (hc : w.sessions i = some ⟨op, .migrating hp todo split, []⟩)
    (hl : l ∈ todo) :
    Inv hash ({ w with table := splitLock hash hp l w.table }.setSession i
      (some ⟨op, .migrating hp (todo.erase l) (insert l split), []⟩)) := by
  obtain ⟨hhp, h16, hlt, hdisj⟩ := h.sound i _ hc
  have hheld := State.held_of_some hc
  have hbot : ⊥ ∈ w.held i := by
    rw [hheld]
    exact .inr (Set.mem_insert _ _)
  have hpending : w.pending = ↑todo := by
    rw [State.pending_eq fun j hj => h.pendingOf_eq_empty hj hbot, hc]
    rfl
  have hmem : ∀ k, k ∈ todo.erase l ∨ k ∈ insert l split ↔ k ∈ todo ∨ k ∈ split := by
    intro k
    simp only [Finset.mem_erase, Finset.mem_insert]
    by_cases hk : k = l
    · simp [hk, hl]
    · simp [hk]
  obtain ⟨hconsistent, hhp', hholds⟩ := h.consistent.splitLock hhp h16 (hlt l (.inl hl))
    (by rw [hpending]; exact hl)
  refine h.update (h.owns.keep ?_) h.bounded (fun c hc' => ?_) (fun j c hj hc' => ?_) ?_
  · rw [hheld]
    show {l' | l' ∈ []} ∪ insert ⊥ {l' | _} = {l' | l' ∈ []} ∪ insert ⊥ {l' | _}
    simp only [hmem]
  · obtain rfl := Option.some.inj hc'
    refine ⟨Session.tidy_of_nil rfl, hhp'.trans hhp, h16, ?_, ?_⟩
    · intro k hk
      exact hlt k ((hmem k).mp hk)
    · rw [Finset.disjoint_insert_right]
      exact ⟨Finset.notMem_erase l todo, hdisj.mono_left (Finset.erase_subset l todo)⟩
  · exact h.sound_of_agreeOn hc' (h.agreeOn_of_framed hj hc hc' hhp' (h.framed_split hc hl))
  · rw [State.pending_eq (i := i) fun j hj => ?_]
    · show Consistent hash _ ↑(pendingOf (Function.update w.sessions i _ i))
      rw [Function.update_self]
      show Consistent hash _ ↑(todo.erase l)
      rw [Finset.coe_erase, ← hpending]
      exact hconsistent
    · show pendingOf (Function.update w.sessions i _ j) = ∅
      rw [Function.update_of_ne hj]
      exact h.pendingOf_eq_empty hj hbot

/-- **Every step keeps the invariant.** -/
theorem Inv.moved (h : Inv hash w) {i : ThreadId} (hmoved : Moved hash w i w' e) : Inv hash w' := by
  cases hmoved with
  | @invoke op hidle =>
    have hheld : w.held i = ∅ := by
      rw [State.held, hidle]
      rfl
    refine h.update (h.owns.keep ?_) h.bounded (fun c hc => ?_) (fun j c _ hc => h.sound j c hc) ?_
    · rw [hheld]
      exact Session.held_of_nil rfl
    · obtain rfl := Option.some.inj hc
      exact ⟨Session.tidy_of_nil rfl, trivial⟩
    · rw [State.pending_update (by rw [hidle]; rfl)]
      exact h.consistent
  | @take l c c' hc hfree hkept hheld hlt hresult hpending =>
    refine h.kept hc (h.owns.take hfree ?_) ?_ hkept (fun j c _ hc => h.sound j c hc)
      (hpending.1.trans hpending.2.symm) h.consistent
    · rw [State.held_of_some hc]
      exact hheld
    · intro l' hl'
      by_cases hll : l' = l
      · rw [hll]
        exact hlt
      · exact h.bounded l' (Function.update_of_ne hll (some i) w.owner ▸ hl')
  | @give l c c' hc hkept hl hheld hcontrol =>
    rw [← State.held_of_some hc] at hl hheld
    exact h.kept hc (h.owns.give hl hheld) (h.bounded_give l) hkept
      (fun j c _ hc => h.sound j c hc) (congrArg Control.pending hcontrol) h.consistent
  | work hc hworked _ hpending => exact h.worked hc hworked hpending
  | @finish c r hc hcontrol hheld =>
    refine h.update (h.owns.keep ?_) h.bounded nofun (fun j c _ hc => h.sound j c hc) ?_
    · rw [State.held_of_some hc, hheld]
      rfl
    · rw [State.pending_update]
      · exact h.consistent
      · rw [hc]
        show ∅ = c.control.pending
        rw [hcontrol]
        rfl
  | split hc hl => exact h.split hc hl
  | @unlock op hp l todo split hc hl =>
    obtain ⟨hhp, h16, hlt, hdisj⟩ := h.sound i _ hc
    have hheld := State.held_of_some hc
    have hmem : (l : Lock) ∈ w.held i := by
      rw [hheld]
      exact .inr (.inr ⟨l, .inr hl, rfl⟩)
    refine h.kept hc (h.owns.give hmem ?_) (h.bounded_give l)
      ⟨rfl, Session.tidy_of_nil rfl, hhp, h16, ?_, ?_⟩ (fun j c _ hc => h.sound j c hc) rfl
      h.consistent
    · have hnot : l ∉ todo := Finset.disjoint_right.mp hdisj hl
      rw [hheld]
      refine (Session.held_of_nil rfl).trans ?_
      rw [Session.held_of_nil rfl]
      ext l'
      induction l' using WithBot.recBotCoe with
      | bot => exact iff_of_true (.inl rfl) ⟨.inl rfl, WithBot.bot_ne_coe⟩
      | coe k =>
        have hiff : k ∈ todo ∨ k ∈ split.erase l ↔ (k ∈ todo ∨ k ∈ split) ∧ k ≠ l := by
          rw [Finset.mem_erase]
          by_cases hk : k = l
          · simp [hk, hnot]
          · simp [hk]
        refine mem_held_migrating.trans (hiff.trans (and_congr mem_held_migrating.symm ?_))
        exact not_congr WithBot.coe_inj.symm
    · rintro k (hk | hk)
      · exact hlt k (.inl hk)
      · exact hlt k (.inr (Finset.mem_of_mem_erase hk))
    · exact hdisj.mono_right (Finset.erase_subset l split)

omit [DecidableEq Key] in
/-- At the start the table is empty and nobody does anything. -/
lemma inv_init : Inv hash (State.init : State Key T) := by
  refine ⟨Owns.none, fun l hl => absurd rfl hl, nofun, nofun, ?_⟩
  have hpending : (State.init : State Key T).pending = ∅ := by
    ext l
    exact iff_of_false (fun ⟨_, hl⟩ => Finset.notMem_empty l hl) (Set.notMem_empty l)
  rw [hpending]
  exact .of_wellFormed wellFormed_create

end Invariant

/-- Two threads insert the same key at the same time; they take `n` steps in turns. -/
def twoInsertions (n : ℕ) : List (Action ℕ ℕ) :=
  .invoke 0 (.upsert 0 .ok 7) :: .invoke 1 (.upsert 0 .ok 8) ::
    (List.replicate n [.advance 0 .plain, .advance 1 .plain]).flatten

/-- The table and the threads after these steps, if all keys have the hash 0. -/
def twoThreads (n : ℕ) : State ℕ ℕ := ((system fun _ => 0).attempt (twoInsertions n)).2

end Jakilid.Cuckoo.Concurrent
