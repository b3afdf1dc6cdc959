import Jakilid.Cuckoo.ConcurrentTheorems

/-!
# The hash table is linearizable

To the threads the table is a map on which each operation is one step (`mapObject`), wherever the
entries are, and whatever `cuckoopath_move` and `move_buckets` are doing to them. The step is the
one in which the thread has both buckets of its key and finds, or does not find, the key in them.
An operation that has to insert an entry may also be given up, with an exception and without
effect.
-/

namespace Jakilid.Cuckoo.Concurrent

open CellStore Linearizable Table Transition

variable {Key T : Type} {hash : Key → UInt64}

/-- The map the table is for. -/
def mapObject [DecidableEq Key] : Object (Key → Option T) (TableOp Key T) (Except Exn (Response T)) where
  start _ := none
  apply m op r m' :=
    op.onMap m = (m', r) ∨
      op.Inserts ∧ m' = m ∧ (r = .error .badAlloc ∨ r = .error .loadFactorTooLow)

/-- Where a thread is with its call. -/
def statusOf : Option (Session Key T) → Status (TableOp Key T) (Except Exn (Response T))
  | none => .idle
  | some c => c.control.result.elim (.called c.op) (.done c.op)

lemma statusOf_of_none {c : Session Key T} (h : c.control.result = none) :
    statusOf (some c) = .called c.op := by
  rw [statusOf, h]
  rfl

lemma statusOf_of_some {c : Session Key T} {r : Except Exn (Response T)}
    (h : c.control.result = some r) : statusOf (some c) = .done c.op r := by
  rw [statusOf, h]
  rfl

/-- The state of the threads and the table as the atomic object. -/
structure Shows (hash : Key → UInt64) (w : State Key T)
    (x : Config ThreadId (Key → Option T) (TableOp Key T) (Except Exn (Response T))) : Prop where
  inv : Inv hash w
  stores : w.table.Stores x.state
  status : x.status = fun i => statusOf (w.sessions i)

section Simulation

variable {w w' : State Key T} {e : Event Key T}
  {x : Config ThreadId (Key → Option T) (TableOp Key T) (Except Exn (Response T))}

/-- The thread is elsewhere with its call. -/
lemma Shows.status_update (h : Shows hash w x) (i : ThreadId) (c : Option (Session Key T)) :
    Function.update x.status i (statusOf c)
      = fun j => statusOf (Function.update w.sessions i c j) := by
  funext j
  by_cases hj : j = i
  · rw [hj, Function.update_self, Function.update_self]
  · rw [Function.update_of_ne hj, Function.update_of_ne hj, h.status]

/-- The thread is where it was with its call. -/
lemma Shows.status_stay (h : Shows hash w x) {i : ThreadId} {c : Option (Session Key T)}
    (hc : statusOf c = statusOf (w.sessions i)) :
    x.status = fun j => statusOf (Function.update w.sessions i c j) := by
  rw [← h.status_update i c, hc, ← congrFun h.status i, Function.update_eq_self]

variable [DecidableEq Key]

/-- Work on the table. -/
lemma Shows.worked (h : Shows hash w x) {i : ThreadId} {t : Table Key T} {c c' : Session Key T}
    (hc : w.sessions i = some c) (hworked : Worked hash w.pending w.table c t c')
    (hresult : c.control.result = none) (hpending : c.control.pending = ∅) :
    ∃ x', mapObject.Step x .silent x' ∧
      Shows hash ({ w with table := t }.setSession i (some c')) x' := by
  have hinv := h.inv.worked hc hworked hpending
  have hcalled : x.status i = .called c.op := by
    rw [h.status]
    simp only [hc]
    exact statusOf_of_none hresult
  have hstay : c'.op = c.op → c'.control.result = none →
      statusOf (some c') = statusOf (w.sessions i) := by
    intro hop hresult'
    rw [hc, statusOf_of_none hresult, statusOf_of_none hresult', hop]
  cases hworked with
  | moved hkept _ _ _ _ hholds hresult' _ =>
    exact ⟨x, .stay x, hinv, h.stores.of_holds_iff hholds,
      h.status_stay (hstay hkept.op hresult')⟩
  | enlarged hkept _ _ _ hcells hresult' _ =>
    refine ⟨x, .stay x, hinv, h.stores.of_holds_iff fun e => ?_,
      h.status_stay (hstay hkept.op hresult')⟩
    show Holds w.table.enlarge.cells e ↔ _
    rw [hcells]
  | @operated _ _ r hkept _ hoperated _ hresult' _ =>
    -- the operation takes effect
    obtain ⟨hstores, hr⟩ := hoperated.onMap x.state h.stores
    have happly : mapObject.apply x.state c.op r (c.op.onMap x.state).1 := .inl (by rw [← hr])
    refine ⟨_, .commit hcalled happly, hinv, hstores, ?_⟩
    have hdone : statusOf (some c') = .done c.op r := by
      rw [statusOf_of_some hresult', hkept.op]
    rw [← hdone]
    exact h.status_update i _
  | @thrown _ exn hkept _ hop hx hresult' _ =>
    have happly : mapObject.apply x.state c.op (.error exn) x.state := by
      refine .inr ⟨hop, rfl, ?_⟩
      rcases hx with rfl | rfl
      · exact .inl rfl
      · exact .inr rfl
    refine ⟨_, .commit hcalled happly, hinv, h.stores, ?_⟩
    have hdone : statusOf (some c') = .done c.op (.error exn) := by
      rw [statusOf_of_some hresult', hkept.op]
    rw [← hdone]
    exact h.status_update i _

/-- A step of the threads is a step of the atomic object. -/
lemma Shows.moved (h : Shows hash w x) {i : ThreadId} (hmoved : Moved hash w i w' e) :
    ∃ x', mapObject.Step x e x' ∧ Shows hash w' x' := by
  have hinv := h.inv.moved hmoved
  cases hmoved with
  | @invoke op hidle =>
    have hi : x.status i = .idle := by
      rw [h.status]
      simp only [hidle]
      rfl
    refine ⟨_, .invoke hi, hinv, h.stores, ?_⟩
    exact h.status_update i (some ⟨op, .start, []⟩)
  | @take l c c' hc hfree hkept _ _ hresult _ =>
    refine ⟨x, .stay x, hinv, h.stores, h.status_stay ?_⟩
    rw [hc, statusOf_of_none hresult.1, statusOf_of_none hresult.2, hkept.op]
  | @give l c c' hc hkept _ _ hcontrol =>
    refine ⟨x, .stay x, hinv, h.stores, h.status_stay ?_⟩
    rw [hc, statusOf, statusOf, hkept.op, hcontrol]
  | work hc hworked hresult hpending => exact h.worked hc hworked hresult hpending
  | @finish c r hc hcontrol _ =>
    have hi : x.status i = .done c.op r := by
      rw [h.status]
      simp only [hc]
      exact statusOf_of_some (by rw [hcontrol]; rfl)
    exact ⟨_, .respond hi, hinv, h.stores, h.status_update i none⟩
  | @split op hp l todo split hc hl =>
    obtain ⟨hhp, h16, hlt, -⟩ := h.inv.sound i _ hc
    have hpending : l ∈ w.pending := ⟨i, by rw [hc]; exact hl⟩
    obtain ⟨-, -, hholds⟩ := h.inv.consistent.splitLock hhp h16 (hlt l (.inl hl)) hpending
    refine ⟨x, .stay x, hinv, h.stores.of_holds_iff hholds, h.status_stay ?_⟩
    rw [hc]
    rfl
  | @unlock op hp l todo split hc hl =>
    refine ⟨x, .stay x, hinv, h.stores, h.status_stay ?_⟩
    rw [hc]
    rfl

omit [DecidableEq Key] in
lemma stores_init : (State.init : State Key T).table.Stores fun _ => none := by
  intro k v
  refine iff_of_false nofun ?_
  rintro ⟨e, ⟨p, hp⟩, -⟩
  cases hp

end Simulation

variable [DecidableEq Key]

/-- The state after a run shows what the atomic object has come to. -/
lemma shows_of_run {ts : List (Taken (State Key T) (Action Key T) (Event Key T))} {w : State Key T}
    (h : (system hash).Run ts w) :
    ∃ x, System.Follows mapObject.Step mapObject.init (ts.map Taken.event) x ∧
      Shows hash w x := by
  refine System.Run.simulates (P := fun _ _ => True) (R := Shows hash) ?_ ?_ h fun _ _ => trivial
  · exact ⟨inv_init, stores_init, rfl⟩
  · intro w a w' e x hshows _ hstep
    exact hshows.moved (hshows.inv.moved_of_step hstep)

/-- **Linearizability.** However the steps of the threads interleave, the operations can be put in
one order, in which each one, done at once on a map, has the effect and the result it had; no
operation comes after one that was invoked when it had already responded; and the map at the end is
the contents of the table. -/
theorem linearizable {ts : List (Taken (State Key T) (Action Key T) (Event Key T))}
    {w : State Key T} (h : (system hash).Run ts w) :
    ∃ log m, Linearizes mapObject (ts.map Taken.event) log m ∧ w.table.Stores m := by
  obtain ⟨x, hfollows, hshows⟩ := shows_of_run h
  exact ⟨x.log, x.state, linearizes_of_follows hfollows, hshows.stores⟩

theorem linearizable_twoInsertions :
    ∃ log m, Linearizes mapObject
        (((system fun _ => 0).attempt (twoInsertions 20)).1.map Taken.event) log m ∧
      (twoThreads 20).table.Stores m :=
  linearizable (System.run_attempt _ (twoInsertions 20))

/-- **The counters are exact at every moment**, also when entries are on their way along a path, or
only some of the buckets are distributed: added up they give the number of keys. -/
theorem size_of_run {ts : List (Taken (State Key T) (Action Key T) (Event Key T))}
    {w : State Key T} (h : (system hash).Run ts w) :
    ∃ m, w.table.Stores m ∧ w.table.size.toNat = {k | m k ≠ none}.ncard := by
  obtain ⟨x, -, hshows⟩ := shows_of_run h
  refine ⟨x.state, hshows.stores, ?_⟩
  rw [hshows.stores.ncard_keys hshows.inv.consistent.distinct, hshows.inv.consistent.size_toNat]

theorem size_of_run_twoInsertions :
    ∃ m, (twoThreads 6).table.Stores m ∧
      (twoThreads 6).table.size.toNat = {k | m k ≠ none}.ncard :=
  size_of_run (System.run_attempt (system fun _ => 0) (twoInsertions 6))

end Jakilid.Cuckoo.Concurrent
