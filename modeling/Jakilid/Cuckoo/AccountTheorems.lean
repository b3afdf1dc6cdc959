import Jakilid.Cuckoo.LinearizabilityTheorems
import Jakilid.Cuckoo.SoloTheorems

/-!
# No update is lost or done twice

When all calls are over, the insertions of a key that have succeeded and the erasures of it that
have succeeded balance: there is one more of the former if the key is in the table, and equally many
if it is not (`accounts`). So no insertion is overwritten by a concurrent one that did not see it,
none is lost while entries are moved or the table is doubled, and no two erasures get the same
entry.
-/

namespace Jakilid.Cuckoo.Concurrent

open CellStore Linearizable Table Transition

variable {Key T : Type} [DecidableEq Key] {hash : Key → UInt64}

/-- The call has inserted the key. -/
def inserted (key : Key) : TableOp Key T × Except Exn (Response T) → Bool
  | (.upsert key' _ _, .ok (.bool true)) => decide (key' = key)
  | _ => false

/-- The call has erased the key. -/
def erased (key : Key) : TableOp Key T × Except Exn (Response T) → Bool
  | (.eraseFn key' _, .ok (.bool true)) => decide (key' = key)
  | _ => false

/-- `erase_fn` with a functor that has every entry erased, as `erase` is one. -/
def TableOp.Plain : TableOp Key T → Prop
  | .eraseFn _ fn => ∀ v v' b, fn v = .ok (v', b) → b = true
  | _ => True

section Balance

variable {key : Key} {m m' : Key → Option T} {op : TableOp Key T}
  {r : Except Exn (Response T)}

/-- A call that throws neither inserts nor erases. -/
lemma not_inserted_error (x : Exn) : inserted key (op, .error x) = false := by
  cases op <;> rfl

lemma not_erased_error (x : Exn) : erased key (op, .error x) = false := by
  cases op <;> rfl

/-- A call for another key. -/
lemma not_inserted_of_ne (h : op.key ≠ key) : inserted key (op, r) = false := by
  unfold inserted
  split
  · next heq =>
    obtain ⟨rfl, -⟩ := Prod.mk.inj heq
    exact decide_eq_false h
  · rfl

lemma not_erased_of_ne (h : op.key ≠ key) : erased key (op, r) = false := by
  unfold erased
  split
  · next heq =>
    obtain ⟨rfl, -⟩ := Prod.mk.inj heq
    exact decide_eq_false h
  · rfl

/-- A call for a key that is there. -/
lemma balance_found (hplain : op.Plain) (v : T) :
    (if inserted op.key (op, (op.found v).2) then 1 else 0) + 1
      = (if erased op.key (op, (op.found v).2) then 1 else 0) + (op.found v).1.toList.length := by
  have hthrown : ∀ x, op.found v = (some v, .error x) →
      (if inserted op.key (op, (op.found v).2) then 1 else 0) + 1
        = (if erased op.key (op, (op.found v).2) then 1 else 0)
          + (op.found v).1.toList.length := by
    intro x hx
    rw [hx, not_inserted_error, not_erased_error]
    rfl
  cases op with
  | findFn k fn => rfl
  | updateFn k fn =>
    cases hfn : fn v with
    | error x => exact hthrown x (by simp only [TableOp.found, hfn])
    | ok v' => simp [TableOp.found, hfn, inserted, erased]
  | upsert k fn val =>
    cases hfn : fn v with
    | error x => exact hthrown x (by simp only [TableOp.found, hfn])
    | ok v' => simp [TableOp.found, hfn, inserted, erased]
  | eraseFn k fn =>
    cases hfn : fn v with
    | error x => exact hthrown x (by simp only [TableOp.found, hfn])
    | ok p =>
      -- the functor says that the entry is to go
      obtain ⟨v', b⟩ := p
      obtain rfl := hplain v v' b hfn
      simp [TableOp.found, hfn, inserted, erased, TableOp.key]

/-- A call for a key that is not there. -/
lemma balance_missing :
    (if inserted op.key (op, op.missing.2) then 1 else 0)
      = (if erased op.key (op, op.missing.2) then 1 else 0) + op.missing.1.toList.length := by
  cases op with
  | upsert k fn val => simp [TableOp.missing, inserted, erased, TableOp.key]
  | _ => rfl

/-- One call. -/
lemma balance_of_apply (happly : mapObject.apply m op r m') (hplain : op.key = key → op.Plain) :
    (if inserted key (op, r) then 1 else 0) + (m key).toList.length
      = (if erased key (op, r) then 1 else 0) + (m' key).toList.length := by
  rcases happly with honMap | ⟨-, rfl, hr⟩
  · obtain ⟨rfl, rfl⟩ := Prod.mk.inj honMap
    by_cases hkey : op.key = key
    · subst hkey
      rw [Function.update_self]
      cases m op.key with
      | none => exact balance_missing
      | some v => exact balance_found (hplain rfl) v
    · rw [not_inserted_of_ne hkey, not_erased_of_ne hkey, Function.update_of_ne (Ne.symm hkey)]
  · rcases hr with rfl | rfl
    · rw [not_inserted_error, not_erased_error]
    · rw [not_inserted_error, not_erased_error]

/-- Calls one after the other. -/
lemma balance_of_runs
    {log : List (Linearizable.Entry ThreadId (TableOp Key T) (Except Exn (Response T)))}
    (h : mapObject.Runs log m) (hplain : ∀ e ∈ log, e.op.key = key → e.op.Plain) :
    log.countP (fun e => inserted key (e.op, e.res))
      = log.countP (fun e => erased key (e.op, e.res)) + (m key).toList.length := by
  induction h with
  | nil => rfl
  | @snoc log m m' e _ happly ih =>
    have hstep := balance_of_apply happly (hplain e (by simp))
    have hlog := ih fun e' he' => hplain e' (List.mem_append_left _ he')
    rw [List.countP_append, List.countP_append, List.countP_singleton, List.countP_singleton]
    omega

end Balance

section Contents

variable {t : Table Key T} {m : Key → Option T} {w : State Key T}

/-- The map a table stores is what it finds. -/
lemma eq_find_of_stores (hwf : t.WellFormed hash) (hstores : t.Stores m) (key : Key) :
    m key = t.find hash key := by
  refine Option.ext fun v => ?_
  rw [hstores key v, hwf.find_eq_some_iff]

omit [DecidableEq Key] in
/-- When all calls are over no lock is taken. -/
lemma Inv.owner_eq_none (h : Inv hash w) (hover : ∀ i, w.sessions i = none) (l : Lock) :
    w.owner l = none := by
  rw [Option.eq_none_iff_forall_ne_some]
  intro i hi
  rw [h.owns, State.held, hover] at hi
  exact hi

end Contents

/-- **No update is lost or done twice.** In every run at whose end no call is in progress, of the
calls of all threads for a key as many have inserted it as have erased it, and one more if the table
has the key. -/
theorem accounts {ts : List (Taken (State Key T) (Action Key T) (Event Key T))} {w : State Key T}
    (h : (system hash).Run ts w) (hover : ∀ i, w.sessions i = none) {S : Finset ThreadId}
    (hS : ∀ i, i ∉ S → (calls i (ts.map Taken.event)).1 = []) (key : Key)
    (hplain : ∀ i, ∀ c ∈ (calls i (ts.map Taken.event)).1, c.1.key = key → c.1.Plain) :
    ∑ i ∈ S, (calls i (ts.map Taken.event)).1.countP (inserted key)
      = ∑ i ∈ S, (calls i (ts.map Taken.event)).1.countP (erased key)
        + if w.table.contains hash key then 1 else 0 := by
  obtain ⟨x, hfollows, hshows⟩ := shows_of_run h
  have hcalls : ∀ i, entriesOf i x.log = (calls i (ts.map Taken.event)).1 := by
    intro i
    have hagrees := agrees_of_follows hfollows i
    rw [hshows.status] at hagrees
    simp only [hover] at hagrees
    exact (congrArg Prod.fst hagrees).symm
  have hmem : ∀ e ∈ x.log, (e.op, e.res) ∈ entriesOf e.thread x.log := by
    intro e he
    exact List.mem_map_of_mem (List.mem_filter.mpr ⟨he, decide_eq_true rfl⟩)
  have hthreads : ∀ e ∈ x.log, e.thread ∈ S := by
    intro e he
    by_contra hnot
    have := hmem e he
    rw [hcalls, hS _ hnot] at this
    exact absurd this List.not_mem_nil
  have hlogged : ∀ e ∈ x.log, e.op.key = key → e.op.Plain := by
    intro e he
    have := hmem e he
    rw [hcalls] at this
    exact hplain e.thread _ this
  have hbalance := balance_of_runs (linearizes_of_follows hfollows).runs hlogged
  have hpresent : (x.state key).toList.length = if w.table.contains hash key then 1 else 0 := by
    have hwf := hshows.inv.wellFormed (hshows.inv.owner_eq_none hover)
    rw [hwf.contains_eq, ← eq_find_of_stores hwf hshows.stores]
    cases x.state key <;> rfl
  rw [countP_eq_sum_entriesOf hthreads, countP_eq_sum_entriesOf hthreads, hpresent] at hbalance
  simp only [hcalls] at hbalance
  exact hbalance

set_option maxRecDepth 8000 in
/-- Of two threads that insert the same key at the same time one succeeds. -/
theorem accounts_twoInsertions :
    ∑ i ∈ {0, 1}, (calls i
        (((system fun _ => 0).attempt (twoInsertions 16)).1.map Taken.event)).1.countP (inserted 0)
      = ∑ i ∈ {0, 1}, (calls i
          (((system fun _ => 0).attempt (twoInsertions 16)).1.map Taken.event)).1.countP (erased 0)
        + if (twoThreads 16).table.contains (fun _ => 0) 0 then 1 else 0 :=
  accounts (System.run_attempt (system fun _ => 0) (twoInsertions 16))
    (fun
      | 0 => rfl
      | 1 => rfl
      | _ + 2 => rfl)
    (fun
      | 0 => fun h => absurd (by decide) h
      | 1 => fun h => absurd (by decide) h
      | _ + 2 => fun _ => rfl)
    0
    (fun
      | 0 => fun c hc _ => by
        obtain rfl : c = (.upsert 0 .ok 7, .ok (.bool true)) := List.mem_singleton.mp hc
        trivial
      | 1 => fun c hc _ => by
        obtain rfl : c = (.upsert 0 .ok 8, .ok (.bool false)) := List.mem_singleton.mp hc
        trivial
      | _ + 2 => fun c hc _ => absurd hc List.not_mem_nil)

end Jakilid.Cuckoo.Concurrent
