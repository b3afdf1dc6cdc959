import Jakilid.Lib.Transition

/-!
# Linearizability

An `Object` is what one thread alone would work on: an operation takes the state to another one
and has a result. Between threads an operation is invoked, takes effect in one step some time
later, and responds after that (`Object.Step`).

`Linearizes` says that a history of invocations and responses is explained by a list of
operations done one after the other: the calls of each thread are in it in their order, and a call
that has responded before another one is invoked comes before it. Whatever the atomic object can
follow is explained in this way (`linearizes_of_follows`), so that with `Run.simulates` it takes
one simulation to show that a system is linearizable.
-/

namespace Linearizable

open Transition System

variable {Th St Op Res : Type*}

/-- What can be seen of a step. -/
inductive Event (Th Op Res : Type*)
  | silent
  | invoked (i : Th) (op : Op)
  | responded (i : Th) (r : Res)

/-- An operation that has taken effect. -/
structure Entry (Th Op Res : Type*) where
  thread : Th
  op : Op
  res : Res

/-- A sequential object. -/
structure Object (St Op Res : Type*) where
  start : St
  apply : St → Op → Res → St → Prop

/-! ## Histories -/

section Histories

variable [DecidableEq Th]

/-- One more event, for the calls of a thread: those that have responded, and the one that has
not. -/
def call (i : Th) (acc : List (Op × Res) × Option Op) :
    Event Th Op Res → List (Op × Res) × Option Op
  | .silent => acc
  | .invoked j op => if j = i then (acc.1, some op) else acc
  | .responded j r =>
    if j = i then (acc.1 ++ (acc.2.map fun op => (op, r)).toList, none) else acc

/-- The calls of a thread in a history. -/
def calls (i : Th) (es : List (Event Th Op Res)) : List (Op × Res) × Option Op :=
  es.foldl (call i) ([], none)

lemma calls_append_singleton (i : Th) (es : List (Event Th Op Res)) (e : Event Th Op Res) :
    calls i (es ++ [e]) = call i (calls i es) e := by
  rw [calls, List.foldl_append]
  rfl

/-- The operations of a thread, in the order in which they have taken effect. -/
def entriesOf (i : Th) (log : List (Entry Th Op Res)) : List (Op × Res) :=
  (log.filter fun e => e.thread = i).map fun e => (e.op, e.res)

lemma entriesOf_append_singleton (i : Th) (log : List (Entry Th Op Res)) (e : Entry Th Op Res) :
    entriesOf i (log ++ [e])
      = entriesOf i log ++ if e.thread = i then [(e.op, e.res)] else [] := by
  rw [entriesOf, List.filter_append, List.map_append, entriesOf]
  split_ifs with h <;> simp [h]

/-- The operations of a list, counted thread by thread. -/
lemma countP_eq_sum_entriesOf {log : List (Entry Th Op Res)} {S : Finset Th}
    (hS : ∀ e ∈ log, e.thread ∈ S) (p : Op × Res → Bool) :
    log.countP (fun e => p (e.op, e.res)) = ∑ i ∈ S, (entriesOf i log).countP p := by
  induction log with
  | nil => exact (Finset.sum_eq_zero fun i _ => rfl).symm
  | cons e log ih =>
    have hcons : ∀ i, (entriesOf i (e :: log)).countP p
        = (entriesOf i log).countP p
          + if e.thread = i then (if p (e.op, e.res) then 1 else 0) else 0 := by
      intro i
      rw [entriesOf, List.filter_cons]
      by_cases hi : e.thread = i
      · rw [if_pos (decide_eq_true hi), if_pos hi, List.map_cons, List.countP_cons]
        rfl
      · rw [if_neg (by simpa using hi), if_neg hi]
        rfl
    rw [List.countP_cons, ih fun e' he' => hS e' (List.mem_cons_of_mem e he'),
      Finset.sum_congr rfl fun i _ => hcons i, Finset.sum_add_distrib, Finset.sum_ite_eq,
      if_pos (hS e List.mem_cons_self)]

/-- What has taken effect of the calls of a thread are all those that have responded, with the
results they have returned, and perhaps the one that has not. -/
def Explains (i : Th) (es : List (Event Th Op Res)) (log : List (Entry Th Op Res)) : Prop :=
  entriesOf i log = (calls i es).1 ∨
    ∃ op r, (calls i es).2 = some op ∧ entriesOf i log = (calls i es).1 ++ [(op, r)]

end Histories

/-! ## The sequential object -/

/-- The operations of a list, one after the other. -/
inductive Object.Runs (O : Object St Op Res) : List (Entry Th Op Res) → St → Prop
  | nil : O.Runs [] O.start
  | snoc {log : List (Entry Th Op Res)} {s s' : St} {e : Entry Th Op Res} (h : O.Runs log s)
      (happly : O.apply s e.op e.res s') : O.Runs (log ++ [e]) s'

/-- The operations of `log`, one after the other, lead to the state `s` and explain the history.
At every moment what has taken effect so far is the beginning of `log`; so a call that has
responded by then comes before one that is invoked later. -/
structure Linearizes [DecidableEq Th] (O : Object St Op Res) (es : List (Event Th Op Res))
    (log : List (Entry Th Op Res)) (s : St) : Prop where
  runs : O.Runs log s
  explains : ∀ i, Explains i es log
  realTime : ∀ es', es' <+: es → ∃ log', log' <+: log ∧ ∀ i, Explains i es' log'

/-! ## The atomic object -/

/-- Where a thread is with its call. -/
inductive Status (Op Res : Type*)
  | idle
  | called (op : Op)
  | done (op : Op) (r : Res)

/-- The object, the threads that use it, and what has taken effect. -/
structure Config (Th St Op Res : Type*) where
  state : St
  status : Th → Status Op Res
  log : List (Entry Th Op Res)

/-- At the start no thread is in a call. -/
def Object.init (O : Object St Op Res) : Config Th St Op Res where
  state := O.start
  status _ := .idle
  log := []

/-- A step of the object between threads. -/
inductive Object.Step [DecidableEq Th] (O : Object St Op Res) :
    Config Th St Op Res → Event Th Op Res → Config Th St Op Res → Prop
  | stay (x : Config Th St Op Res) : O.Step x .silent x
  | invoke {x : Config Th St Op Res} {i : Th} {op : Op} (hi : x.status i = .idle) :
      O.Step x (.invoked i op) { x with status := Function.update x.status i (.called op) }
  | commit {x : Config Th St Op Res} {i : Th} {op : Op} {r : Res} {s : St}
      (hi : x.status i = .called op) (happly : O.apply x.state op r s) :
      O.Step x .silent
        ⟨s, Function.update x.status i (.done op r), x.log ++ [⟨i, op, r⟩]⟩
  | respond {x : Config Th St Op Res} {i : Th} {op : Op} {r : Res}
      (hi : x.status i = .done op r) :
      O.Step x (.responded i r) { x with status := Function.update x.status i .idle }

section Follows

variable [DecidableEq Th] {O : Object St Op Res}

/-- The history says of a thread what its status says. -/
def Agrees (i : Th) (es : List (Event Th Op Res)) (log : List (Entry Th Op Res)) :
    Status Op Res → Prop
  | .idle => calls i es = (entriesOf i log, none)
  | .called op => calls i es = (entriesOf i log, some op)
  | .done op r => (calls i es).2 = some op ∧ entriesOf i log = (calls i es).1 ++ [(op, r)]

lemma Agrees.explains {i : Th} {es : List (Event Th Op Res)} {log : List (Entry Th Op Res)}
    {status : Status Op Res} (h : Agrees i es log status) : Explains i es log := by
  cases status with
  | idle => exact .inl (congrArg Prod.fst h).symm
  | called op => exact .inl (congrArg Prod.fst h).symm
  | done op r => exact .inr ⟨op, r, h⟩

/-- A step that is not one of the thread. -/
lemma Agrees.other {i : Th} {es : List (Event Th Op Res)} {log log' : List (Entry Th Op Res)}
    {e : Event Th Op Res} {status : Status Op Res} (h : Agrees i es log status)
    (hcall : call i (calls i es) e = calls i es) (hlog : entriesOf i log' = entriesOf i log) :
    Agrees i (es ++ [e]) log' status := by
  have hcalls : calls i (es ++ [e]) = calls i es := by
    rw [calls_append_singleton, hcall]
  cases status <;> simpa only [Agrees, hcalls, hlog] using h

/-- One step, for all threads. -/
lemma agrees_of_step {x x' : Config Th St Op Res} {e : Event Th Op Res}
    {es : List (Event Th Op Res)} (h : ∀ i, Agrees i es x.log (x.status i))
    (hstep : O.Step x e x') (i : Th) : Agrees i (es ++ [e]) x'.log (x'.status i) := by
  have hi := h i
  cases hstep with
  | stay => exact hi.other rfl rfl
  | @invoke j op hj =>
    by_cases hij : i = j
    · subst hij
      rw [hj] at hi
      show Agrees i _ _ (Function.update x.status i (.called op) i)
      rw [Function.update_self]
      show calls i (es ++ [.invoked i op]) = (entriesOf i x.log, some op)
      rw [calls_append_singleton, hi, call, if_pos rfl]
    · show Agrees i _ _ (Function.update x.status j (.called op) i)
      rw [Function.update_of_ne hij]
      exact hi.other (if_neg (Ne.symm hij)) rfl
  | @commit j op r s hj happly =>
    by_cases hij : i = j
    · subst hij
      rw [hj] at hi
      show Agrees i _ _ (Function.update x.status i (.done op r) i)
      rw [Function.update_self]
      have hcalls : calls i (es ++ [.silent]) = (entriesOf i x.log, some op) := by
        rw [calls_append_singleton, hi]
        rfl
      refine ⟨by rw [hcalls], ?_⟩
      rw [hcalls, entriesOf_append_singleton, if_pos rfl]
    · show Agrees i _ _ (Function.update x.status j (.done op r) i)
      rw [Function.update_of_ne hij]
      refine hi.other rfl ?_
      rw [entriesOf_append_singleton, if_neg (Ne.symm hij), List.append_nil]
  | @respond j op r hj =>
    by_cases hij : i = j
    · subst hij
      rw [hj] at hi
      show Agrees i _ _ (Function.update x.status i .idle i)
      rw [Function.update_self]
      show calls i (es ++ [.responded i r]) = (entriesOf i x.log, none)
      rw [calls_append_singleton, call, if_pos rfl, hi.1, hi.2]
      rfl
    · show Agrees i _ _ (Function.update x.status j .idle i)
      rw [Function.update_of_ne hij]
      exact hi.other (if_neg (Ne.symm hij)) rfl

lemma agrees_of_follows {es : List (Event Th Op Res)} {x : Config Th St Op Res}
    (h : Follows O.Step O.init es x) (i : Th) : Agrees i es x.log (x.status i) := by
  induction h generalizing i with
  | nil => rfl
  | snoc _ hstep ih => exact agrees_of_step ih hstep i

/-- What has taken effect stays so. -/
lemma Object.Step.log_prefix {x x' : Config Th St Op Res} {e : Event Th Op Res}
    (h : O.Step x e x') : x.log <+: x'.log := by
  cases h with
  | commit hi happly => exact List.prefix_append _ _
  | _ => exact List.prefix_rfl

lemma Object.Step.runs {x x' : Config Th St Op Res} {e : Event Th Op Res}
    (h : O.Step x e x') (hruns : O.Runs x.log x.state) : O.Runs x'.log x'.state := by
  cases h with
  | commit hi happly => exact hruns.snoc happly
  | _ => exact hruns

/-- **Linearizability of the atomic object.** -/
theorem linearizes_of_follows {es : List (Event Th Op Res)} {x : Config Th St Op Res}
    (h : Follows O.Step O.init es x) : Linearizes O es x.log x.state := by
  refine ⟨?_, fun i => (agrees_of_follows h i).explains, ?_⟩
  · induction h with
    | nil => exact .nil
    | snoc _ hstep ih => exact hstep.runs ih
  · intro es' hes'
    induction h with
    | nil =>
      refine ⟨[], List.nil_prefix, fun i => ?_⟩
      rw [List.prefix_nil.mp hes']
      exact .inl rfl
    | snoc h hstep ih =>
      rcases List.prefix_concat_iff.mp hes' with rfl | hes'
      · exact ⟨_, List.prefix_rfl, fun i => (agrees_of_follows (h.snoc hstep) i).explains⟩
      · obtain ⟨log', hlog', hexplains⟩ := ih hes'
        exact ⟨log', hlog'.trans hstep.log_prefix, hexplains⟩

end Follows

/-! ## Refinement of objects -/

section Refines

variable {St' Op' : Type*} {O : Object St Op Res} {O' : Object St' Op' Res}
  {asks : Op' → Op → Prop} {R : St → St' → Prop}

/-- What `O` does for an operation is what `O'` does for one that asks for it. -/
structure Refines (O : Object St Op Res) (O' : Object St' Op' Res) (asks : Op' → Op → Prop)
    (R : St → St' → Prop) : Prop where
  start : R O.start O'.start
  apply : ∀ {s t s' op op' r}, R s s' → asks op' op → O.apply s op r t →
    ∃ t', O'.apply s' op' r t' ∧ R t t'

/-- The same event, with the operation that has been asked for. -/
inductive SameEvent (asks : Op' → Op → Prop) : Event Th Op' Res → Event Th Op Res → Prop
  | silent : SameEvent asks .silent .silent
  | invoked (i : Th) {op' : Op'} {op : Op} (h : asks op' op) :
      SameEvent asks (.invoked i op') (.invoked i op)
  | responded (i : Th) (r : Res) : SameEvent asks (.responded i r) (.responded i r)

inductive SameStatus (asks : Op' → Op → Prop) : Status Op' Res → Status Op Res → Prop
  | idle : SameStatus asks .idle .idle
  | called {op' : Op'} {op : Op} (h : asks op' op) : SameStatus asks (.called op') (.called op)
  | done {op' : Op'} {op : Op} (h : asks op' op) (r : Res) :
      SameStatus asks (.done op' r) (.done op r)

/-- The same moment of both objects. -/
structure SameConfig (asks : Op' → Op → Prop) (R : St → St' → Prop) (x : Config Th St Op Res)
    (x' : Config Th St' Op' Res) : Prop where
  state : R x.state x'.state
  status : ∀ i, SameStatus asks (x'.status i) (x.status i)

variable [DecidableEq Th] {x y : Config Th St Op Res} {x' : Config Th St' Op' Res}

lemma SameConfig.update (h : SameConfig asks R x x') (i : Th) {status' : Status Op' Res}
    {status : Status Op Res} (hi : SameStatus asks status' status) (j : Th) :
    SameStatus asks (Function.update x'.status i status' j)
      (Function.update x.status i status j) := by
  by_cases hj : j = i
  · rw [hj, Function.update_self, Function.update_self]
    exact hi
  · rw [Function.update_of_ne hj, Function.update_of_ne hj]
    exact h.status j

lemma SameConfig.step (h : SameConfig asks R x x') (hO : Refines O O' asks R)
    {e : Event Th Op Res} {e' : Event Th Op' Res} (he : SameEvent asks e' e)
    (hstep : O.Step x e y) : ∃ y', O'.Step x' e' y' ∧ SameConfig asks R y y' := by
  cases hstep with
  | stay =>
    cases he
    exact ⟨x', .stay x', h⟩
  | @invoke i op hi =>
    cases he with
    | invoked _ hop =>
      have hi' := h.status i
      rw [hi] at hi'
      generalize hstatus : x'.status i = status at hi'
      cases hi'
      exact ⟨_, .invoke hstatus, h.state, h.update i (.called hop)⟩
  | @commit i op r s hi happly =>
    cases he
    have hi' := h.status i
    rw [hi] at hi'
    generalize hstatus : x'.status i = status at hi'
    cases hi' with
    | called hop =>
      obtain ⟨s', happly', hs⟩ := hO.apply h.state hop happly
      exact ⟨_, .commit hstatus happly', hs, h.update i (.done hop r)⟩
  | @respond i op r hi =>
    cases he
    have hi' := h.status i
    rw [hi] at hi'
    generalize hstatus : x'.status i = status at hi'
    cases hi'
    exact ⟨_, .respond hstatus, h.state, h.update i .idle⟩

end Refines

end Linearizable
