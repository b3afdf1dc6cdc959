import Mathlib

/-!
# Runs of a system whose steps may fail

A `System` takes one action after the other. In a given state an action may be impossible
(`blocked`), it may end the run (`fault`), or it leads to the next state and shows an event.
`Run` lists the steps taken, the latest one last.

Two rules reduce what holds of every run to what holds of one step: `Run.invariant` for a
predicate on states, and `Run.simulates` for a relation to the states of an abstract system that
follows the events.
-/

namespace Transition

/-- What comes of an action. -/
inductive Outcome (State Event Fault : Type*)
  | blocked
  | fault (f : Fault)
  | next (s : State) (e : Event)

structure System (State Action Event Fault : Type*) where
  init : State
  step : State → Action → Outcome State Event Fault

/-- A step of a run. -/
structure Taken (State Action Event : Type*) where
  before : State
  action : Action
  event : Event
  after : State

variable {State Action Event Fault Abstract : Type*}

namespace System

/-- `M.Run ts s`: the steps `ts` lead from the initial state to `s`. -/
inductive Run (M : System State Action Event Fault) : List (Taken State Action Event) → State → Prop
  | nil : M.Run [] M.init
  | snoc {ts : List (Taken State Action Event)} {s s' : State} {a : Action} {e : Event}
      (h : M.Run ts s) (hstep : M.step s a = .next s' e) : M.Run (ts ++ [⟨s, a, e, s'⟩]) s'

/-- Every step satisfies a condition on the action and the state it is taken in. -/
def Throughout (P : State → Action → Prop) (ts : List (Taken State Action Event)) : Prop :=
  ∀ t ∈ ts, P t.before t.action

lemma throughout_append {P : State → Action → Prop} {ts : List (Taken State Action Event)}
    {t : Taken State Action Event} :
    Throughout P (ts ++ [t]) ↔ Throughout P ts ∧ P t.before t.action := by
  simp only [Throughout, List.forall_mem_append, List.forall_mem_singleton]

variable {M : System State Action Event Fault} {P : State → Action → Prop}
  {ts : List (Taken State Action Event)} {s : State}

/-- **Invariant rule.** -/
theorem Run.invariant {I : State → Prop} (hinit : I M.init)
    (hstep : ∀ {s a s' e}, I s → P s a → M.step s a = .next s' e → I s')
    (h : M.Run ts s) (hts : Throughout P ts) : I s := by
  induction h with
  | nil => exact hinit
  | snoc h hs ih =>
    obtain ⟨hts, ha⟩ := throughout_append.mp hts
    exact hstep (ih hts) ha hs

/-- One more action is tried: if it is blocked or goes wrong it is passed over. -/
def extend (M : System State Action Event Fault) (r : List (Taken State Action Event) × State)
    (a : Action) : List (Taken State Action Event) × State :=
  match M.step r.2 a with
  | .next s e => (r.1 ++ [⟨r.2, a, e, s⟩], s)
  | _ => r

lemma extend_of_next {r : List (Taken State Action Event) × State} {a : Action} {e : Event}
    (h : M.step r.2 a = .next s e) : M.extend r a = (r.1 ++ [⟨r.2, a, e, s⟩], s) := by
  rw [extend, h]

lemma extend_of_blocked {r : List (Taken State Action Event) × State} {a : Action}
    (h : M.step r.2 a = .blocked) : M.extend r a = r := by
  rw [extend, h]

/-- The actions of a list are tried one after the other. -/
def attempt (M : System State Action Event Fault) (as : List Action) :
    List (Taken State Action Event) × State :=
  as.foldl M.extend ([], M.init)

lemma run_attempt (M : System State Action Event Fault) (as : List Action) :
    M.Run (M.attempt as).1 (M.attempt as).2 := by
  induction as using List.reverseRecOn with
  | nil => exact .nil
  | append_singleton as a ih =>
    rw [attempt, List.foldl_append, ← attempt, List.foldl_cons, List.foldl_nil, extend]
    split
    · next s e hs => exact ih.snoc hs
    · exact ih

/-- An abstract system follows a list of events. -/
inductive Follows (next : Abstract → Event → Abstract → Prop) (start : Abstract) :
    List Event → Abstract → Prop
  | nil : Follows next start [] start
  | snoc {es : List Event} {e : Event} {x x' : Abstract} (h : Follows next start es x)
      (hnext : next x e x') : Follows next start (es ++ [e]) x'

/-- **Simulation rule.** If the abstract system can follow each step, it can follow the run. -/
theorem Run.simulates {next : Abstract → Event → Abstract → Prop} {start : Abstract}
    {R : State → Abstract → Prop} (hinit : R M.init start)
    (hstep : ∀ {s a s' e x}, R s x → P s a → M.step s a = .next s' e → ∃ x', next x e x' ∧ R s' x')
    (h : M.Run ts s) (hts : Throughout P ts) :
    ∃ x, Follows next start (ts.map Taken.event) x ∧ R s x := by
  induction h with
  | nil => exact ⟨start, .nil, hinit⟩
  | snoc h hs ih =>
    obtain ⟨hts, ha⟩ := throughout_append.mp hts
    obtain ⟨x, hx, hR⟩ := ih hts
    obtain ⟨x', hnext, hR'⟩ := hstep hR ha hs
    rw [List.map_append]
    exact ⟨x', hx.snoc hnext, hR'⟩

end System

end Transition
