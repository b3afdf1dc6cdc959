import Jakilid.WorldSteps

/-!
# Calls without interruption

The steps of one call, taken one after the other with no step of another thread in between, come
to what `Jakilid.SharedDict` says of the call (`perform_actions`): its results about single calls
are results about threads that take turns call by call.
-/

namespace Jakilid

open Cuckoo Transition

/-- The call as a whole. -/
def Op.perform {hash : SharedString → UInt64} (op : Op) (m : HashMap hash) (s : Supply) :
    HashMap hash × Except Exn Result :=
  match op with
  | .insert key value => ((m.insert key value s).1, (m.insert key value s).2.map .bool)
  | .find key => (m, (m.findRaw key s).map .raw)
  | .contains key => (m, (m.containsKey key s).map .bool)
  | .erase key => ((m.eraseKey key s).1, (m.eraseKey key s).2.map .bool)
  | .size => (m, .ok (.size m.size))
  | .empty => (m, .ok (.bool m.empty))

/-- The steps of a call. A call takes those of them that it needs. -/
def Op.actions (op : Op) (T : ThreadId) (h : HandleId) (s : Supply) : List Action :=
  [.call T h op true, .serializeKey T s.key, .serializeValue T s.value,
    .access T s.callback s.copyGranted s.alloc]

namespace World

variable {hash : SharedString → UInt64} {w : World hash} {T : ThreadId} {h : HandleId}
  {hd : Handle} {p : Pointer} {m : HashMap hash}

/-- The thread may call operations on the map the handle has opened through its mapping. -/
structure Ready (w : World hash) (T : ThreadId) (h : HandleId) (hd : Handle) (p : Pointer)
    (m : HashMap hash) : Prop where
  running : w.exited T = false
  free : w.calls T = none
  handle : w.handles h = some hd
  cached : hd.hashMap = some p
  own : p.mapping = T
  mapped : w.segment T = true
  live : w.shared.objects p.object = some m

/-! ## Steps of the call -/

lemma setCall_setCall (c c' : Option Call) : (w.setCall T c).setCall T c' = w.setCall T c' := by
  rw [setCall, setCall, setCall, Function.update_idem]

lemma setCall_none (hfree : w.calls T = none) : w.setCall T none = w := by
  rw [setCall, ← hfree, Function.update_eq_self]

lemma write_self {o : ObjectId} (hlive : w.shared.objects o = some m) :
    w.shared.write o m = w.shared := by
  have hobjects : Function.update w.shared.objects o (some m) = w.shared.objects :=
    Function.update_eq_self_iff.mpr hlive.symm
  rw [Segment.write]
  congr

/-- The call that begins. -/
def callOf (op : Op) (h : HandleId) (hd : Handle) (p : Pointer) (progress : Progress) : Call :=
  ⟨h, hd.name, op, p, progress⟩

lemma step_call (hw : w.Ready T h hd p m) (op : Op) :
    w.step (.call T h op true) = .next (w.setCall T (some (callOf op h hd p .opened)))
      (.opened hd.name) := by
  have hidle : w.idle T = true := idle_iff.mpr ⟨hw.running, hw.free⟩
  have hsame : ({ hd with hashMap := some p } : Handle) = hd := by rw [← hw.cached]
  have hhandle : w.setHandle h { hd with hashMap := some p } = w := by
    rw [setHandle, hsame, ← hw.handle, Function.update_eq_self]
  simp only [step, call, hidle, hw.handle, openMap, hw.cached, hhandle]
  rfl

lemma step_serializeKey {c : Call} {key : Arg} (hmapped : w.segment T = true)
    (hkey : c.op.key? = some key) (hprogress : c.progress = .opened) (d : Draw) :
    (w.setCall T (some c)).step (.serializeKey T d) =
      match internalSerialize key d with
      | .error e => .next (w.setCall T none) (.threw e)
      | .ok k => .next (w.setCall T (some { c with progress := .keyed k })) .silent := by
  have hcall : (w.setCall T (some c)).calls T = some c := Function.update_self ..
  have hsegment : (w.setCall T (some c)).segment T = true := hmapped
  cases hs : internalSerialize key d <;>
    simp only [step, serializeKey, hcall, hkey, hprogress, serializeArg, hsegment, if_true, hs,
      setCall_setCall]

lemma step_serializeValue {c : Call} {key value : Arg} {k : SharedString}
    (hmapped : w.segment T = true) (hop : c.op = .insert key value)
    (hprogress : c.progress = .keyed k) (d : Draw) :
    (w.setCall T (some c)).step (.serializeValue T d) =
      match internalSerialize value d with
      | .error e => .next (w.setCall T none) (.threw e)
      | .ok v => .next (w.setCall T (some { c with progress := .valued k v })) .silent := by
  have hcall : (w.setCall T (some c)).calls T = some c := Function.update_self ..
  have hsegment : (w.setCall T (some c)).segment T = true := hmapped
  cases hs : internalSerialize value d <;>
    simp only [step, serializeValue, hcall, hop, hprogress, serializeArg, hsegment, if_true, hs,
      setCall_setCall]

/-- `Size` and `Empty` have no key to serialise. -/
lemma step_serializeKey_of_none {c : Call} (hkey : c.op.key? = none) (d : Draw) :
    (w.setCall T (some c)).step (.serializeKey T d) = .blocked := by
  have hcall : (w.setCall T (some c)).calls T = some c := Function.update_self ..
  simp only [step, serializeKey, hcall, hkey]

/-- Only `Insert` has a value to serialise. -/
lemma step_serializeValue_of_ne {c : Call} (hop : ∀ key value, c.op ≠ .insert key value)
    (d : Draw) : (w.setCall T (some c)).step (.serializeValue T d) = .blocked := by
  have hcall : (w.setCall T (some c)).calls T = some c := Function.update_self ..
  simp only [step, serializeValue, hcall]
  split
  · next key value k hinsert _ => exact absurd hinsert (hop key value)
  · rfl

lemma step_access (hw : w.Ready T h hd p m) {op : Op} {progress : Progress} {callback : Draw}
    {copyGranted : Bool} {alloc : Allocator}
    {f : HashMap hash → HashMap hash × Except Exn Result}
    (hop : (callOf op h hd p progress).operation callback copyGranted alloc = some f) :
    (w.setCall T (some (callOf op h hd p progress))).step (.access T callback copyGranted alloc) =
      .next { w with shared := w.shared.write p.object (f m).1 }
        ((callOf op h hd p progress).answer (f m).2) := by
  have hcall : (w.setCall T (some (callOf op h hd p progress))).calls T
      = some (callOf op h hd p progress) := Function.update_self ..
  have hmapped : (w.setCall T (some (callOf op h hd p progress))).segment T = true := hw.mapped
  have hlive : (w.setCall T (some (callOf op h hd p progress))).shared.objects p.object = some m :=
    hw.live
  have hend : ({ w with shared := w.shared.write p.object (f m).1 } : World hash).setCall T none
      = { w with shared := w.shared.write p.object (f m).1 } := setCall_none hw.free
  have hmap : (callOf op h hd p progress).map = p := rfl
  simp only [step, access, hcall, hop, hmap, hmapped, hlive, hw.own, bne_self_eq_false,
    Bool.and_false, Bool.not_true, Bool.false_eq_true, if_false]
  refine congrArg (Outcome.next · _) ?_
  rw [← hend]
  exact setCall_setCall (w := { w with shared := w.shared.write p.object (f m).1 }) _ _

/-- Without a call in progress there is nothing to go on with. -/
lemma step_of_free (hfree : w.calls T = none) :
    (∀ d, w.step (.serializeKey T d) = .blocked) ∧ (∀ d, w.step (.serializeValue T d) = .blocked) ∧
      ∀ callback copyGranted alloc,
        w.step (.access T callback copyGranted alloc) = .blocked := by
  refine ⟨fun d => ?_, fun d => ?_, fun callback copyGranted alloc => ?_⟩
  · simp only [step, serializeKey, hfree]
  · simp only [step, serializeValue, hfree]
  · simp only [step, access, hfree]

/-! ## The call -/

/-- The tries end in `w'`, and what is seen last is `e`. -/
def EndsIn (r : List (Taken (World hash) Action Event) × World hash) (w' : World hash)
    (e : Event) : Prop :=
  r.2 = w' ∧ r.1.getLast?.map Taken.event = some e

lemma endsIn_append {ts : List (Taken (World hash) Action Event)}
    {t : Taken (World hash) Action Event} {w' : World hash} :
    EndsIn (ts ++ [t], w') w' t.event := by
  refine ⟨rfl, ?_⟩
  rw [List.getLast?_concat]
  rfl

variable {ts : List (Taken (World hash) Action Event)}

/-- The last step of a call. -/
lemma endsIn_access (hw : w.Ready T h hd p m) {op : Op} {progress : Progress} {s : Supply}
    {r : HashMap hash × Except Exn Result}
    (hop : ((callOf op h hd p progress).operation s.callback s.copyGranted s.alloc).map
      (fun f => f m) = some r) :
    EndsIn ((system hash).extend (ts, w.setCall T (some (callOf op h hd p progress)))
        (.access T s.callback s.copyGranted s.alloc))
      { w with shared := w.shared.write p.object r.1 }
      ((callOf op h hd p .opened).answer r.2) := by
  obtain ⟨f, hf, rfl⟩ := Option.map_eq_some_iff.mp hop
  rw [System.extend_of_next (step_access hw hf)]
  exact endsIn_append

/-- A call that has thrown does nothing more. -/
lemma endsIn_thrown (hw : w.Ready T h hd p m) {t : Taken (World hash) Action Event} {s : Supply} :
    EndsIn ((system hash).extend ((system hash).extend (ts ++ [t], w) (.serializeValue T s.value))
        (.access T s.callback s.copyGranted s.alloc))
      { w with shared := w.shared.write p.object m } t.event := by
  obtain ⟨-, hvalue, haccess⟩ := step_of_free hw.free
  rw [write_self hw.live, System.extend_of_blocked (r := (ts ++ [t], w)) (hvalue _),
    System.extend_of_blocked (r := (ts ++ [t], w)) (haccess _ _ _)]
  exact endsIn_append

/-- The rest of an `Insert` that has its key. -/
lemma endsIn_insert (hw : w.Ready T h hd p m) {key value : Arg} {s : Supply} {k : SharedString}
    (hk : internalSerialize key s.key = .ok k) :
    EndsIn ((system hash).extend ((system hash).extend
        (ts, w.setCall T (some (callOf (.insert key value) h hd p (.keyed k))))
        (.serializeValue T s.value)) (.access T s.callback s.copyGranted s.alloc))
      { w with shared := w.shared.write p.object ((Op.insert key value).perform m s).1 }
      ((callOf (.insert key value) h hd p .opened).answer
        ((Op.insert key value).perform m s).2) := by
  have hvalue := step_serializeValue (c := callOf (.insert key value) h hd p (.keyed k)) hw.mapped
    rfl rfl s.value
  cases hv : internalSerialize value s.value with
  | error e =>
    have hperform : (Op.insert key value).perform m s = (m, .error e) := by
      simp only [Op.perform, HashMap.insert, hk, hv]
      rfl
    obtain ⟨-, -, haccess⟩ := step_of_free hw.free
    rw [hv, setCall_none hw.free] at hvalue
    rw [System.extend_of_next (r := (ts, _)) hvalue, hperform, write_self hw.live,
      System.extend_of_blocked (r := (ts ++ [_], w)) (haccess _ _ _)]
    exact endsIn_append
  | ok v =>
    have hoperation : ((callOf (.insert key value) h hd p (.valued k v)).operation s.callback
        s.copyGranted s.alloc).map (fun f => f m) = some ((Op.insert key value).perform m s) := by
      simp only [Op.perform, HashMap.insert, hk, hv]
      rfl
    rw [hv] at hvalue
    rw [System.extend_of_next (r := (ts, _)) hvalue]
    exact endsIn_access hw hoperation

/-- The rest of a call that has its key. -/
lemma endsIn_keyed (hw : w.Ready T h hd p m) {op : Op} {key : Arg} {s : Supply} {k : SharedString}
    (hkey : op.key? = some key) (hk : internalSerialize key s.key = .ok k) :
    EndsIn ((system hash).extend ((system hash).extend
        (ts, w.setCall T (some (callOf op h hd p (.keyed k)))) (.serializeValue T s.value))
        (.access T s.callback s.copyGranted s.alloc))
      { w with shared := w.shared.write p.object (op.perform m s).1 }
      ((callOf op h hd p .opened).answer (op.perform m s).2) := by
  by_cases hinsert : ∃ key' value, op = .insert key' value
  · obtain ⟨key', value, rfl⟩ := hinsert
    obtain rfl : key' = key := Option.some.inj hkey
    exact endsIn_insert hw hk
  · have hblocked := step_serializeValue_of_ne (w := w) (T := T) (c := callOf op h hd p (.keyed k))
      (fun key' value hop => hinsert ⟨key', value, hop⟩) s.value
    rw [System.extend_of_blocked (r := (ts, _)) hblocked]
    refine endsIn_access hw ?_
    cases op with
    | insert key' value => exact absurd ⟨key', value, rfl⟩ hinsert
    | find key' | contains key' | erase key' =>
      obtain rfl : key' = key := Option.some.inj hkey
      simp only [Op.perform, HashMap.findRaw, HashMap.containsKey, HashMap.eraseKey, hk]
      rfl
    | size | empty => cases hkey

/-- **Calls without interruption.** -/
theorem perform_actions (hw : w.Ready T h hd p m) (op : Op) (s : Supply) :
    EndsIn ((op.actions T h s).foldl (system hash).extend (ts, w))
      { w with shared := w.shared.write p.object (op.perform m s).1 }
      ((callOf op h hd p .opened).answer (op.perform m s).2) := by
  have hcall := step_call hw op
  rw [Op.actions, List.foldl_cons, System.extend_of_next hcall, List.foldl_cons, List.foldl_cons,
    List.foldl_cons, List.foldl_nil]
  generalize ts ++ [_] = ts₁
  cases hkey : op.key? with
  | none =>
    have hblocked := step_serializeKey_of_none (w := w) (T := T)
      (c := callOf op h hd p .opened) hkey s.key
    have hblocked' := step_serializeValue_of_ne (w := w) (T := T)
      (c := callOf op h hd p .opened) (by rintro key value rfl; cases hkey) s.value
    rw [System.extend_of_blocked (r := (ts₁, _)) hblocked,
      System.extend_of_blocked (r := (ts₁, _)) hblocked']
    cases op with
    | size => exact endsIn_access hw rfl
    | empty => exact endsIn_access hw rfl
    | _ => cases hkey
  | some key =>
    have hserialize := step_serializeKey (c := callOf op h hd p .opened) hw.mapped hkey rfl s.key
    cases hk : internalSerialize key s.key with
    | error e =>
      have hperform : op.perform m s = (m, .error e) := by
        cases op <;> cases hkey <;>
          simp only [Op.perform, HashMap.insert, HashMap.findRaw, HashMap.containsKey,
            HashMap.eraseKey, hk] <;> rfl
      rw [hk, setCall_none hw.free] at hserialize
      rw [System.extend_of_next (r := (ts₁, _)) hserialize, hperform]
      exact endsIn_thrown hw
    | ok k =>
      rw [hk] at hserialize
      rw [System.extend_of_next (r := (ts₁, _)) hserialize]
      exact endsIn_keyed hw hkey hk

/-- A thread has constructed a handle. -/
def firstThread : World fun _ => 0 := ((system fun _ => 0).attempt [.construct 0 0 [65] true]).2

/-- The thread calls `Insert`. -/
theorem perform_actions_firstThread :
    EndsIn (((Op.insert (.user [1]) (.user [2])).actions 0 0 .granting).foldl
        (system fun _ => 0).extend ([], firstThread))
      { firstThread with
        shared := firstThread.shared.write 0
          ((Op.insert (.user [1]) (.user [2])).perform HashMap.create .granting).1 }
      ((callOf (.insert (.user [1]) (.user [2])) 0 ⟨[65], some ⟨0, 0⟩, false⟩ ⟨0, 0⟩ .opened).answer
        ((Op.insert (.user [1]) (.user [2])).perform (HashMap.create : HashMap fun _ => 0)
          .granting).2) :=
  perform_actions
    (show firstThread.Ready 0 0 ⟨[65], some ⟨0, 0⟩, false⟩ ⟨0, 0⟩ HashMap.create from
      ⟨rfl, rfl, rfl, rfl, rfl, rfl, rfl⟩) _ _

end World

end Jakilid
