import Jakilid.World

/-!
# What a step can do

`Next w a w' e` lists the ways in which an action `a` leads from `w` to `w'` (`next_of_step`), and
`Faulty w a f` the ways in which it goes wrong (`faulty_of_step`). The invariants of the system are
proved from them, one case after the other, without going back to the definitions of the steps.
-/

namespace Jakilid

open Cuckoo Transition

namespace World

variable {hash : SharedString → UInt64} {w w' : World hash}

lemma idle_iff {T : ThreadId} :
    w.idle T = true ↔ w.exited T = false ∧ w.calls T = none := by
  rw [idle, Bool.and_eq_true, Bool.not_eq_true', Option.isNone_iff_eq_none]

/-- How `open()` comes by a map: it is cached, or registered, or new. -/
inductive Opens (w : World hash) (T : ThreadId) (name : Name) :
    Option Pointer → World hash → Pointer → Prop
  | cached (p : Pointer) : Opens w T name (some p) w p
  | found {o : ObjectId} (h : w.shared.registry name = some o) :
      Opens w T name none (w.openManager T) ⟨T, o⟩
  | made (h : w.shared.registry name = none) :
      Opens w T name none { w.openManager T with shared := w.shared.construct name }
        ⟨T, w.shared.fresh⟩

lemma openMap_eq_ok {T : ThreadId} {hashMap : Option Pointer} {name : Name} {granted : Bool}
    {p : Pointer} (h : w.openMap T hashMap name granted = (w', .ok p)) :
    Opens w T name hashMap w' p := by
  cases hashMap with
  | some q =>
    obtain ⟨rfl, hp⟩ := Prod.mk.inj h
    obtain rfl := Except.ok.inj hp
    exact .cached q
  | none =>
    simp only [openMap, openManager, Segment.findOrConstruct] at h
    cases hr : w.shared.registry name with
    | some o =>
      rw [hr] at h
      obtain ⟨rfl, hp⟩ := Prod.mk.inj h
      obtain rfl := Except.ok.inj hp
      exact .found hr
    | none =>
      rw [hr] at h
      cases granted with
      | false => cases (Prod.mk.inj h).2
      | true =>
        obtain ⟨rfl, hp⟩ := Prod.mk.inj h
        obtain rfl := Except.ok.inj hp
        exact .made hr

/-- An `open()` that fails leaves the segment of the thread mapped and nothing else. -/
lemma openMap_eq_error {T : ThreadId} {hashMap : Option Pointer} {name : Name} {granted : Bool}
    {e : Exn} (h : w.openMap T hashMap name granted = (w', .error e)) :
    w' = w.openManager T ∧ e = .badAlloc := by
  cases hashMap with
  | some q => cases (Prod.mk.inj h).2
  | none =>
    simp only [openMap, openManager, Segment.findOrConstruct] at h
    cases hr : w.shared.registry name with
    | some o =>
      rw [hr] at h
      cases (Prod.mk.inj h).2
    | none =>
      rw [hr] at h
      cases granted with
      | false =>
        obtain ⟨rfl, he⟩ := Prod.mk.inj h
        exact ⟨rfl, (Except.error.inj he).symm⟩
      | true => cases (Prod.mk.inj h).2

/-- A step from `w` to `w'` that shows `e`. -/
inductive Next (w : World hash) : Action → World hash → Event → Prop
  | constructed {T : ThreadId} {h : HandleId} {name : Name} {granted : Bool} {w' : World hash}
      {p : Pointer} (hidle : w.exited T = false ∧ w.calls T = none) (hnew : w.handles h = none)
      (hopen : Opens w T name none w' p) :
      Next w (.construct T h name granted) (w'.setHandle h ⟨name, some p, false⟩) (.opened name)
  | notConstructed {T : ThreadId} {h : HandleId} {name : Name} {granted : Bool} :
      Next w (.construct T h name granted) (w.openManager T) (.threw .badAlloc)
  | called {T : ThreadId} {h : HandleId} {op : Op} {granted : Bool} {hd : Handle}
      {w' : World hash} {p : Pointer} (hidle : w.exited T = false ∧ w.calls T = none)
      (hhandle : w.handles h = some hd) (hopen : Opens w T hd.name hd.hashMap w' p) :
      Next w (.call T h op granted)
        ((w'.setHandle h { hd with hashMap := some p }).setCall T
          (some ⟨h, hd.name, op, p, .opened⟩)) (.opened hd.name)
  | notCalled {T : ThreadId} {h : HandleId} {op : Op} {granted : Bool} :
      Next w (.call T h op granted) (w.openManager T) (.threw .badAlloc)
  | keySerialized {T : ThreadId} {d : Draw} {c : Call} {key : Arg} {k : SharedString}
      (hcall : w.calls T = some c) (hkey : c.op.key? = some key)
      (hk : internalSerialize key d = .ok k) :
      Next w (.serializeKey T d) (w.setCall T (some { c with progress := .keyed k })) .silent
  | valueSerialized {T : ThreadId} {d : Draw} {c : Call} {key value : Arg} {k v : SharedString}
      (hcall : w.calls T = some c) (hop : c.op = .insert key value)
      (hprogress : c.progress = .keyed k) (hv : internalSerialize value d = .ok v) :
      Next w (.serializeValue T d) (w.setCall T (some { c with progress := .valued k v })) .silent
  | keyFailed {T : ThreadId} {d : Draw} :
      Next w (.serializeKey T d) (w.setCall T none) (.threw .badAlloc)
  | valueFailed {T : ThreadId} {d : Draw} :
      Next w (.serializeValue T d) (w.setCall T none) (.threw .badAlloc)
  | accessed {T : ThreadId} {callback : Draw} {copyGranted : Bool} {alloc : Allocator} {c : Call}
      {f : HashMap hash → HashMap hash × Except Exn Result} {m : HashMap hash}
      (hcall : w.calls T = some c) (hop : c.operation callback copyGranted alloc = some f)
      (hlive : w.shared.objects c.map.object = some m) :
      Next w (.access T callback copyGranted alloc)
        ({ w with shared := w.shared.write c.map.object (f m).1 }.setCall T none)
        (c.answer (f m).2)
  | dropped {T : ThreadId} {h : HandleId} {hd : Handle}
      (hidle : w.exited T = false ∧ w.calls T = none) (hhandle : w.handles h = some hd) :
      Next w (.drop T h)
        { w with
          shared := (w.shared.destroy hd.name).1
          handles := w.forget h hd.name }
        (.dropped hd.name (w.shared.destroy hd.name).2)
  | exited {T : ThreadId} (hidle : w.exited T = false ∧ w.calls T = none) :
      Next w (.exit T)
        { w with
          segment := Function.update w.segment T false
          exited := Function.update w.exited T true } .silent

lemma next_of_serializeArg {T : ThreadId} {c : Call} {a : Arg} {d : Draw}
    {progress : SharedString → Progress} {e : Event}
    (h : w.serializeArg T c a d progress = .next w' e) :
    (∃ s, internalSerialize a d = .ok s ∧
      w' = w.setCall T (some { c with progress := progress s }) ∧ e = .silent) ∨
    w' = w.setCall T none ∧ e = .threw .badAlloc := by
  rw [serializeArg] at h
  split at h
  · cases hs : internalSerialize a d with
    | error e =>
      rw [hs] at h
      obtain ⟨rfl, rfl⟩ := Outcome.next.inj h
      rw [internalSerialize_eq_error hs]
      exact .inr ⟨rfl, rfl⟩
    | ok s =>
      rw [hs] at h
      obtain ⟨rfl, rfl⟩ := Outcome.next.inj h
      exact .inl ⟨s, rfl, rfl, rfl⟩
  · cases h

/-- **Inversion.** Every step is one of these. -/
theorem next_of_step {a : Action} {e : Event} (hs : w.step a = .next w' e) : Next w a w' e := by
  cases a with
  | construct T h name granted =>
    simp only [step, construct] at hs
    split at hs
    · next hif =>
      rw [Bool.and_eq_true, idle_iff, Option.isNone_iff_eq_none] at hif
      cases hopen : w.openMap T none name granted with
      | mk w₁ r =>
        rw [hopen] at hs
        cases r with
        | error x =>
          obtain ⟨rfl, rfl⟩ := Outcome.next.inj hs
          obtain ⟨rfl, rfl⟩ := openMap_eq_error hopen
          exact .notConstructed
        | ok p =>
          obtain ⟨rfl, rfl⟩ := Outcome.next.inj hs
          exact .constructed hif.1 hif.2 (openMap_eq_ok hopen)
    · cases hs
  | call T h op granted =>
    simp only [step, call] at hs
    split at hs
    · next hd hidle hhandle =>
      cases hopen : w.openMap T hd.hashMap hd.name granted with
      | mk w₁ r =>
        rw [hopen] at hs
        cases r with
        | error x =>
          obtain ⟨rfl, rfl⟩ := Outcome.next.inj hs
          obtain ⟨rfl, rfl⟩ := openMap_eq_error hopen
          exact .notCalled
        | ok p =>
          obtain ⟨rfl, rfl⟩ := Outcome.next.inj hs
          exact .called (idle_iff.mp hidle) hhandle (openMap_eq_ok hopen)
    · cases hs
  | serializeKey T d =>
    simp only [step, serializeKey] at hs
    split at hs
    · cases hs
    · next c hcall =>
      split at hs
      · next key hkey _ =>
        rcases next_of_serializeArg hs with ⟨s, hk, rfl, rfl⟩ | ⟨rfl, rfl⟩
        · exact .keySerialized hcall hkey hk
        · exact .keyFailed
      · cases hs
  | serializeValue T d =>
    simp only [step, serializeValue] at hs
    split at hs
    · cases hs
    · next c hcall =>
      split at hs
      · next key value k hop hprogress =>
        rcases next_of_serializeArg hs with ⟨s, hv, rfl, rfl⟩ | ⟨rfl, rfl⟩
        · exact .valueSerialized hcall hop hprogress hv
        · exact .valueFailed
      · cases hs
  | access T callback copyGranted alloc =>
    simp only [step, access] at hs
    split at hs
    · cases hs
    · next c hcall =>
      split at hs
      · cases hs
      · next f hop =>
        split at hs
        · cases hs
        · split at hs
          · cases hs
          · split at hs
            · cases hs
            · next m hlive =>
              obtain ⟨rfl, rfl⟩ := Outcome.next.inj hs
              exact .accessed hcall hop hlive
  | drop T h =>
    simp only [step, drop] at hs
    split at hs
    · next hd hidle hhandle =>
      split at hs
      · obtain ⟨rfl, rfl⟩ := Outcome.next.inj hs
        exact .dropped (idle_iff.mp hidle) hhandle
      · cases hs
    · cases hs
  | exit T =>
    simp only [step, exit] at hs
    split at hs
    · next hidle =>
      obtain ⟨rfl, rfl⟩ := Outcome.next.inj hs
      exact .exited (idle_iff.mp hidle)
    · cases hs

/-- An action that goes wrong. -/
inductive Faulty (w : World hash) : Action → Fault → Prop
  | key {T : ThreadId} {d : Draw} {c : Call} {key : Arg} (hcall : w.calls T = some c)
      (hkey : c.op.key? = some key) (hnull : w.segment T = false) :
      Faulty w (.serializeKey T d) .nullSegment
  | value {T : ThreadId} {d : Draw} {c : Call} {key value : Arg} (hcall : w.calls T = some c)
      (hop : c.op = .insert key value) (hnull : w.segment T = false) :
      Faulty w (.serializeValue T d) .nullSegment
  | unmapped {T : ThreadId} {callback : Draw} {copyGranted : Bool} {alloc : Allocator} {c : Call}
      (hcall : w.calls T = some c) (hmapping : w.segment c.map.mapping = false) :
      Faulty w (.access T callback copyGranted alloc) .unmapped
  | foreign {T : ThreadId} {callback : Draw} {copyGranted : Bool} {alloc : Allocator} {c : Call}
      (hcall : w.calls T = some c) (hkey : c.op.key? ≠ none) (hmapping : c.map.mapping ≠ T) :
      Faulty w (.access T callback copyGranted alloc) .foreignMapping
  | dead {T : ThreadId} {callback : Draw} {copyGranted : Bool} {alloc : Allocator} {c : Call}
      (hcall : w.calls T = some c) (hdead : w.shared.objects c.map.object = none) :
      Faulty w (.access T callback copyGranted alloc) .dropped
  | drop {T : ThreadId} {h : HandleId} {hd : Handle}
      (hidle : w.exited T = false ∧ w.calls T = none) (hhandle : w.handles h = some hd)
      (hnull : w.segment T = false) :
      Faulty w (.drop T h) .nullSegment

lemma fault_of_serializeArg {T : ThreadId} {c : Call} {a : Arg} {d : Draw}
    {progress : SharedString → Progress} {f : Fault}
    (h : w.serializeArg T c a d progress = .fault f) :
    w.segment T = false ∧ f = .nullSegment := by
  rw [serializeArg] at h
  split at h
  · cases hs : internalSerialize a d with
    | error e => rw [hs] at h; cases h
    | ok s => rw [hs] at h; cases h
  · next hnull =>
    exact ⟨eq_false_of_ne_true hnull, (Outcome.fault.inj h).symm⟩

theorem faulty_of_step {a : Action} {f : Fault} (hs : w.step a = .fault f) : Faulty w a f := by
  cases a with
  | construct T h name granted =>
    simp only [step, construct] at hs
    split at hs
    · split at hs <;> cases hs
    · cases hs
  | call T h op granted =>
    simp only [step, call] at hs
    split at hs
    · split at hs <;> cases hs
    · cases hs
  | serializeKey T d =>
    simp only [step, serializeKey] at hs
    split at hs
    · cases hs
    · next c hcall =>
      split at hs
      · next key hkey _ =>
        obtain ⟨hnull, rfl⟩ := fault_of_serializeArg hs
        exact .key hcall hkey hnull
      · cases hs
  | serializeValue T d =>
    simp only [step, serializeValue] at hs
    split at hs
    · cases hs
    · next c hcall =>
      split at hs
      · next key value k hop _ =>
        obtain ⟨hnull, rfl⟩ := fault_of_serializeArg hs
        exact .value hcall hop hnull
      · cases hs
  | access T callback copyGranted alloc =>
    simp only [step, access] at hs
    split at hs
    · cases hs
    · next c hcall =>
      split at hs
      · cases hs
      · split at hs
        · next hmapping =>
          obtain rfl := Outcome.fault.inj hs
          exact .unmapped hcall ((Bool.not_eq_true' _).mp hmapping)
        · split at hs
          · next hforeign =>
            obtain rfl := Outcome.fault.inj hs
            rw [Bool.and_eq_true, bne_iff_ne] at hforeign
            exact .foreign hcall (Option.isSome_iff_ne_none.mp hforeign.1) hforeign.2
          · split at hs
            · next hdead =>
              obtain rfl := Outcome.fault.inj hs
              exact .dead hcall hdead
            · cases hs
  | drop T h =>
    simp only [step, drop] at hs
    split at hs
    · next hd hidle hhandle =>
      split at hs
      · cases hs
      · next hnull =>
        obtain rfl := Outcome.fault.inj hs
        exact .drop (idle_iff.mp hidle) hhandle (eq_false_of_ne_true hnull)
    · cases hs
  | exit T =>
    simp only [step, exit] at hs
    split at hs <;> cases hs

/-! ## Opening a map -/

namespace Opens

variable {T : ThreadId} {name : Name} {hashMap : Option Pointer} {p : Pointer}

lemma frame (h : Opens w T name hashMap w' p) :
    w'.handles = w.handles ∧ w'.calls = w.calls ∧ w'.exited = w.exited := by
  cases h <;> exact ⟨rfl, rfl, rfl⟩

/-- A mapping that is there stays. -/
lemma segment_mono (h : Opens w T name hashMap w' p) {T' : ThreadId} (hT : w.segment T' = true) :
    w'.segment T' = true := by
  have hupdate : Function.update w.segment T true T' = true := by
    rw [Function.update_apply]
    split
    · rfl
    · exact hT
  cases h
  · exact hT
  · exact hupdate
  · exact hupdate

/-- A pointer that was not cached points into the thread's own mapping. -/
lemma pointer (h : Opens w T name hashMap w' p) :
    hashMap = some p ∨ p.mapping = T ∧ w'.segment T = true := by
  cases h
  · exact .inl rfl
  · exact .inr ⟨rfl, Function.update_self ..⟩
  · exact .inr ⟨rfl, Function.update_self ..⟩

/-- A registered map stays registered. -/
lemma registry_mono (h : Opens w T name hashMap w' p) {name' : Name} {o : ObjectId}
    (ho : w.shared.registry name' = some o) : w'.shared.registry name' = some o := by
  cases h with
  | cached => exact ho
  | found hr => exact ho
  | made hr =>
    refine (Function.update_of_ne ?_ _ _).trans ho
    rintro rfl
    rw [hr] at ho
    cases ho

/-- A pointer that was not cached points to the registered map. -/
lemma registered (h : Opens w T name none w' p) : w'.shared.registry name = some p.object := by
  cases h with
  | found hr => exact hr
  | made hr => exact Function.update_self ..

end Opens

end World

end Jakilid
