import Jakilid.DropTheorems

/-!
# Threads and their mappings

`hash_map_` is cached per object, `segment_` is set per thread, and `open()` sets `segment_` only
when the object has no cached pointer. So a thread may call an operation on an object that another
thread has opened without ever setting its own `segment_`. `atHome_of_disciplined` says when all
goes well: as long as threads keep to pointers obtained by themselves.
-/

namespace Jakilid

open Cuckoo Transition

namespace World

variable {hash : SharedString → UInt64} {w w' : World hash}

/-- The step keeps to the thread's own mapping. A call is made on an object without a cached
pointer or with one of the thread's own, or is a `Size` or `Empty` through the mapping of a thread
that still runs. A `Drop` is made by a thread that has opened the segment. A thread ends only when
no call goes through its mapping any more. -/
def Disciplined (w : World hash) : Action → Prop
  | .call T h op _ => ∀ hd p, w.handles h = some hd → hd.hashMap = some p →
      p.mapping = T ∨ op.key? = none ∧ w.exited p.mapping = false
  | .drop T _ => w.segment T = true
  | .exit T => ∀ T' c, w.calls T' = some c → c.map.mapping ≠ T
  | _ => True

/-- Mappings last as long as their threads, and calls go through mappings that are there. -/
structure Housed (w : World hash) : Prop where
  pointers : ∀ {h hd p}, w.handles h = some hd → hd.hashMap = some p →
    w.segment p.mapping = true ∨ w.exited p.mapping = true
  running : ∀ {T c}, w.calls T = some c → w.exited T = false
  mapped : ∀ {T c}, w.calls T = some c → w.segment c.map.mapping = true
  own : ∀ {T c}, w.calls T = some c → c.op.key? ≠ none → c.map.mapping = T

namespace Housed

lemma init : Housed (World.init : World hash) where
  pointers := nofun
  running := nofun
  mapped := nofun
  own := nofun

/-- More mappings do no harm. -/
lemma mono (hw : Housed w) (hhandles : w'.handles = w.handles) (hcalls : w'.calls = w.calls)
    (hexited : w'.exited = w.exited) (hsegment : ∀ {T}, w.segment T = true → w'.segment T = true) :
    Housed w' where
  pointers hh hp := by
    rw [hhandles] at hh
    rw [hexited]
    exact (hw.pointers hh hp).imp_left hsegment
  running hc := by
    rw [hcalls] at hc
    rw [hexited]
    exact hw.running hc
  mapped hc := by
    rw [hcalls] at hc
    exact hsegment (hw.mapped hc)
  own hc := by
    rw [hcalls] at hc
    exact hw.own hc

lemma openManager (hw : Housed w) (T : ThreadId) : Housed (w.openManager T) :=
  hw.mono rfl rfl rfl fun {T'} hT => by
    refine (Function.update_apply ..).trans ?_
    split
    · rfl
    · exact hT

lemma opens (hw : Housed w) {T : ThreadId} {name : Name} {hashMap : Option Pointer} {p : Pointer}
    (hopen : Opens w T name hashMap w' p) : Housed w' :=
  hw.mono hopen.frame.1 hopen.frame.2.1 hopen.frame.2.2 hopen.segment_mono

lemma setHandle (hw : Housed w) (h : HandleId) {hd : Handle}
    (hhd : ∀ p, hd.hashMap = some p → w.segment p.mapping = true ∨ w.exited p.mapping = true) :
    Housed (w.setHandle h hd) where
  pointers {h' hd' p} hh hp := by
    simp only [World.setHandle, Function.update_apply] at hh
    split at hh
    · obtain rfl := Option.some.inj hh
      exact hhd p hp
    · exact hw.pointers hh hp
  running := hw.running
  mapped := hw.mapped
  own := hw.own

lemma endCall (hw : Housed w) (T : ThreadId) : Housed (w.setCall T none) where
  pointers := hw.pointers
  running {T' c} hc := by
    simp only [World.setCall, Function.update_apply] at hc
    split at hc
    · cases hc
    · exact hw.running hc
  mapped {T' c} hc := by
    simp only [World.setCall, Function.update_apply] at hc
    split at hc
    · cases hc
    · exact hw.mapped hc
  own {T' c} hc := by
    simp only [World.setCall, Function.update_apply] at hc
    split at hc
    · cases hc
    · exact hw.own hc

lemma setCall (hw : Housed w) {T : ThreadId} {c : Call} (hrunning : w.exited T = false)
    (hmapped : w.segment c.map.mapping = true) (hown : c.op.key? ≠ none → c.map.mapping = T) :
    Housed (w.setCall T (some c)) where
  pointers := hw.pointers
  running {T' c'} hc := by
    simp only [World.setCall, Function.update_apply] at hc
    split at hc
    · next hT => rwa [hT]
    · exact hw.running hc
  mapped {T' c'} hc := by
    simp only [World.setCall, Function.update_apply] at hc
    split at hc
    · obtain rfl := Option.some.inj hc
      exact hmapped
    · exact hw.mapped hc
  own {T' c'} hc := by
    simp only [World.setCall, Function.update_apply] at hc
    split at hc
    · next hT =>
      obtain rfl := Option.some.inj hc
      rwa [hT]
    · exact hw.own hc

/-- A call in progress goes on with the same operation and the same pointer. -/
lemma proceed (hw : Housed w) {T : ThreadId} {c : Call} (hc : w.calls T = some c)
    (progress : Progress) : Housed (w.setCall T (some { c with progress := progress })) := by
  have hmapped := hw.mapped hc
  have hown := hw.own hc
  exact hw.setCall (hw.running hc) hmapped hown

/-- What becomes of the maps does not matter. -/
lemma withShared (hw : Housed w) (s : Segment hash) : Housed { w with shared := s } :=
  hw.mono rfl rfl rfl id

/-- The pointer a disciplined call works with. -/
lemma pointer_of_call (hw : Housed w) {T : ThreadId} {h : HandleId} {op : Op} {granted : Bool}
    {hd : Handle} {p : Pointer} (hd' : Disciplined w (.call T h op granted))
    (hrunning : w.exited T = false) (hhandle : w.handles h = some hd)
    (hopen : Opens w T hd.name hd.hashMap w' p) :
    w'.segment p.mapping = true ∧ (op.key? ≠ none → p.mapping = T) := by
  rcases hopen.pointer with hp | ⟨hT, hsegment⟩
  · have hthere : ∀ {T'}, p.mapping = T' → w.exited T' = false → w.segment p.mapping = true := by
      rintro T' rfl hexited
      rcases hw.pointers hhandle hp with hs | he
      · exact hs
      · rw [hexited] at he
        cases he
    rcases hd' hd p hhandle hp with hT | ⟨hkey, hexited⟩
    · exact ⟨hopen.segment_mono (hthere hT hrunning), fun _ => hT⟩
    · exact ⟨hopen.segment_mono (hthere rfl hexited), fun hne => absurd hkey hne⟩
  · exact ⟨hT ▸ hsegment, fun _ => hT⟩

/-- What a disciplined step preserves. -/
theorem step (hw : Housed w) {a : Action} {e : Event} (ha : Disciplined w a)
    (hs : w.step a = .next w' e) : Housed w' := by
  cases next_of_step hs with
  | constructed hidle hnew hopen =>
    refine (hw.opens hopen).setHandle _ fun q hq => ?_
    obtain rfl := Option.some.inj hq
    rcases hopen.pointer with hp | ⟨hT, hsegment⟩
    · cases hp
    · exact .inl (hT ▸ hsegment)
  | notConstructed => exact hw.openManager _
  | notCalled => exact hw.openManager _
  | called hidle hhandle hopen =>
    obtain ⟨hsegment, hown⟩ := hw.pointer_of_call ha hidle.1 hhandle hopen
    refine ((hw.opens hopen).setHandle _ fun q hq => ?_).setCall ?_ hsegment hown
    · obtain rfl := Option.some.inj hq
      exact .inl hsegment
    · exact (congrFun hopen.frame.2.2 _).trans hidle.1
  | keySerialized hcall hkey hk => exact hw.proceed hcall _
  | valueSerialized hcall hop hprogress hv => exact hw.proceed hcall _
  | keyFailed => exact hw.endCall _
  | valueFailed => exact hw.endCall _
  | accessed hcall hop hlive => exact (hw.withShared _).endCall _
  | dropped hidle hhandle =>
    refine ⟨fun {h' hd' p} hh hp => ?_, hw.running, hw.mapped, hw.own⟩
    obtain ⟨hd₁, hhd₁, rfl⟩ := Option.map_eq_some_iff.mp hh
    split at hp
    · cases hp
    · exact hw.pointers hhd₁ hp
  | @exited T hidle =>
    have hcaller : ∀ {T' c}, w.calls T' = some c → T' ≠ T := by
      rintro T' c hc rfl
      rw [hidle.2] at hc
      cases hc
    refine ⟨fun {h' hd' p} hh hp => ?_, fun {T' c} hc => ?_, fun {T' c} hc => ?_, hw.own⟩
    · simp only [Function.update_apply]
      split
      · exact .inr rfl
      · exact hw.pointers hh hp
    · exact (Function.update_of_ne (hcaller hc) _ _).trans (hw.running hc)
    · exact (Function.update_of_ne (ha T' c hc) _ _).trans (hw.mapped hc)

end Housed

end World

end Jakilid
