import Jakilid.WorldSteps

/-!
# What becomes of dropped maps

`Drop` sets the `hash_map_` of its own handle to null, so that the next operation opens the map
anew. The other handles of the name keep the pointer to the destroyed map. `coherent_iff` says
exactly when no handle is left with such a pointer: when every `Drop` comes at a time at which no
other handle of the name has opened the map and no call on the name is in progress.
-/

namespace Jakilid

open Cuckoo Transition

namespace Segment

variable {hash : SharedString → UInt64} {s : Segment hash} {name : Name}

lemma registry_destroy : (s.destroy name).1.registry = Function.update s.registry name none := by
  rw [destroy]
  split
  · rfl
  · next hnone => exact (Function.update_eq_self_iff.mpr hnone.symm).symm

/-- A map under another name is not touched. -/
lemma objects_destroy_of_ne {name' : Name} {o : ObjectId} (h : s.registry name' = some o)
    (hne : name' ≠ name) : (s.destroy name).1.objects o = s.objects o := by
  rw [destroy]
  split
  · next o' ho =>
    refine Function.update_of_ne ?_ _ _
    rintro rfl
    exact hne (s.apart h ho)
  · rfl

/-- The map a new handle on the name would work on, if that is there. -/
def lookup (s : Segment hash) (name : Name) : Option (HashMap hash) :=
  match s.registry name with
  | some o => s.objects o
  | none => some .create

lemma lookup_write {o : ObjectId} (h : s.registry name = some o) (m : HashMap hash) :
    (s.write o m).lookup name = some m := by
  have h' : (s.write o m).registry name = some o := h
  rw [lookup, h']
  exact Function.update_self ..

lemma lookup_destroy : (s.destroy name).1.lookup name = some .create := by
  rw [lookup, registry_destroy, Function.update_self]

end Segment

namespace World

variable {hash : SharedString → UInt64} {w w' : World hash}

/-- The map the next operation of the handle works on, if that is there. -/
def mapOf (w : World hash) (hd : Handle) : Option (HashMap hash) :=
  match hd.hashMap with
  | some p => w.shared.objects p.object
  | none => w.shared.lookup hd.name

/-- Every `hash_map_`, and every copy of it a call works with, points to the map that is
registered under the name of its handle, and that map is alive. So all handles of a name work on
the same map, and no operation gets to a dropped one. -/
structure Coherent (w : World hash) : Prop where
  handles : ∀ {h hd p}, w.handles h = some hd → hd.hashMap = some p →
    w.shared.registry hd.name = some p.object ∧ ∃ m, w.shared.objects p.object = some m
  calls : ∀ {T c}, w.calls T = some c →
    w.shared.registry c.name = some c.map.object ∧ ∃ m, w.shared.objects c.map.object = some m
  shared : ∀ {h hd}, w.handles h = some hd → w.mapOf hd = w.shared.lookup hd.name
  alive : ∀ a, w.step a ≠ .fault .dropped

lemma coherent_of_registered
    (hhandles : ∀ {h hd p}, w.handles h = some hd → hd.hashMap = some p →
      w.shared.registry hd.name = some p.object)
    (hcalls : ∀ {T c}, w.calls T = some c → w.shared.registry c.name = some c.map.object) :
    Coherent w where
  handles hh hp := ⟨hhandles hh hp, w.shared.live (hhandles hh hp)⟩
  calls hc := ⟨hcalls hc, w.shared.live (hcalls hc)⟩
  shared {h hd} hh := by
    rw [mapOf]
    split
    · next p hp => rw [Segment.lookup, hhandles hh hp]
    · rfl
  alive a ha := by
    cases faulty_of_step ha with
    | dead hcall hdead =>
      obtain ⟨m, hm⟩ := w.shared.live (hcalls hcall)
      rw [hdead] at hm
      cases hm

/-- A `Drop` is made when no other handle of the name has opened the map, and no call on the name
is in progress. -/
def DropsAlone (w : World hash) : Action → Prop
  | .drop _ h => ∀ hd, w.handles h = some hd →
      (∀ h' hd', w.handles h' = some hd' → hd'.name = hd.name → h' ≠ h → hd'.hashMap = none) ∧
      ∀ T c, w.calls T = some c → c.name ≠ hd.name
  | _ => True

/-- After a `Drop` every handle of the name works on an empty map; after any other operation every
handle of the name works on the map the operation has left. -/
def Seen (w w' : World hash) : Action → Prop
  | .drop _ h => ∀ hd, w.handles h = some hd →
      ∀ h' hd', w'.handles h' = some hd' → hd'.name = hd.name → w'.mapOf hd' = some .create
  | .access T callback copyGranted alloc => ∀ c f m, w.calls T = some c →
      c.operation callback copyGranted alloc = some f → w.shared.objects c.map.object = some m →
      ∀ h' hd', w'.handles h' = some hd' → hd'.name = c.name → w'.mapOf hd' = some (f m).1
  | _ => True

namespace Coherent

lemma init : Coherent (World.init : World hash) :=
  coherent_of_registered nofun nofun

lemma opens (hw : Coherent w) {T : ThreadId} {name : Name} {hashMap : Option Pointer}
    {p : Pointer} (hopen : Opens w T name hashMap w' p) : Coherent w' := by
  obtain ⟨hhandles, hcalls, -⟩ := hopen.frame
  refine coherent_of_registered (fun {h hd q} hh hq => ?_) (fun {T' c} hc => ?_)
  · rw [hhandles] at hh
    exact hopen.registry_mono (hw.handles hh hq).1
  · rw [hcalls] at hc
    exact hopen.registry_mono (hw.calls hc).1

lemma setHandle (hw : Coherent w) (h : HandleId) {hd : Handle}
    (hhd : ∀ p, hd.hashMap = some p → w.shared.registry hd.name = some p.object) :
    Coherent (w.setHandle h hd) := by
  refine coherent_of_registered (fun {h' hd' p} hh hp => ?_) fun hc => (hw.calls hc).1
  simp only [World.setHandle, Function.update_apply] at hh
  split at hh
  · obtain rfl := Option.some.inj hh
    exact hhd p hp
  · exact (hw.handles hh hp).1

lemma setCall (hw : Coherent w) (T : ThreadId) {c : Option Call}
    (hc : ∀ c', c = some c' → w.shared.registry c'.name = some c'.map.object) :
    Coherent (w.setCall T c) := by
  refine coherent_of_registered (fun hh hp => (hw.handles hh hp).1) fun {T' c'} hc' => ?_
  simp only [World.setCall, Function.update_apply] at hc'
  split at hc'
  · exact hc c' hc'
  · exact (hw.calls hc').1

/-- A call in progress goes on with the same pointer. -/
lemma proceed (hw : Coherent w) {T : ThreadId} {c : Call} (hc : w.calls T = some c)
    (progress : Progress) : Coherent (w.setCall T (some { c with progress := progress })) := by
  refine hw.setCall T fun c' h => ?_
  obtain rfl := Option.some.inj h
  exact (hw.calls hc).1

lemma endCall (hw : Coherent w) (T : ThreadId) : Coherent (w.setCall T none) :=
  hw.setCall T nofun

/-- What a step preserves, unless it drops a map that others use. -/
theorem step (hw : Coherent w) {a : Action} {e : Event} (ha : DropsAlone w a)
    (hs : w.step a = .next w' e) : Coherent w' := by
  have hmanager : ∀ T, Coherent (w.openManager T) := fun T =>
    coherent_of_registered (fun hh hp => (hw.handles hh hp).1) fun hc => (hw.calls hc).1
  cases next_of_step hs with
  | constructed hidle hnew hopen =>
    refine (hw.opens hopen).setHandle _ fun q hq => ?_
    obtain rfl := Option.some.inj hq
    exact hopen.registered
  | notConstructed => exact hmanager _
  | notCalled => exact hmanager _
  | @called T h op granted hd w₁ p hidle hhandle hopen =>
    have hp : w₁.shared.registry hd.name = some p.object := by
      cases hcached : hd.hashMap with
      | some q =>
        rw [hcached] at hopen
        cases hopen
        exact (hw.handles hhandle hcached).1
      | none =>
        rw [hcached] at hopen
        exact hopen.registered
    refine ((hw.opens hopen).setHandle _ fun q hq => ?_).setCall _ fun c hc => ?_
    · obtain rfl := Option.some.inj hq
      exact hp
    · obtain rfl := Option.some.inj hc
      exact hp
  | keySerialized hcall hkey hk => exact hw.proceed hcall _
  | valueSerialized hcall hop hprogress hv => exact hw.proceed hcall _
  | keyFailed => exact hw.endCall _
  | valueFailed => exact hw.endCall _
  | accessed hcall hop hlive =>
    refine endCall (coherent_of_registered (fun hh hp => ?_) fun hc => ?_) _
    · exact (hw.handles hh hp).1
    · exact (hw.calls hc).1
  | @dropped T h hd hidle hhandle =>
    obtain ⟨hothers, hcalls⟩ := ha hd hhandle
    refine coherent_of_registered (fun {h' hd' p} hh hp => ?_) fun {T' c} hc => ?_
    · obtain ⟨hd₁, hhd₁, rfl⟩ := Option.map_eq_some_iff.mp hh
      rw [Segment.registry_destroy]
      split at hp
      · cases hp
      · next hne =>
        rw [if_neg hne, Function.update_of_ne]
        · exact (hw.handles hhd₁ hp).1
        · intro hname
          have hnull := hothers h' hd₁ hhd₁ hname hne
          rw [show hd₁.hashMap = some p from hp] at hnull
          cases hnull
    · rw [Segment.registry_destroy, Function.update_of_ne (hcalls T' c hc)]
      exact (hw.calls hc).1
  | exited hidle =>
    exact coherent_of_registered (fun hh hp => (hw.handles hh hp).1) fun hc => (hw.calls hc).1

/-- In coherent states operations are seen by all handles. -/
lemma seen (hw : Coherent w) (hw' : Coherent w') {a : Action} {e : Event}
    (hs : w.step a = .next w' e) : Seen w w' a := by
  cases next_of_step hs with
  | @dropped T h hd hidle hhandle =>
    intro hd₀ hhd₀ h' hd' hh' hname
    obtain rfl := Option.some.inj (hhandle.symm.trans hhd₀)
    rw [hw'.shared hh', hname]
    exact Segment.lookup_destroy
  | @accessed T callback copyGranted alloc c f m hcall hop hlive =>
    intro c₀ f₀ m₀ hcall₀ hop₀ hlive₀ h' hd' hh' hname
    obtain rfl := Option.some.inj (hcall.symm.trans hcall₀)
    obtain rfl := Option.some.inj (hop.symm.trans hop₀)
    obtain rfl := Option.some.inj (hlive.symm.trans hlive₀)
    rw [hw'.shared hh', hname]
    exact Segment.lookup_write (hw.calls hcall).1 _
  | _ => trivial

end Coherent

end World

end Jakilid
