import Jakilid.SharedDict

/-!
# Types of stored values

What a `Find` makes of an entry, for every type it was stored as and every type it is read as.
Between the built-in types the tags decide (`decode_law`). The types that users bring along have
no tags: their bytes are stored as they are, and handed back as they are (`userCodec_law`).
-/

namespace Jakilid

open Cuckoo

/-! ## Keys -/

/-- The key is a `long double`, whose bytes are not determined by its value. -/
def Arg.Padded : Arg → Prop
  | .builtin (.value (.real .longDouble)) _ => True
  | _ => False

lemma serialize_padding {U : Storable} (h : U ≠ .value (.real .longDouble)) (u : U.Val)
    (padding padding' : Padding) : serialize U u padding = serialize U u padding' := by
  rw [serialize_eq, serialize_eq]
  rcases U with V | _ | _
  · cases V with
    | real k =>
      cases k with
      | float => simp [payload, realObject, RealKind.sizeof, RealKind.valueBytes]
      | double => simp [payload, realObject, RealKind.sizeof, RealKind.valueBytes]
      | longDouble => exact absurd rfl h
    | _ => rfl
  · rfl
  · rfl

lemma Arg.bytes_congr {a : Arg} {padding padding' : Padding}
    (h : a.Padded → padding = padding') : a.bytes padding = a.bytes padding' := by
  cases a with
  | user byteArray => rfl
  | builtin U u =>
    by_cases hU : U = .value (.real .longDouble)
    · subst hU
      rw [h trivial]
    · exact serialize_padding hU u padding padding'

namespace HashMap

variable {hash : SharedString → UInt64} {m : HashMap hash} {key value : Arg} {s s' : Supply}

/-- After an `Insert` a `FindRaw` of the key returns the bytes of the value. -/
lemma findRaw_insert {b : Bool} (h : (m.insert key value s).2 = .ok b)
    (hkey : key.Padded → s'.key.padding = s.key.padding) (hgranted : s'.key.granted = true)
    (hcopy : s'.copyGranted = true) :
    ∃ d, (d = s.value ∨ d = s.callback) ∧
      (m.insert key value s).1.findRaw key s' = .ok (some (value.bytes d.padding)) := by
  obtain ⟨d, hd, -, hfind⟩ := find_insert h
  refine ⟨d, hd, ?_⟩
  rw [findRaw_of_granted hgranted hcopy, hfind, Arg.bytes_congr hkey, Function.update_self]

lemma findAs_of_findRaw {V : Readable} {res : SharedString}
    (h : m.findRaw key s = .ok (some res)) :
    m.findAs V key s =
      match deserialize V res with
      | .error e => .error (.decode e)
      | .ok v => .ok (some v) := by
  cases hd : deserialize V res <;> simp only [findAs, h, hd]

/-- After an `Insert` another key addresses the entry just written only if its bytes are the
same. -/
lemma sharesEntry_insert_iff {b : Bool} (h : (m.insert key value s).2 = .ok b)
    (other : SharedString) :
    (m.insert key value s).1.SharesEntry (key.bytes s.key.padding) other ↔
      other = key.bytes s.key.padding := by
  obtain ⟨d, -, -, hfind⟩ := find_insert h
  rw [sharesEntry_iff, hfind, Function.update_self]
  exact and_iff_right (Option.some_ne_none _)

lemma findAs_eq_ok_iff {V : Readable} {res : SharedString} {v : V.Val}
    (h : m.findRaw key s = .ok (some res)) :
    m.findAs V key s = .ok (some v) ↔ deserialize V res = .ok v := by
  rw [findAs_of_findRaw h]
  cases deserialize V res <;> simp

/-- `Find`, `Contains` and `Erase` with this key work on the entry under the string `written`. -/
def ActsOn (m : HashMap hash) (written : SharedString) (key : Arg) (s : Supply) : Prop :=
  ∃ k, internalSerialize key s.key = .ok k ∧ m.SharesEntry written k

lemma actsOn_insert_iff {b : Bool} (h : (m.insert key value s).2 = .ok b) (hgranted : s'.key.granted = true)
    (other : Arg) :
    (m.insert key value s).1.ActsOn (key.bytes s.key.padding) other s' ↔
      other.bytes s'.key.padding = key.bytes s.key.padding := by
  rw [ActsOn, internalSerialize_of_granted hgranted]
  constructor
  · rintro ⟨k, hk, hshares⟩
    obtain rfl := Except.ok.inj hk
    exact (sharesEntry_insert_iff h _).mp hshares
  · intro hbytes
    exact ⟨_, rfl, (sharesEntry_insert_iff h _).mpr hbytes⟩

/-- `Find<V>` throws a `domain_error` when the decoding does. -/
lemma findAs_domainError_iff {V : Readable} {res : SharedString}
    (h : m.findRaw key s = .ok (some res)) :
    (∃ what, m.findAs V key s = .error (.decode (.domainError what))) ↔ ¬ Tagged V res := by
  rw [← isDomainError_deserialize_iff, IsDomainError, findAs_of_findRaw h]
  cases deserialize V res with
  | error e => simp
  | ok v => simp

end HashMap

/-! ## The built-in types -/

/-- **Decode and encode.** Decoding a stored value throws `domain_error` exactly when the tags
differ. When they agree it yields the value that `Decodes` describes, for all but the first
character of an empty wide string. The same holds of a `Find<V>` after an `Insert`. -/
theorem decode_law (U : Storable) (u : U.Val) (V : Readable) :
    (∀ padding, IsDomainError (deserialize V (serialize U u padding)) ↔
      typeChar U ≠ typeChar V) ∧
    (∀ padding, typeChar U = typeChar V → ¬ (V = .wchar ∧ EmptyWide U u) →
      ∃ v, Decodes U u V v ∧ deserialize V (serialize U u padding) = .ok v) ∧
    ∀ (hash : SharedString → UInt64) (m : HashMap hash) (key : Arg) (s s' : Supply) (b : Bool),
      (m.insert key (.builtin U u) s).2 = .ok b →
      (key.Padded → s'.key.padding = s.key.padding) → s'.key.granted = true →
      s'.copyGranted = true →
      ((∃ what, (m.insert key (.builtin U u) s).1.findAs V key s'
          = .error (.decode (.domainError what))) ↔ typeChar U ≠ typeChar V) ∧
      (typeChar U = typeChar V → ¬ (V = .wchar ∧ EmptyWide U u) →
        ∃ v, Decodes U u V v ∧
          (m.insert key (.builtin U u) s).1.findAs V key s' = .ok (some v)) := by
  refine ⟨fun padding => isDomainError_deserialize_serialize_iff U u padding V,
    fun padding htag hwide => ?_, fun hash m key s s' b h hkey hgranted hcopy => ?_⟩
  · obtain ⟨v, hv⟩ := exists_decodes htag u hwide
    exact ⟨v, hv, deserialize_serialize hv padding⟩
  · obtain ⟨d, -, hraw⟩ := HashMap.findRaw_insert h hkey hgranted hcopy
    have hres : Arg.bytes (.builtin U u) d.padding = serialize U u d.padding := rfl
    rw [hres] at hraw
    refine ⟨?_, fun htag hwide => ?_⟩
    · rw [HashMap.findAs_domainError_iff hraw, tagged_serialize_iff]
    · obtain ⟨v, hv⟩ := exists_decodes htag u hwide
      refine ⟨v, hv, ?_⟩
      rw [HashMap.findAs_of_findRaw hraw, deserialize_serialize hv]

/-! ## User types -/

section UserTypes

variable {W : Type} {hash : SharedString → UInt64}

/-- What a type check of user types would guarantee, for one value `w` of a user type and one
value `u` of a built-in type, both as values under a key and as keys: each is read back as what
it was stored as, reading it as the other type throws `domain_error`, and neither addresses the
entry of the other. -/
structure UserTypeSafe (codec : UserCodec W) (w : W) (U : Storable) (u : U.Val)
    (m : HashMap hash) (key : Arg) (s s' : Supply) : Prop where
  readsBack : (m.insert key (.user (codec.toByteArray w)) s).1.findUser codec key s'
    = .ok (some w)
  builtinReader : ∀ V : Readable, ∃ what,
    (m.insert key (.user (codec.toByteArray w)) s).1.findAs V key s'
      = .error (.decode (.domainError what))
  userReader : ∃ what, (m.insert key (.builtin U u) s).1.findByteArray key s'
    = .error (.decode (.domainError what))
  keys : ∀ (value : Arg) (s : Supply) (b : Bool), (m.insert (.builtin U u) value s).2 = .ok b →
    ¬ (m.insert (.builtin U u) value s).1.SharesEntry (serialize U u s.key.padding)
      (codec.toByteArray w)

/-- **User types are not checked.** A user value is read back as itself, but as a `V` it is
refused only if its bytes do not start with the tag of `V`; a built-in value is handed to
`FromByteArray`, tag and all; and a user key is the key of every built-in value with the same
bytes. So what a type check would guarantee holds of no value. -/
theorem userCodec_law (codec : UserCodec W) (w : W) (U : Storable) (u : U.Val)
    (m : HashMap hash) (key : Arg) (s s' : Supply) {b b' : Bool}
    (hw : (m.insert key (.user (codec.toByteArray w)) s).2 = .ok b)
    (hu : (m.insert key (.builtin U u) s).2 = .ok b')
    (hkey : key.Padded → s'.key.padding = s.key.padding) (hgranted : s'.key.granted = true)
    (hcopy : s'.copyGranted = true) :
    ¬ UserTypeSafe codec w U u m key s s' ∧
    (m.insert key (.user (codec.toByteArray w)) s).1.findUser codec key s' = .ok (some w) ∧
    (∀ V : Readable, (∃ what, (m.insert key (.user (codec.toByteArray w)) s).1.findAs V key s'
        = .error (.decode (.domainError what))) ↔ ¬ Tagged V (codec.toByteArray w)) ∧
    (∃ padding, (m.insert key (.builtin U u) s).1.findByteArray key s'
      = .ok (some (serialize U u padding))) ∧
    ∀ (value : Arg) (s : Supply) (b : Bool), (m.insert (.builtin U u) value s).2 = .ok b →
      ((m.insert (.builtin U u) value s).1.SharesEntry (serialize U u s.key.padding)
        (codec.toByteArray w) ↔ codec.toByteArray w = serialize U u s.key.padding) := by
  obtain ⟨d, -, hraw⟩ := HashMap.findRaw_insert hw hkey hgranted hcopy
  obtain ⟨d', -, hraw'⟩ := HashMap.findRaw_insert hu hkey hgranted hcopy
  have hbytes : Arg.bytes (.user (codec.toByteArray w)) d.padding = codec.toByteArray w := rfl
  have hhanded : (m.insert key (.builtin U u) s).1.findByteArray key s'
      = .ok (some (serialize U u d'.padding)) := by
    rw [HashMap.findByteArray, hraw']
    rfl
  rw [hbytes] at hraw
  refine ⟨fun hsafe => ?_, ?_, fun V => HashMap.findAs_domainError_iff hraw,
    ⟨d'.padding, hhanded⟩, fun value s b h => HashMap.sharesEntry_insert_iff h _⟩
  · obtain ⟨what, hthrown⟩ := hsafe.userReader
    rw [hhanded] at hthrown
    cases hthrown
  · rw [HashMap.findUser, HashMap.findByteArray, hraw]
    exact congrArg (fun x => Except.ok (some x)) (codec.fromByteArray_toByteArray w)

/-- The byte arrays themselves as a user type. -/
def byteArrayCodec : UserCodec (List UInt8) := ⟨id, id, fun _ => rfl⟩

/-- The map in which the entries of the examples are made. -/
def emptyMap : HashMap (fun _ => 0) := HashMap.create

theorem userCodec_law_byteArray :
    ¬ UserTypeSafe byteArrayCodec [1, 2, 3] (.value .bool) true emptyMap (.user [7])
      .granting .granting := by
  have hw : (emptyMap.insert (.user [7]) (.user [1, 2, 3]) .granting).2 = .ok true := rfl
  have hu : (emptyMap.insert (.user [7]) (.builtin (.value .bool) true) .granting).2
      = .ok true := rfl
  exact (userCodec_law byteArrayCodec [1, 2, 3] (.value .bool) true emptyMap (.user [7]) .granting
    .granting hw hu nofun rfl rfl).1

/-- An `int` stored under a key is handed to `FromByteArray` with its tag. -/
theorem not_userTypeSafe_int :
    ¬ UserTypeSafe byteArrayCodec [105, 50, 5, 0, 0, 0] (.value (.signedInteger .int)) 5 emptyMap
      (.user [7]) .granting .granting := by
  intro h
  obtain ⟨what, hthrown⟩ := h.userReader
  cases hthrown

end UserTypes

end Jakilid
