import Jakilid.World

/-!
# The reference dictionaries

What a dictionary is for: a finite map from keys to values, one for each name, without strings,
hashing, handles or threads. A key is its tag and its content (`DictKey.ext_iff`); a character is
the string of its family with that one character, and a C string ends in front of its first NUL.
Keys of real types have no place here: they are compared by their bytes (`Jakilid.RealKeys`).

`Represents` relates the contents of a map of strings to a reference map, and each operation on
the one is matched by the operation on the other (`Represents.operation`).
-/

namespace Jakilid

open Cuckoo

/-! ## Keys -/

inductive DictKey
  | bool (b : Bool)
  | signedInteger (r : IntRank) (x : BitVec (8 * r.sizeof))
  | unsignedInteger (r : IntRank) (x : BitVec (8 * r.sizeof))
  | narrow (s : List UInt8)
  | wide (s : List (BitVec (8 * wcharSize)))
deriving DecidableEq

/-- The key a value is, unless it is a real. -/
def dictKey : (U : Storable) → U.Val → Option DictKey
  | .value .bool, t => some (.bool t)
  | .value .char, t => some (.narrow [t])
  | .value .wchar, t => some (.wide [t])
  | .value (.signedInteger r), t => some (.signedInteger r t)
  | .value (.unsignedInteger r), t => some (.unsignedInteger r t)
  | .value (.real _), _ => none
  | .value .stdString, t => some (.narrow t)
  | .value .stdWstring, t => some (.wide t)
  | .cString, t => some (.narrow t.chars)
  | .cWstring, t => some (.wide t.chars)

/-- The key an argument is. -/
def Arg.dictKey : Arg → Option DictKey
  | .builtin U u => Jakilid.dictKey U u
  | .user _ => none

/-- The characters of a string, or the one number a value is. -/
def content : (U : Storable) → U.Val → List ℕ
  | .value .bool, t => [t.toNat]
  | .value .char, t => [t.toNat]
  | .value .wchar, t => [t.toNat]
  | .value (.signedInteger _), t => [t.toNat]
  | .value (.unsignedInteger _), t => [t.toNat]
  | .value (.real _), t => [t.toNat]
  | .value .stdString, t => t.map UInt8.toNat
  | .value .stdWstring, t => t.map BitVec.toNat
  | .cString, t => t.chars.map UInt8.toNat
  | .cWstring, t => t.chars.map BitVec.toNat

namespace DictKey

/-- The type a key is written as. -/
def type : DictKey → Readable
  | .bool _ => .bool
  | .signedInteger r _ => .signedInteger r
  | .unsignedInteger r _ => .unsignedInteger r
  | .narrow _ => .stdString
  | .wide _ => .stdWstring

def val : (k : DictKey) → k.type.Val
  | .bool b => b
  | .signedInteger _ x => x
  | .unsignedInteger _ x => x
  | .narrow s => s
  | .wide s => s

/-- The string a key is stored as. -/
def encode (k : DictKey) : SharedString := serialize (.value k.type) k.val 0

lemma dictKey_val (k : DictKey) : dictKey (.value k.type) k.val = some k := by
  cases k <;> rfl

lemma typeChar_type {U : Storable} {u : U.Val} {k : DictKey} (h : dictKey U u = some k) :
    typeChar k.type = typeChar U := by
  rcases U with V | _ | _
  · cases V <;> cases h <;> rfl
  · cases h; rfl
  · cases h; rfl

/-- Keys of one tag are written as one type. -/
lemma type_eq_of_typeChar {k k' : DictKey} (h : typeChar k.type = typeChar k'.type) :
    k.type = k'.type := by
  have hcases := typeChar_eq_cases _ _ h
  cases k <;> cases k' <;> simp [type] at hcases ⊢ <;> exact hcases

/-- The key read back from a string as a given type. -/
def readAs (V : Readable) (str : SharedString) : Option DictKey :=
  match deserialize V str with
  | .ok v => dictKey (.value V) v
  | .error _ => none

lemma readAs_encode (k : DictKey) : readAs k.type k.encode = some k := by
  rw [readAs, encode, deserialize_serialize (.same k.type k.val)]
  exact k.dictKey_val

/-- Different keys are stored as different strings. -/
theorem encode_injective : Function.Injective encode := by
  intro k k' h
  have htag : Tagged k'.type k.encode := by
    rw [h]
    exact (tagged_serialize_iff _ _ _ _).mpr rfl
  have htype := type_eq_of_typeChar ((tagged_serialize_iff _ _ _ _).mp htag)
  have hread := k.readAs_encode
  rw [h, htype, k'.readAs_encode] at hread
  exact (Option.some.inj hread).symm

/-- Whatever type it has, a key is stored as this string. -/
lemma serialize_eq_encode {U : Storable} {u : U.Val} {k : DictKey} (h : dictKey U u = some k)
    (padding : Padding) : serialize U u padding = k.encode := by
  rw [encode, serialize_eq, serialize_eq, typeChar_type h]
  refine congrArg _ (congrArg _ ?_)
  rcases U with V | _ | _
  · cases V with
    | real r => cases h
    | wchar => cases h; simp [payload, type, val]
    | _ => cases h; rfl
  · cases h; rfl
  · cases h; rfl

/-- **Identity of keys.** -/
theorem ext_iff {k k' : DictKey} :
    k = k' ↔ typeChar k.type = typeChar k'.type ∧
      content (.value k.type) k.val = content (.value k'.type) k'.val := by
  constructor
  · rintro rfl
    exact ⟨rfl, rfl⟩
  · rintro ⟨htag, hcontent⟩
    have htype := type_eq_of_typeChar htag
    have hnarrow : Function.Injective (List.map UInt8.toNat) :=
      List.map_injective_iff.mpr fun _ _ => UInt8.toNat_inj.mp
    have hwide : Function.Injective (List.map (BitVec.toNat : BitVec (8 * wcharSize) → ℕ)) :=
      List.map_injective_iff.mpr fun _ _ => BitVec.eq_of_toNat_eq
    cases k <;> cases k' <;> cases htype
    case bool.bool.refl =>
      exact congrArg _ (Function.LeftInverse.injective Bool.ofNat_toNat (List.cons.inj hcontent).1)
    case signedInteger.signedInteger.refl =>
      exact congrArg _ (BitVec.eq_of_toNat_eq (List.cons.inj hcontent).1)
    case unsignedInteger.unsignedInteger.refl =>
      exact congrArg _ (BitVec.eq_of_toNat_eq (List.cons.inj hcontent).1)
    case narrow.narrow.refl => exact congrArg _ (hnarrow hcontent)
    case wide.wide.refl => exact congrArg _ (hwide hcontent)

end DictKey

/-! ## Maps -/

/-- A value in a dictionary, with the type it was inserted as. -/
structure StoredValue where
  type : Storable
  val : type.Val

/-- The string holds the value. Which one of the strings that do is up to the padding. -/
def IsStored (v : StoredValue) (raw : SharedString) : Prop :=
  ∃ padding, raw = serialize v.type v.val padding

/-- A reference dictionary. -/
abbrev RefMap := Finmap fun _ : DictKey => StoredValue

/-- The contents of a map of strings are those of the reference map. -/
structure Represents (f : SharedString → Option SharedString) (r : RefMap) : Prop where
  lookup : ∀ k, Option.Rel IsStored (r.lookup k) (f (DictKey.encode k))
  keys : ∀ key, f key ≠ none → ∃ k, DictKey.encode k = key

namespace Represents

variable {f : SharedString → Option SharedString} {r : RefMap}

lemma empty : Represents (fun _ => none) ∅ where
  lookup k := by
    rw [Finmap.lookup_empty]
    exact .none
  keys key h := absurd rfl h

/-- What `f` knows of one key. -/
lemma isSome_eq (h : Represents f r) (k : DictKey) :
    (f k.encode).isSome = (r.lookup k).isSome := by
  have hk := h.lookup k
  generalize r.lookup k = a, f k.encode = b at hk
  cases hk <;> rfl

lemma insert (h : Represents f r) (k : DictKey) {v : StoredValue} {raw : SharedString}
    (hv : IsStored v raw) :
    Represents (Function.update f k.encode (some raw)) (r.insert k v) where
  lookup k' := by
    by_cases hk : k' = k
    · subst hk
      rw [Finmap.lookup_insert, Function.update_self]
      exact .some hv
    · rw [Finmap.lookup_insert_of_ne _ hk,
        Function.update_of_ne (DictKey.encode_injective.ne hk)]
      exact h.lookup k'
  keys key hkey := by
    by_cases hk : key = k.encode
    · exact ⟨k, hk.symm⟩
    · rw [Function.update_of_ne hk] at hkey
      exact h.keys key hkey

lemma erase (h : Represents f r) (k : DictKey) :
    Represents (Function.update f k.encode none) (r.erase k) where
  lookup k' := by
    by_cases hk : k' = k
    · subst hk
      rw [Finmap.lookup_erase, Function.update_self]
      exact .none
    · rw [Finmap.lookup_erase_ne hk, Function.update_of_ne (DictKey.encode_injective.ne hk)]
      exact h.lookup k'
  keys key hkey := by
    by_cases hk : key = k.encode
    · rw [hk, Function.update_self] at hkey
      exact absurd rfl hkey
    · rw [Function.update_of_ne hk] at hkey
      exact h.keys key hkey

/-- `size()` counts the keys. -/
lemma size {hash : SharedString → UInt64} {m : HashMap hash} (h : Represents m.find r) :
    m.size.toNat = r.keys.card := by
  have hkeys : m.keys = DictKey.encode '' (r.keys : Set DictKey) := by
    ext key
    constructor
    · intro hkey
      obtain ⟨k, rfl⟩ := h.keys key hkey
      refine ⟨k, ?_, rfl⟩
      rw [Finset.mem_coe, Finmap.mem_keys, ← Finmap.lookup_isSome, ← h.isSome_eq k]
      exact Option.isSome_iff_ne_none.mpr hkey
    · rintro ⟨k, hk, rfl⟩
      rw [Finset.mem_coe, Finmap.mem_keys, ← Finmap.lookup_isSome, ← h.isSome_eq k] at hk
      exact Option.isSome_iff_ne_none.mp hk
  rw [m.size_toNat, hkeys, Set.ncard_image_of_injective _ DictKey.encode_injective,
    Set.ncard_coe_finset]

end Represents

/-! ## Operations -/

/-- An operation on keys of the types that are compared by value, and on values of any type that
has a `Serialize` overload. -/
inductive Typed : Op → Prop
  | insert {key : Arg} {k : DictKey} (hk : key.dictKey = some k) (U : Storable) (u : U.Val) :
      Typed (.insert key (.builtin U u))
  | find {key : Arg} {k : DictKey} (hk : key.dictKey = some k) : Typed (.find key)
  | contains {key : Arg} {k : DictKey} (hk : key.dictKey = some k) : Typed (.contains key)
  | erase {key : Arg} {k : DictKey} (hk : key.dictKey = some k) : Typed (.erase key)
  | size : Typed .size

lemma Typed.dictKey {op : Op} (h : Typed op) {key : Arg} (hkey : op.key? = some key) :
    ∃ k, key.dictKey = some k := by
  cases h with
  | size => cases hkey
  | insert hk | find hk | contains hk | erase hk =>
    obtain rfl := Option.some.inj hkey
    exact ⟨_, hk⟩

/-- The operation on a reference map: what it returns and what it leaves. -/
inductive Answers (r : RefMap) : Op → Result → RefMap → Prop
  | insert {key : Arg} {k : DictKey} (hk : key.dictKey = some k) (U : Storable) (u : U.Val) :
      Answers r (.insert key (.builtin U u)) (.bool (r.lookup k).isNone) (r.insert k ⟨U, u⟩)
  | find {key : Arg} {k : DictKey} (hk : key.dictKey = some k) {raw : Option SharedString}
      (hraw : Option.Rel IsStored (r.lookup k) raw) : Answers r (.find key) (.raw raw) r
  | contains {key : Arg} {k : DictKey} (hk : key.dictKey = some k) :
      Answers r (.contains key) (.bool (r.lookup k).isSome) r
  | erase {key : Arg} {k : DictKey} (hk : key.dictKey = some k) :
      Answers r (.erase key) (.bool (r.lookup k).isSome) (r.erase k)
  | size {n : BitVec 64} (hn : n.toNat = r.keys.card) : Answers r .size (.size n) r

/-- What a call has serialised so far belongs to its arguments. -/
inductive Prepared : Op → Progress → Prop
  | opened (op : Op) : Prepared op .opened
  | keyed {op : Op} {key : Arg} {k : DictKey} (hkey : op.key? = some key)
      (hk : key.dictKey = some k) : Prepared op (.keyed k.encode)
  | valued {key : Arg} {k : DictKey} {U : Storable} {u : U.Val} {raw : SharedString}
      (hk : key.dictKey = some k) (hv : IsStored ⟨U, u⟩ raw) :
      Prepared (.insert key (.builtin U u)) (.valued k.encode raw)

/-- The string an argument is serialised to. -/
lemma eq_encode_of_internalSerialize {key : Arg} {k : DictKey} {d : Draw} {str : SharedString}
    (hk : key.dictKey = some k) (h : internalSerialize key d = .ok str) : str = k.encode := by
  obtain ⟨-, rfl⟩ := internalSerialize_eq_ok h
  cases key with
  | builtin U u => exact DictKey.serialize_eq_encode hk _
  | user byteArray => cases hk

lemma isStored_of_internalSerialize {U : Storable} {u : U.Val} {d : Draw} {str : SharedString}
    (h : internalSerialize (.builtin U u) d = .ok str) : IsStored ⟨U, u⟩ str :=
  ⟨d.padding, (internalSerialize_eq_ok h).2⟩

/-- What an operation on a map of strings comes to: it does what the operation on the reference
map does, or it throws and has changed nothing. -/
inductive Matched (r : RefMap) (op : Op) (f : SharedString → Option SharedString) :
    Except Exn Result → Prop
  | answered {res : Result} {r' : RefMap} (h : Answers r op res r') (hf : Represents f r') :
      Matched r op f (.ok res)
  | thrown {e : Exn} (he : e ≠ .diverges) (hf : Represents f r) : Matched r op f (.error e)

section Operations

variable {hash : SharedString → UInt64} {m : HashMap hash} {r : RefMap}

lemma Represents.upsert (h : Represents m.find r) {key : Arg} {k : DictKey}
    (hk : key.dictKey = some k) {U : Storable} {u : U.Val} {raw : SharedString}
    (hv : IsStored ⟨U, u⟩ raw) (alloc : Allocator) (callback : Draw) :
    let s := m.upsert alloc k.encode (fun _ => internalSerialize (.builtin U u) callback) raw
    Matched r (.insert key (.builtin U u)) s.1.find (s.2.map .bool) := by
  have hspec := m.upsert_spec alloc k.encode
    (fun _ => internalSerialize (.builtin U u) callback) raw
  have hsome := h.isSome_eq k
  generalize m.upsert alloc k.encode (fun _ => internalSerialize (.builtin U u) callback) raw = s
    at hspec ⊢
  obtain ⟨m', res⟩ := s
  simp only at hspec ⊢
  generalize m'.find = f at hspec ⊢
  have hanswer := Answers.insert (r := r) hk U u
  rw [← Option.not_isSome, ← hsome] at hanswer
  cases hspec with
  | inserted hnone =>
    rw [hnone] at hanswer
    exact .answered hanswer (h.insert k hv)
  | updated hold hfn =>
    rw [hold] at hanswer
    exact .answered hanswer (h.insert k (isStored_of_internalSerialize hfn))
  | thrown hold hfn =>
    rw [internalSerialize_eq_error hfn]
    exact .thrown (by decide) h
  | failed hnone hx => exact .thrown hx h

lemma Represents.copyOut (h : Represents m.find r) {key : Arg} {k : DictKey}
    (hk : key.dictKey = some k) (copyGranted : Bool) :
    Matched r (.find key) m.find ((m.copyOut k.encode copyGranted).map .raw) := by
  have hanswer := Answers.find (r := r) hk (h.lookup k)
  rw [HashMap.copyOut]
  cases hfind : m.find k.encode with
  | none =>
    rw [hfind] at hanswer
    exact .answered hanswer h
  | some raw =>
    rw [hfind] at hanswer
    cases copyGranted with
    | false => exact .thrown (by decide) h
    | true => exact .answered hanswer h

/-- **Operations.** An operation of the map does what it does on the reference map. -/
theorem Represents.operation (h : Represents m.find r) {c : Call} (htyped : Typed c.op)
    (hprepared : Prepared c.op c.progress) {callback : Draw} {copyGranted : Bool}
    {alloc : Allocator} {f : HashMap hash → HashMap hash × Except Exn Result}
    (hop : c.operation callback copyGranted alloc = some f) :
    Matched r c.op (f m).1.find (f m).2 := by
  obtain ⟨handle, name, op, map, progress⟩ := c
  simp only at htyped hprepared
  cases hprepared with
  | opened =>
    cases htyped with
    | size =>
      obtain rfl := Option.some.inj hop
      exact .answered (.size h.size) h
    | _ => cases hop
  | @keyed _ key k hkey hk =>
    cases htyped with
    | insert _ U u => cases hop
    | find _ =>
      obtain rfl := Option.some.inj hop
      obtain rfl := Option.some.inj hkey
      exact h.copyOut hk copyGranted
    | contains _ =>
      obtain rfl := Option.some.inj hop
      obtain rfl := Option.some.inj hkey
      have hanswer := Answers.contains (r := r) hk
      rw [← h.isSome_eq k, ← m.contains_eq] at hanswer
      exact .answered hanswer h
    | erase _ =>
      obtain rfl := Option.some.inj hop
      obtain rfl := Option.some.inj hkey
      have hanswer := Answers.erase (r := r) hk
      rw [← h.isSome_eq k, ← m.erase_snd] at hanswer
      refine .answered hanswer ?_
      rw [m.find_erase]
      exact h.erase k
    | size => cases hop
  | valued hk hv =>
    obtain rfl := Option.some.inj hop
    exact h.upsert hk hv alloc callback

end Operations

end Jakilid
