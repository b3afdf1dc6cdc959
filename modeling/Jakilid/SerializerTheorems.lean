import Jakilid.Serializer

/-!
# The storage format

What a stored string looks like (`serialize_eq`), which bytes of it a decoding reads, and
what the decoding yields:

* `isDomainError_deserialize_iff`: a type mismatch is reported exactly when the string does not
  start with the tag of the type;
* `Decodes` and `deserialize_serialize`: the value read back, for every pair of types that
  share a tag;
* `inBounds_deserialize_iff`: the one pair of types whose decoding may leave the string.
-/

namespace Jakilid

open LittleEndian

/-! ## Reading bytes -/

namespace SharedString

lemma byteAt_of_le {str : SharedString} {i : ℕ} (h : i ≤ str.length) :
    byteAt str i = .ok ((str ++ [0]).get ⟨i, by simpa using Nat.lt_succ_of_le h⟩) := by
  have hlt : i < (str ++ [0]).length := by simpa using Nat.lt_succ_of_le h
  rw [byteAt, List.getElem?_eq_getElem hlt]
  rfl

lemma byteAt_of_lt {str : SharedString} {i : ℕ} (h : str.length < i) :
    byteAt str i = .error (.outOfBounds i) := by
  have hle : (str ++ [0]).length ≤ i := by simpa using h
  rw [byteAt, List.getElem?_eq_none hle]

/-- Bytes up to the terminating NUL are there to be read. -/
lemma read_of_le {str : SharedString} {offset n : ℕ} (h : offset + n ≤ str.length + 1) :
    read str offset n = .ok (((str ++ [0]).drop offset).take n) := by
  induction n generalizing offset with
  | zero => simp [read]
  | succ n ih =>
    have hlt : offset < (str ++ [0]).length := by simp; omega
    rw [read, byteAt_of_le (by omega), ih (by omega), List.drop_eq_getElem_cons hlt,
      List.take_succ_cons]
    rfl

/-- A read that goes beyond the terminating NUL fails at the first byte behind it. -/
lemma read_of_lt {str : SharedString} {offset n : ℕ} (ho : offset ≤ str.length + 1)
    (h : str.length + 1 < offset + n) :
    read str offset n = .error (.outOfBounds (str.length + 1)) := by
  induction n generalizing offset with
  | zero => omega
  | succ n ih =>
    rcases Nat.lt_or_ge str.length offset with hgt | hle
    · have heq : offset = str.length + 1 := by omega
      rw [read, byteAt_of_lt hgt, heq]
      rfl
    · rw [read, byteAt_of_le hle, ih (by omega) (by omega)]
      rfl

/-- The only error of a read is a byte out of bounds. -/
lemma not_isDomainError_read (str : SharedString) (offset n : ℕ) :
    ¬ IsDomainError (read str offset n) := by
  induction n generalizing offset with
  | zero => simp [read, IsDomainError]
  | succ n ih =>
    rintro ⟨what, h⟩
    rw [read] at h
    rcases Nat.lt_or_ge str.length offset with hgt | hle
    · rw [byteAt_of_lt hgt] at h
      exact absurd h (by simp [bind, Except.bind])
    · rw [byteAt_of_le hle] at h
      cases hrec : read str (offset + 1) n with
      | error e =>
        rw [hrec] at h
        exact ih _ ⟨what, hrec.trans h⟩
      | ok bs =>
        rw [hrec] at h
        exact absurd h (by simp [bind, Except.bind, pure, Except.pure])

/-- Reading the bytes behind a header. -/
lemma read_payload {a b : UInt8} {payload : List UInt8} {n : ℕ} (h : n ≤ payload.length) :
    read (a :: b :: payload) headerSize n = .ok (payload.take n) := by
  rw [read_of_le (by simp [headerSize]; omega)]
  simp [headerSize, List.take_append_of_le_length h]

lemma payloadSize_cons (a b : UInt8) (payload : List UInt8) :
    payloadSize (a :: b :: payload) = .ok payload.length := by
  simp [payloadSize, headerSize]

end SharedString

/-! ## The shape of a stored string -/

/-- The bytes `emplace` writes behind the tag. -/
def payload : (U : Storable) → U.Val → Padding → List UInt8
  | .value .bool, t, _ => [if t then 1 else 0]
  | .value .char, t, _ => [t]
  | .value .wchar, t, _ => wordBytes t
  | .value (.signedInteger _), t, _ => wordBytes t
  | .value (.unsignedInteger _), t, _ => wordBytes t
  | .value (.real k), t, padding => realObject k t padding
  | .value .stdString, t, _ => t
  | .value .stdWstring, t, _ => wordsBytes t
  | .cString, t, _ => t.chars
  | .cWstring, t, _ => wordsBytes t.chars

lemma length_realObject (k : RealKind) (t : BitVec (8 * k.valueBytes)) (padding : Padding) :
    (realObject k t padding).length = k.sizeof := by
  rw [realObject, List.length_append, length_wordBytes, List.length_take, length_wordBytes]
  cases k <;> rfl

/-- A stored string is the tag of the type followed by the payload. -/
theorem serialize_eq (U : Storable) (u : U.Val) (padding : Padding) :
    serialize U u padding = (typeChar U).1 :: (typeChar U).2 :: payload U u padding := by
  rcases U with V | _ | _
  · cases V with
    | bool => rfl
    | char => rfl
    | wchar => rw [serialize, emplace, payload, List.take_of_length_le (by simp)]
    | signedInteger r => rw [serialize, emplace, payload, List.take_of_length_le (by simp)]
    | unsignedInteger r => rw [serialize, emplace, payload, List.take_of_length_le (by simp)]
    | real k =>
      rw [serialize, emplace, payload, List.take_of_length_le (length_realObject ..).le]
    | stdString => rw [serialize, emplace, payload, List.take_left]
    | stdWstring => rw [serialize, emplace, payload, take_wordsBytes, List.take_left]
  · rw [serialize, emplace, payload, CString.take_strlen]
  · rw [serialize, emplace, payload, take_wordsBytes, CString.take_strlen]

/-- Every stored string holds its header. -/
lemma headerSize_le_length_serialize (U : Storable) (u : U.Val) (padding : Padding) :
    headerSize ≤ (serialize U u padding).length := by
  rw [serialize_eq]
  simp [headerSize]

/-! ## The type check -/

lemma raiseForType_cons (T : Storable) (a b : UInt8) (bytes : List UInt8) :
    raiseForType T (a :: b :: bytes)
      = if typeChar T = (a, b) then .ok () else .error typeMismatch := by
  have h0 : SharedString.byteAt (a :: b :: bytes) 0 = .ok a := rfl
  have h1 : SharedString.byteAt (a :: b :: bytes) 1 = .ok b := rfl
  rw [raiseForType, h0, h1]
  by_cases ha : (typeChar T).1 = a <;> by_cases hb : (typeChar T).2 = b <;>
    simp [ha, hb, Prod.ext_iff, bind, Except.bind, pure, Except.pure, throw, throwThe,
      MonadExceptOf.throw]

/-- The type check accepts a stored string exactly when the tags agree. -/
lemma raiseForType_serialize (T U : Storable) (u : U.Val) (padding : Padding) :
    raiseForType T (serialize U u padding)
      = if typeChar T = typeChar U then .ok () else .error typeMismatch := by
  rw [serialize_eq, raiseForType_cons]

/-- The string starts with the tag of the type. -/
def Tagged (T : Storable) (str : SharedString) : Prop :=
  ∃ bytes, str = (typeChar T).1 :: (typeChar T).2 :: bytes

lemma tagged_serialize_iff (T U : Storable) (u : U.Val) (padding : Padding) :
    Tagged T (serialize U u padding) ↔ typeChar U = typeChar T := by
  rw [Tagged, serialize_eq]
  constructor
  · rintro ⟨bytes, h⟩
    exact Prod.ext (List.cons.inj h).1 (List.cons.inj (List.cons.inj h).2).1
  · intro h
    exact ⟨payload U u padding, by rw [h]⟩

lemma typeChar_ne_zero (T : Storable) : (typeChar T).1 ≠ 0 ∧ (typeChar T).2 ≠ 0 := by
  rcases T with (_ | _ | _ | r | r | k | _ | _) | _ | _ <;>
    first
    | decide
    | (cases r <;> decide)
    | (cases k <;> decide)

/-- The type check fails on every other string; what is missing of a short one is a NUL, which
is in no tag. -/
lemma raiseForType_of_not_tagged {T : Storable} {str : SharedString} (h : ¬ Tagged T str) :
    raiseForType T str = .error typeMismatch := by
  match str with
  | [] =>
    have h0 : SharedString.byteAt [] 0 = .ok 0 := rfl
    rw [raiseForType, h0]
    simp only [bind, Except.bind, if_neg (typeChar_ne_zero T).1]
    rfl
  | [a] =>
    have h0 : SharedString.byteAt [a] 0 = .ok a := rfl
    have h1 : SharedString.byteAt [a] 1 = .ok 0 := rfl
    rw [raiseForType, h0]
    simp only [bind, Except.bind, h1, if_neg (typeChar_ne_zero T).2]
    split <;> rfl
  | a :: b :: bytes =>
    rw [raiseForType_cons, if_neg]
    rintro hab
    exact h ⟨bytes, by rw [hab]⟩

/-- Decoding a string that does not start with the type's own tag. -/
lemma deserialize_of_not_tagged {V : Readable} {str : SharedString} (h : ¬ Tagged V str) :
    deserialize V str = .error typeMismatch := by
  have hcheck := raiseForType_of_not_tagged h
  cases V <;> (simp only [deserialize, deserializeScalar, hcheck]; rfl)

/-- What a scalar overload does once the type check has passed. -/
lemma deserializeScalar_of_eq {V : Readable} {a b : UInt8} (bytes : List UInt8)
    (h : typeChar V = (a, b)) (size : ℕ) (object : List UInt8 → V.Val) :
    deserializeScalar V size object (a :: b :: bytes)
      = (SharedString.read (a :: b :: bytes) headerSize size).map object := by
  rw [deserializeScalar, raiseForType_cons, if_pos h]
  cases SharedString.read (a :: b :: bytes) headerSize size <;> rfl

lemma deserialize_stdString_of_eq {a b : UInt8} (bytes : List UInt8)
    (h : typeChar Readable.stdString = (a, b)) :
    deserialize .stdString (a :: b :: bytes) = .ok bytes := by
  rw [deserialize, raiseForType_cons, if_pos h]
  simp only [bind, Except.bind, SharedString.payloadSize_cons,
    SharedString.read_payload le_rfl, List.take_length]

lemma deserialize_stdWstring_of_eq {a b : UInt8} (bytes : List UInt8)
    (h : typeChar Readable.stdWstring = (a, b)) :
    deserialize .stdWstring (a :: b :: bytes)
      = .ok (bytesWords wcharSize (bytes.length / wcharSize)
          (bytes.take (bytes.length / wcharSize * wcharSize))) := by
  rw [deserialize, raiseForType_cons, if_pos h]
  simp only [bind, Except.bind, pure, Except.pure, SharedString.payloadSize_cons,
    SharedString.read_payload (Nat.div_mul_le_self _ _)]

/-- Behind its own tag no decoding reports a type mismatch. -/
lemma not_isDomainError_deserialize {V : Readable} {a b : UInt8} (bytes : List UInt8)
    (h : typeChar V = (a, b)) : ¬ IsDomainError (deserialize V (a :: b :: bytes)) := by
  have hscalar : ∀ (size : ℕ) (object : List UInt8 → V.Val),
      ¬ IsDomainError (deserializeScalar V size object (a :: b :: bytes)) := by
    rintro size object ⟨what, he⟩
    rw [deserializeScalar_of_eq bytes h] at he
    have hread := SharedString.not_isDomainError_read (a :: b :: bytes) headerSize size
    cases hr : SharedString.read (a :: b :: bytes) headerSize size with
    | error e =>
      rw [hr] at he
      exact hread ⟨what, hr.trans (congrArg _ (Except.error.inj he))⟩
    | ok bs =>
      rw [hr] at he
      cases he
  cases V with
  | stdString => simp [deserialize_stdString_of_eq bytes h, IsDomainError]
  | stdWstring => simp [deserialize_stdWstring_of_eq bytes h, IsDomainError]
  | _ => exact hscalar _ _

/-- A decoding throws `domain_error` exactly on the strings without the tag of the type. -/
theorem isDomainError_deserialize_iff (V : Readable) (str : SharedString) :
    IsDomainError (deserialize V str) ↔ ¬ Tagged V str := by
  constructor
  · rintro h ⟨bytes, rfl⟩
    exact not_isDomainError_deserialize bytes Prod.mk.eta.symm h
  · intro h
    exact ⟨_, deserialize_of_not_tagged h⟩

/-- On a stored string that is exactly when the two tags differ. -/
lemma isDomainError_deserialize_serialize_iff (U : Storable) (u : U.Val) (padding : Padding)
    (V : Readable) :
    IsDomainError (deserialize V (serialize U u padding)) ↔ typeChar U ≠ typeChar V := by
  rw [isDomainError_deserialize_iff, tagged_serialize_iff]

lemma deserialize_serialize_of_ne {U : Storable} {V : Readable}
    (h : typeChar U ≠ typeChar V) (u : U.Val) (padding : Padding) :
    deserialize V (serialize U u padding) = .error typeMismatch :=
  deserialize_of_not_tagged fun htag => h ((tagged_serialize_iff _ _ u padding).mp htag)

/-! ## The value read back -/

/-- `Decodes U u V v`: a stored `u` read as a `V` is `v`. A string read as a character is its
first character, which is the terminating NUL for an empty narrow string; there is no such
rule for an empty wide string, whose terminating NUL is shorter than a wide character. -/
inductive Decodes : (U : Storable) → U.Val → (V : Readable) → V.Val → Prop
  | same (V : Readable) (u : V.Val) : Decodes (.value V) u V u
  | charString (c : UInt8) : Decodes (.value .char) c .stdString [c]
  | wcharWstring (c : BitVec (8 * wcharSize)) : Decodes (.value .wchar) c .stdWstring [c]
  | stringChar (s : List UInt8) : Decodes (.value .stdString) s .char (s.headD 0)
  | cStringChar (s : CString UInt8) : Decodes .cString s .char (s.chars.headD 0)
  | wstringWchar (c : BitVec (8 * wcharSize)) (s : List (BitVec (8 * wcharSize))) :
      Decodes (.value .stdWstring) (c :: s) .wchar c
  | cWstringWchar (s : CString (BitVec (8 * wcharSize))) (c : BitVec (8 * wcharSize))
      (cs : List (BitVec (8 * wcharSize))) (h : s.chars = c :: cs) :
      Decodes .cWstring s .wchar c
  | cStringString (s : CString UInt8) : Decodes .cString s .stdString s.chars
  | cWstringWstring (s : CString (BitVec (8 * wcharSize))) :
      Decodes .cWstring s .stdWstring s.chars

/-- The wide strings with no character in them. -/
def EmptyWide : (U : Storable) → U.Val → Prop
  | .value .stdWstring, t => t = []
  | .cWstring, t => t.chars = []
  | _, _ => False

/-- A payload of exactly the size of a scalar is read in full. -/
lemma deserializeScalar_payload {V : Readable} {size : ℕ} {object : List UInt8 → V.Val}
    {bytes : List UInt8} (h : bytes.length = size) :
    deserializeScalar V size object ((typeChar V).1 :: (typeChar V).2 :: bytes)
      = .ok (object bytes) := by
  rw [deserializeScalar_of_eq bytes Prod.mk.eta.symm, SharedString.read_payload h.ge,
    List.take_of_length_le h.le]
  rfl

/-- The character overload yields the first byte of the payload, or the NUL behind it. -/
lemma deserialize_char (bytes : List UInt8) :
    deserialize .char ((typeChar Readable.char).1 :: (typeChar Readable.char).2 :: bytes)
      = .ok (bytes.headD 0) := by
  rw [deserialize, deserializeScalar_of_eq bytes Prod.mk.eta.symm,
    SharedString.read_of_le (by simp [headerSize])]
  cases bytes <;> rfl

lemma deserialize_stdString (bytes : List UInt8) :
    deserialize .stdString
      ((typeChar Readable.stdString).1 :: (typeChar Readable.stdString).2 :: bytes)
      = .ok bytes :=
  deserialize_stdString_of_eq bytes Prod.mk.eta.symm

lemma deserialize_stdWstring (ws : List (BitVec (8 * wcharSize))) :
    deserialize .stdWstring
      ((typeChar Readable.stdWstring).1 :: (typeChar Readable.stdWstring).2 :: wordsBytes ws)
      = .ok ws := by
  have hcount : (wordsBytes ws).length / wcharSize = ws.length := by
    rw [length_wordsBytes, Nat.mul_div_cancel _ (by decide)]
  rw [deserialize_stdWstring_of_eq _ Prod.mk.eta.symm, hcount, ← length_wordsBytes,
    List.take_length, bytesWords_wordsBytes]

/-- A wide character is read from the front of the payload. -/
lemma deserialize_wchar (c : BitVec (8 * wcharSize)) (bytes : List UInt8) :
    deserialize .wchar
      ((typeChar Readable.wchar).1 :: (typeChar Readable.wchar).2 :: (wordBytes c ++ bytes))
      = .ok c := by
  have hlen : (wordBytes c).length = wcharSize := length_wordBytes c
  rw [deserialize, deserializeScalar_of_eq _ Prod.mk.eta.symm,
    SharedString.read_payload (by simp [hlen]), List.take_left' hlen]
  exact congrArg Except.ok (bytesWord_wordBytes c)

/-- **The decode law.** Decoding a stored value as a type that shares its tag. -/
theorem deserialize_serialize {U : Storable} {u : U.Val} {V : Readable} {v : V.Val}
    (h : Decodes U u V v) (padding : Padding) :
    deserialize V (serialize U u padding) = .ok v := by
  rw [serialize_eq]
  cases h with
  | same =>
    cases V with
    | bool => cases v <;> rfl
    | char => exact deserialize_char [v]
    | wchar => simpa [payload] using deserialize_wchar v []
    | signedInteger r =>
      rw [deserialize, payload, deserializeScalar_payload (length_wordBytes v)]
      exact congrArg Except.ok (bytesWord_wordBytes v)
    | unsignedInteger r =>
      rw [deserialize, payload, deserializeScalar_payload (length_wordBytes v)]
      exact congrArg Except.ok (bytesWord_wordBytes v)
    | real k =>
      rw [deserialize, payload, deserializeScalar_payload (length_realObject k v padding),
        realObject, List.take_left' (length_wordBytes v), bytesWord_wordBytes]
    | stdString => exact deserialize_stdString v
    | stdWstring => exact deserialize_stdWstring v
  | charString c => exact deserialize_stdString [c]
  | wcharWstring c =>
    have h := deserialize_stdWstring [c]
    rwa [wordsBytes_cons, wordsBytes_nil, List.append_nil] at h
  | stringChar s => exact deserialize_char s
  | cStringChar s => exact deserialize_char s.chars
  | wstringWchar _ s => exact deserialize_wchar _ (wordsBytes s)
  | cWstringWchar s c cs h =>
    rw [payload, h]
    exact deserialize_wchar _ (wordsBytes cs)
  | cStringString s => exact deserialize_stdString s.chars
  | cWstringWstring s => exact deserialize_stdWstring s.chars

/-- Types with one tag have a common reading of every value, but for the first character of
an empty wide string. -/
theorem exists_decodes {U : Storable} {V : Readable} (h : typeChar U = typeChar V)
    (u : U.Val) (hwide : ¬ (V = .wchar ∧ EmptyWide U u)) : ∃ v, Decodes U u V v := by
  rcases typeChar_eq_cases U V h with
    rfl | ⟨rfl | rfl | rfl, rfl | rfl⟩ | ⟨rfl | rfl | rfl, rfl | rfl⟩
  · exact ⟨u, .same V u⟩
  · exact ⟨u, .same .char u⟩
  · exact ⟨[u], .charString u⟩
  · exact ⟨u.headD 0, .stringChar u⟩
  · exact ⟨u, .same .stdString u⟩
  · exact ⟨u.chars.headD 0, .cStringChar u⟩
  · exact ⟨u.chars, .cStringString u⟩
  · exact ⟨u, .same .wchar u⟩
  · exact ⟨[u], .wcharWstring u⟩
  · cases u with
    | nil => exact absurd ⟨rfl, rfl⟩ hwide
    | cons c s => exact ⟨c, .wstringWchar c s⟩
  · exact ⟨u, .same .stdWstring u⟩
  · cases hc : u.chars with
    | nil => exact absurd ⟨rfl, hc⟩ hwide
    | cons c cs => exact ⟨c, .cWstringWchar u c cs hc⟩
  · exact ⟨u.chars, .cWstringWstring u⟩

/-! ## Bounds -/

/-- The bytes read lie at offsets up to the terminating NUL and no length wraps. -/
def InBounds {α : Type} (result : Except DecodeError α) : Prop :=
  (∀ offset, result ≠ .error (.outOfBounds offset)) ∧ result ≠ .error .lengthWrap

lemma inBounds_ok {α : Type} (a : α) : InBounds (.ok a : Except DecodeError α) := by
  constructor <;> simp

lemma inBounds_typeMismatch {α : Type} :
    InBounds (.error typeMismatch : Except DecodeError α) := by
  constructor <;> simp [typeMismatch]

/-- An empty wide string holds nothing but its header. -/
lemma payload_of_emptyWide {U : Storable} {u : U.Val} (h : EmptyWide U u)
    (padding : Padding) : payload U u padding = [] := by
  rcases U with V | _ | _
  · cases V <;> first | exact False.elim h | exact congrArg wordsBytes h
  · exact False.elim h
  · exact congrArg wordsBytes h

lemma typeChar_of_emptyWide {U : Storable} {u : U.Val} (h : EmptyWide U u) :
    typeChar U = typeChar Readable.wchar := by
  rcases U with V | _ | _
  · cases V <;> first | exact False.elim h | rfl
  · exact False.elim h
  · rfl

/-- The first character of an empty wide string is read from behind the string: the
terminating NUL is one of its four bytes. -/
lemma deserialize_wchar_of_emptyWide {U : Storable} {u : U.Val} (h : EmptyWide U u)
    (padding : Padding) :
    deserialize .wchar (serialize U u padding) = .error (.outOfBounds 3) := by
  rw [serialize_eq, payload_of_emptyWide h, typeChar_of_emptyWide h]
  rfl

/-- A decoding leaves the stored string only when it takes a wide character from an empty
wide string. -/
lemma inBounds_deserialize_iff (U : Storable) (u : U.Val) (padding : Padding)
    (V : Readable) :
    InBounds (deserialize V (serialize U u padding)) ↔ ¬ (V = .wchar ∧ EmptyWide U u) := by
  constructor
  · rintro hin ⟨rfl, hempty⟩
    exact hin.1 3 (deserialize_wchar_of_emptyWide hempty padding)
  · intro hwide
    by_cases htag : typeChar U = typeChar V
    · obtain ⟨v, hv⟩ := exists_decodes htag u hwide
      rw [deserialize_serialize hv padding]
      exact inBounds_ok v
    · rw [deserialize_serialize_of_ne htag u padding]
      exact inBounds_typeMismatch

lemma inBounds_raiseForType (T U : Storable) (u : U.Val) (padding : Padding) :
    InBounds (raiseForType T (serialize U u padding)) := by
  rw [raiseForType_serialize]
  split
  · exact inBounds_ok ()
  · exact inBounds_typeMismatch

/-- Decoding a stored `u` as a `V` stays inside the stored bytes: the decoding itself, the
header check on its own, and the length computation. -/
def StaysInside (U : Storable) (u : U.Val) (padding : Padding) (V : Readable) : Prop :=
  InBounds (deserialize V (serialize U u padding)) ∧
    InBounds (raiseForType V (serialize U u padding)) ∧
    headerSize ≤ (serialize U u padding).length

/-- Decoding stays inside the stored bytes, except for a `wchar_t` taken from an empty wide
string. -/
theorem staysInside_iff (U : Storable) (u : U.Val) (padding : Padding) (V : Readable) :
    StaysInside U u padding V ↔ ¬ (V = .wchar ∧ EmptyWide U u) := by
  constructor
  · intro h
    exact (inBounds_deserialize_iff U u padding V).mp h.1
  · intro h
    exact ⟨(inBounds_deserialize_iff U u padding V).mpr h, inBounds_raiseForType V U u padding,
      headerSize_le_length_serialize U u padding⟩

/-- `L""` read as a `wchar_t`. -/
theorem not_staysInside_empty_wstring :
    ¬ StaysInside (.value .stdWstring) [] 0 .wchar :=
  fun h => h.1.1 3 rfl

end Jakilid
