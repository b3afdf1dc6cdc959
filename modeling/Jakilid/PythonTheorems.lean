import Jakilid.Python

/-!
# What Python reads and writes

The dispatch on the header picks the reader whose own type check accepts the value, so that
Python reads whatever C++ reads as one of the three types, and nothing else
(`python_readers_agree`). What Python itself inserts it finds again, unless it is an `int` that
no C++ `int` holds: that one is stored as a `float` (`python_roundTrip_iff`).
-/

namespace Jakilid

open Cuckoo

/-! ## The dispatch -/

/-- The three headers are different. -/
lemma dispatch_eq_some_iff {h : Header} {T : PyType} :
    dispatch h = some T ↔ typeChar T.readable = h := by
  constructor
  · intro hd
    simpa using List.find?_some hd
  · rintro rfl
    cases T <;> decide

lemma headerOf_cons (a b : UInt8) (bytes : List UInt8) :
    headerOf (a :: b :: bytes) = .ok (a, b) := rfl

/-- Once the dispatch has chosen a reader, its type check passes. -/
theorem raiseForType_of_dispatch {raw : SharedString} {h : Header} {T : PyType}
    (hh : headerOf raw = .ok h) (hd : dispatch h = some T) :
    raiseForType T.readable raw = .ok () := by
  obtain rfl := dispatch_eq_some_iff.mp hd
  by_contra hcheck
  have hnot : ¬ Tagged T.readable raw := by
    rintro ⟨bytes, rfl⟩
    rw [raiseForType_cons, if_pos Prod.mk.eta.symm] at hcheck
    exact hcheck rfl
  match raw with
  | [] => cases hh
  | [a] =>
    have hsecond := congrArg Prod.snd (Except.ok.inj hh)
    exact (typeChar_ne_zero T.readable).2 hsecond.symm
  | a :: b :: bytes =>
    rw [headerOf_cons] at hh
    exact hnot ⟨bytes, by rw [← Except.ok.inj hh]⟩

/-- A value with one of the three tags is given to its reader. -/
lemma readObject_of_tag (pb : Pybind) {U : Storable} {T : PyType}
    (h : typeChar U = typeChar T.readable) (u : U.Val) (padding : Padding) :
    readObject pb (serialize U u padding) = (getImplemention pb T).2 (serialize U u padding) := by
  have hd : dispatch (typeChar U) = some T := dispatch_eq_some_iff.mpr h.symm
  rw [readObject, serialize_eq, headerOf_cons]
  simp only [Prod.mk.eta, hd]

/-- Any other value is refused. -/
lemma readObject_of_no_tag (pb : Pybind) {U : Storable}
    (h : ∀ T : PyType, typeChar U ≠ typeChar T.readable) (u : U.Val) (padding : Padding) :
    readObject pb (serialize U u padding)
      = .error (.decode (.domainError "Value type not supported in python")) := by
  have hd : dispatch (typeChar U) = none := by
    cases hd : dispatch (typeChar U) with
    | none => rfl
    | some T => exact absurd (dispatch_eq_some_iff.mp hd).symm (h T)
  rw [readObject, serialize_eq, headerOf_cons]
  simp only [Prod.mk.eta, hd]

/-- The readers accept every value with their tag. -/
lemma exists_deserialize (T : PyType) {U : Storable} (h : typeChar U = typeChar T.readable)
    (u : U.Val) (padding : Padding) :
    ∃ v, deserialize T.readable (serialize U u padding) = .ok v := by
  have hwide : ¬ (T.readable = .wchar ∧ EmptyWide U u) := by
    rintro ⟨hT, -⟩
    cases T <;> cases hT
  obtain ⟨v, hv⟩ := exists_decodes h u hwide
  exact ⟨v, deserialize_serialize hv padding⟩

/-! ## Keys -/

/-- A key of a C++ call and the Python object it is the same key as. -/
inductive SameKey : Arg → PyObject → Prop
  | int (n : BitVec 32) : SameKey (.builtin (.value (.signedInteger .int)) n) (.int n.toInt)
  | str (s : String) : SameKey (.builtin (.value .stdString) (utf8 s)) (.str s)

lemma fitsInt_toInt (n : BitVec 32) : FitsInt n.toInt := by
  have h := n.le_toInt
  have h' := n.toInt_lt
  constructor <;> simpa using by assumption

lemma loadArg_int {n : ℤ} (pb : Pybind) (convert : Bool) (h : FitsInt n) :
    loadArg pb convert .int (.int n)
      = some (.builtin (.value (.signedInteger .int)) (BitVec.ofInt 32 n)) := by
  rw [loadArg, load, if_pos h]
  rfl

lemma loadArg_int_of_not_fits {n : ℤ} (pb : Pybind) (convert : Bool) (h : ¬ FitsInt n) :
    loadArg pb convert .int (.int n) = none := by
  rw [loadArg, load, if_neg h]
  rfl

/-- Python passes on the same key. -/
lemma resolveKey_of_sameKey (pb : Pybind) {k : Arg} {o : PyObject} (h : SameKey k o) :
    resolveKey pb o = some k := by
  cases h with
  | int n =>
    have hstring : loadArg pb false .string (.int n.toInt) = none := rfl
    simp only [resolveKey, resolve, List.findSome?_cons, hstring,
      loadArg_int pb false (fitsInt_toInt n), BitVec.ofInt_toInt]
    rfl
  | str s => rfl

lemma SameKey.not_padded {k : Arg} {o : PyObject} (h : SameKey k o) : ¬ k.Padded := by
  cases h <;> exact id

/-! ## Python and C++ readers -/

/-- The conversions around the number `2 ^ 31`. -/
def pybindAt31 : Pybind where
  ofFloat x := if x = 0x4f000000 then 0x41e0000000000000 else 0
  toFloat x := if x = 0x41e0000000000000 then 0x4f000000 else 0
  intToFloat n := if n = 2 ^ 31 then some 0x4f000000 else none

section Readers

variable {hash : SharedString → UInt64}

/-- Python's `find` of `o` and the C++ reads of `k` tell the same about the entry that was just
written under the string `written`. -/
structure ReadersAgree (pb : Pybind) (m : HashMap hash) (written : SharedString) (k : Arg)
    (o : PyObject) (s : Supply) : Prop where
  entry : pyFind pb m o s = findObject pb m k s ∧ ∀ w, m.ActsOn w k s ↔ w = written
  returns_iff : (∃ r, pyFind pb m o s = .ok r ∧ r ≠ .none) ↔
    ∃ (T : PyType) (v : T.readable.Val), m.findAs T.readable k s = .ok (some v)
  unique : ∀ (T T' : PyType) (v : T.readable.Val) (v' : T'.readable.Val),
    m.findAs T.readable k s = .ok (some v) → m.findAs T'.readable k s = .ok (some v') → T = T'
  object : ∀ (T : PyType) (v : T.readable.Val), m.findAs T.readable k s = .ok (some v) →
    pyFind pb m o s = pyObject pb T v
  throws : (∀ T : PyType, ∃ what,
      m.findAs T.readable k s = .error (.decode (.domainError what))) →
    ∃ what, pyFind pb m o s = .error (.decode (.domainError what))
  typeCheck : ∀ (raw : SharedString) (h : Header) (T : PyType), headerOf raw = .ok h →
    dispatch h = some T → raiseForType T.readable raw = .ok ()

/-- A reader that returns a value found its own tag. -/
lemma typeChar_of_deserialize {U : Storable} {u : U.Val} {padding : Padding} {V : Readable}
    {v : V.Val} (h : deserialize V (serialize U u padding) = .ok v) : typeChar U = typeChar V := by
  by_contra hne
  rw [deserialize_serialize_of_ne hne] at h
  cases h

/-- **Readers.** Whatever C++ stores under an `int` or a string, Python and C++ read it alike. -/
theorem python_readers_agree (pb : Pybind) (m : HashMap hash) {k : Arg} {o : PyObject}
    (hkey : SameKey k o) (U : Storable) (u : U.Val) (s s' : Supply) {b : Bool}
    (h : (m.insert k (.builtin U u) s).2 = .ok b) (hgranted : s'.key.granted = true)
    (hcopy : s'.copyGranted = true)
    (hutf8 : ∀ bytes, (m.insert k (.builtin U u) s).1.findAs .stdString k s' = .ok (some bytes) →
      (ByteArray.mk bytes.toArray).IsValidUTF8) :
    ReadersAgree pb (m.insert k (.builtin U u) s).1 (k.bytes s.key.padding) k o s' := by
  obtain ⟨d, -, hraw⟩ := HashMap.findRaw_insert h (fun hp => absurd hp hkey.not_padded) hgranted
    hcopy
  have hbytes : Arg.bytes (.builtin U u) d.padding = serialize U u d.padding := rfl
  rw [hbytes] at hraw
  have hentry : pyFind pb (m.insert k (.builtin U u) s).1 o s'
      = findObject pb (m.insert k (.builtin U u) s).1 k s' := by
    rw [pyFind, resolveKey_of_sameKey pb hkey]
  have hfind : findObject pb (m.insert k (.builtin U u) s).1 k s'
      = readObject pb (serialize U u d.padding) := by
    rw [findObject, hraw]
  have hok : ∀ (T : PyType) (v : T.readable.Val),
      (m.insert k (.builtin U u) s).1.findAs T.readable k s' = .ok (some v) ↔
        deserialize T.readable (serialize U u d.padding) = .ok v :=
    fun T v => HashMap.findAs_eq_ok_iff hraw
  have hobject : ∀ (T : PyType) (v : T.readable.Val),
      deserialize T.readable (serialize U u d.padding) = .ok v →
      readObject pb (serialize U u d.padding) = pyObject pb T v := by
    intro T v hv
    rw [readObject_of_tag pb (typeChar_of_deserialize hv), getImplemention]
    simp only [hv]
  refine ⟨⟨hentry, fun w => ?_⟩, ⟨?_, ?_⟩, ?_, ?_, ?_, ?_⟩
  · rw [HashMap.ActsOn, internalSerialize_of_granted hgranted,
      Arg.bytes_congr fun hp => absurd hp hkey.not_padded]
    constructor
    · rintro ⟨k', hk', hshares⟩
      obtain rfl := Except.ok.inj hk'
      exact ((HashMap.sharesEntry_iff _ _ _).mp hshares).2.symm
    · rintro rfl
      exact ⟨_, rfl, (HashMap.sharesEntry_insert_iff h _).mpr rfl⟩
  · -- an object comes of the type whose tag the value has
    rintro ⟨r, hr, -⟩
    rw [hentry, hfind] at hr
    by_cases htag : ∃ T : PyType, typeChar U = typeChar T.readable
    · obtain ⟨T, hT⟩ := htag
      obtain ⟨v, hv⟩ := exists_deserialize T hT u d.padding
      exact ⟨T, v, (hok T v).mpr hv⟩
    · rw [readObject_of_no_tag pb (not_exists.mp htag)] at hr
      cases hr
  · rintro ⟨T, v, hv⟩
    rw [hentry, hfind, hobject T v ((hok T v).mp hv)]
    cases T with
    | int => exact ⟨_, rfl, PyObject.noConfusion⟩
    | float => exact ⟨_, rfl, PyObject.noConfusion⟩
    | string =>
      rw [pyObject, pyStr, dif_pos (hutf8 v hv)]
      exact ⟨_, rfl, PyObject.noConfusion⟩
  · intro T T' v v' hv hv'
    have hT := typeChar_of_deserialize ((hok T v).mp hv)
    have hT' := typeChar_of_deserialize ((hok T' v').mp hv')
    exact Option.some.inj
      ((dispatch_eq_some_iff.mpr hT.symm).symm.trans (dispatch_eq_some_iff.mpr hT'.symm))
  · intro T v hv
    rw [hentry, hfind, hobject T v ((hok T v).mp hv)]
  · intro hall
    have hne : ∀ T : PyType, typeChar U ≠ typeChar T.readable := fun T hT =>
      (HashMap.findAs_domainError_iff hraw).mp (hall T) ((tagged_serialize_iff _ _ u _).mpr hT)
    rw [hentry, hfind, readObject_of_no_tag pb hne]
    exact ⟨_, rfl⟩
  · exact fun raw h T hh hd => raiseForType_of_dispatch hh hd

/-- The key `5` holds the value `true`, which Python cannot read. -/
theorem python_readers_agree_bool :
    ReadersAgree pybindAt31
      (emptyMap.insert (.builtin (.value (.signedInteger .int)) (5 : BitVec 32))
        (.builtin (.value .bool) true) .granting).1
      (Arg.bytes (.builtin (.value (.signedInteger .int)) (5 : BitVec 32)) 0)
      (.builtin (.value (.signedInteger .int)) (5 : BitVec 32)) (.int 5) .granting :=
  python_readers_agree pybindAt31 emptyMap (.int 5) (.value .bool) true .granting .granting (b := true)
    rfl rfl rfl fun _ h => by cases h

end Readers

/-! ## Round trip -/

section RoundTrip

variable {hash : SharedString → UInt64}

/-- The Python objects that can be keys, and the values of the same types. -/
inductive PyValue
  | int (n : ℤ)
  | str (s : String)

def PyValue.object : PyValue → PyObject
  | .int n => .int n
  | .str s => .str s

/-- The values that some overload stores as what they are. -/
def PyValue.Fits : PyValue → Prop
  | .int n => FitsInt n
  | .str _ => True

/-- `Stored pb o v`: the object `o` is stored as the value `v`. An `int` that is no C++ `int`
misses the overloads for it and is stored by the next one, as a `float`. -/
inductive Stored (pb : Pybind) : PyValue → Arg → Prop
  | int {n : ℤ} (h : FitsInt n) :
      Stored pb (.int n) (.builtin (.value (.signedInteger .int)) (BitVec.ofInt 32 n))
  | float {n : ℤ} {x : BitVec 32} (h : ¬ FitsInt n) (hx : pb.intToFloat n = some x) :
      Stored pb (.int n) (.builtin (.value (.real .float)) x)
  | str (s : String) : Stored pb (.str s) (.builtin (.value .stdString) (utf8 s))

/-- The only overloads that take a key take it as the same key. -/
lemma loadArg_key {pb : Pybind} {convert : Bool} {T : PyType} {key : PyValue} {k : Arg}
    (hT : T = .int ∨ T = .string) (h : loadArg pb convert T key.object = some k) :
    SameKey k key.object := by
  rcases hT with rfl | rfl
  · cases key with
    | int n =>
      by_cases hn : FitsInt n
      · rw [PyValue.object, loadArg_int pb convert hn] at h
        obtain rfl := Option.some.inj h
        have hsame := SameKey.int (BitVec.ofInt 32 n)
        rwa [BitVec.toInt_ofInt_eq_self (by decide) hn.1 hn.2] at hsame
      · rw [PyValue.object, loadArg_int_of_not_fits pb convert hn] at h
        cases h
    | str s => cases h
  · cases key with
    | int n => cases h
    | str s =>
      obtain rfl := Option.some.inj h
      exact .str s

/-- What one overload takes a value for. -/
lemma loadArg_value {pb : Pybind} {convert : Bool} {T : PyType} {value : PyValue} {v : Arg}
    (hfits : convert = true → ∀ n, value = .int n → ¬ FitsInt n)
    (h : loadArg pb convert T value.object = some v) : Stored pb value v := by
  cases value with
  | str s =>
    cases T with
    | string =>
      obtain rfl := Option.some.inj h
      exact .str s
    | int => cases h
    | float => cases h
  | int n =>
    cases T with
    | string => cases h
    | int =>
      by_cases hn : FitsInt n
      · rw [PyValue.object, loadArg_int pb convert hn] at h
        obtain rfl := Option.some.inj h
        exact .int hn
      · rw [PyValue.object, loadArg_int_of_not_fits pb convert hn] at h
        cases h
    | float =>
      cases convert with
      | false => cases h
      | true =>
        have hmap : (pb.intToFloat n).map (Arg.builtin (.value (.real .float))) = some v := h
        obtain ⟨x, hx, rfl⟩ := Option.map_eq_some_iff.mp hmap
        exact .float (hfits rfl n rfl) hx

lemma loadPair_eq_some {pb : Pybind} {convert : Bool} {key value : PyObject}
    {T : PyType × PyType} {k v : Arg} (h : loadPair pb convert key value T = some (k, v)) :
    loadArg pb convert T.1 key = some k ∧ loadArg pb convert T.2 value = some v := by
  rw [loadPair] at h
  cases hk : loadArg pb convert T.1 key with
  | none => simp [hk] at h
  | some k' =>
    cases hv : loadArg pb convert T.2 value with
    | none => simp [hk, hv] at h
    | some v' =>
      simp only [hk, hv, Option.some.injEq, Prod.mk.injEq] at h
      exact ⟨by rw [h.1], by rw [h.2]⟩

lemma mem_allTypes_fst {T : PyType × PyType} (h : T ∈ allTypes) :
    T.1 = .int ∨ T.1 = .string := by
  rcases List.mem_append.mp h with h | h
  · obtain ⟨V, -, rfl⟩ := List.mem_map.mp h
    exact .inl rfl
  · obtain ⟨V, -, rfl⟩ := List.mem_map.mp h
    exact .inr rfl

/-- Keys are converted alike in both passes. -/
lemma loadArg_convert {T : PyType} (pb : Pybind) (hT : T = .int ∨ T = .string) (o : PyObject) :
    loadArg pb true T o = loadArg pb false T o := by
  rcases hT with rfl | rfl <;> cases o <;> rfl

/-- When the first pass has failed, the value is no C++ `int`. -/
lemma not_fits_of_first_pass {pb : Pybind} {key : PyObject} {k : Arg} {T : PyType} {n : ℤ}
    (hT : T = .int ∨ T = .string) (hk : loadArg pb true T key = some k)
    (hfirst : allTypes.findSome? (loadPair pb false key (.int n)) = none) : ¬ FitsInt n := by
  intro hn
  have hmem : (T, PyType.int) ∈ allTypes := by rcases hT with rfl | rfl <;> decide
  have hnone := List.findSome?_eq_none_iff.mp hfirst _ hmem
  rw [loadArg_convert pb hT] at hk
  simp only [loadPair, hk, loadArg_int pb false hn] at hnone
  cases hnone

/-- The arguments of an `insert` that some overload takes. -/
lemma resolve_insert {pb : Pybind} {key value : PyValue} {k v : Arg}
    (h : (resolve allTypes fun convert => loadPair pb convert key.object value.object)
      = some (k, v)) : SameKey k key.object ∧ Stored pb value v := by
  rw [resolve] at h
  cases hfirst : allTypes.findSome? (loadPair pb false key.object value.object) with
  | some r =>
    rw [hfirst] at h
    obtain rfl := Option.some.inj h
    obtain ⟨T, hT, hpair⟩ := List.exists_of_findSome?_eq_some hfirst
    obtain ⟨hk, hv⟩ := loadPair_eq_some hpair
    exact ⟨loadArg_key (mem_allTypes_fst hT) hk, loadArg_value (fun h => absurd h Bool.false_ne_true) hv⟩
  | none =>
    rw [hfirst, Option.none_or] at h
    obtain ⟨T, hT, hpair⟩ := List.exists_of_findSome?_eq_some h
    obtain ⟨hk, hv⟩ := loadPair_eq_some hpair
    have hnot : ∀ n, value = .int n → ¬ FitsInt n := by
      rintro n rfl
      exact not_fits_of_first_pass (mem_allTypes_fst hT) hk hfirst
    exact ⟨loadArg_key (mem_allTypes_fst hT) hk, loadArg_value (fun _ => hnot) hv⟩

/-- A `str` is made of the bytes it was stored as. -/
lemma pyStr_utf8 (s : String) : pyStr (utf8 s) = .ok (.str s) := by
  have hbytes : ByteArray.mk (utf8 s).toArray = s.toByteArray := rfl
  rw [pyStr, dif_pos (hbytes ▸ s.isValidUTF8)]
  rfl

/-- A value of one of the three types is made into its object. -/
lemma readObject_value (pb : Pybind) (T : PyType) (v : T.readable.Val) (padding : Padding) :
    readObject pb (serialize (.value T.readable) v padding) = pyObject pb T v := by
  rw [readObject_of_tag pb rfl, getImplemention]
  simp only [deserialize_serialize (.same T.readable v)]

/-- Reading a stored value gives the object back unless it was stored as a `float`. -/
lemma readObject_of_stored {pb : Pybind} {value : PyValue} {v : Arg} (h : Stored pb value v)
    (padding : Padding) : readObject pb (v.bytes padding) = .ok value.object ↔ value.Fits := by
  cases h with
  | @int n hn =>
    have hread := readObject_value pb .int (BitVec.ofInt 32 n) padding
    have hint : pyObject pb .int (BitVec.ofInt 32 n) = .ok (.int n) := by
      show Except.ok (PyObject.int (BitVec.ofInt 32 n).toInt) = _
      rw [BitVec.toInt_ofInt_eq_self (by decide) hn.1 hn.2]
    exact iff_of_true (hread.trans hint) hn
  | @float n x hn hx =>
    have hread := readObject_value pb .float x padding
    refine iff_of_false (fun h => ?_) hn
    cases hread.symm.trans h
  | str s =>
    have hread := readObject_value pb .string (utf8 s) padding
    exact iff_of_true (hread.trans (pyStr_utf8 s)) trivial

/-- **Round trip.** After an `insert` that returns, and any calls about other keys, `find`
returns the value that was inserted, as the same type, if and only if it is a `str` or an `int`
in the range of a C++ `int` (and the strings of `find` get their memory). -/
theorem python_roundTrip_iff (pb : Pybind) (m : HashMap hash) (key value : PyValue)
    (s s' : Supply) {b : Bool} (h : (pyInsert pb m key.object value.object s).2 = .ok b)
    (cs : List Change) (hcs : ∀ k, resolveKey pb key.object = some k →
      k.bytes s.key.padding ∉ cs.map Change.keyBytes) :
    pyFind pb ((pyInsert pb m key.object value.object s).1.run cs) key.object s'
        = .ok value.object ↔
      value.Fits ∧ s'.key.granted = true ∧ s'.copyGranted = true := by
  rw [pyInsert] at h ⊢
  cases hres : resolve allTypes fun convert => loadPair pb convert key.object value.object with
  | none =>
    rw [hres] at h
    cases h
  | some r =>
    obtain ⟨k, v⟩ := r
    obtain ⟨hkey, hstored⟩ := resolve_insert hres
    rw [hres] at h
    have hreturns : (m.insert k v s).2 = .ok b := by
      cases hr : (m.insert k v s).2 with
      | error e => simp [hr, Except.mapError] at h
      | ok b' => simpa [hr, Except.mapError] using h
    obtain ⟨d, -, -, hfind⟩ := HashMap.find_insert hreturns
    have hentry : ((m.insert k v s).1.run cs).find (k.bytes s.key.padding)
        = some (v.bytes d.padding) := by
      rw [HashMap.find_run_of_notMem (hcs k (resolveKey_of_sameKey pb hkey)), hfind,
        Function.update_self]
    rw [pyFind, resolveKey_of_sameKey pb hkey]
    simp only [findObject, HashMap.findRaw, internalSerialize]
    cases hgranted : s'.key.granted with
    | false => simp
    | true =>
      have hbytes : k.bytes s'.key.padding = k.bytes s.key.padding :=
        Arg.bytes_congr fun hp => absurd hp hkey.not_padded
      simp only [if_true, HashMap.copyOut, hbytes, hentry, true_and]
      cases hcopy : s'.copyGranted with
      | false => simp
      | true => simpa using readObject_of_stored hstored d.padding

theorem python_roundTrip_seven :
    pyFind pybindAt31 ((pyInsert pybindAt31 emptyMap (.int 1) (.int 7) .granting).1.run [])
        (.int 1) .granting = .ok (.int 7) ↔
      FitsInt 7 ∧ Supply.granting.key.granted = true ∧ Supply.granting.copyGranted = true :=
  python_roundTrip_iff pybindAt31 emptyMap (.int 1) (.int 7) .granting .granting (b := true) rfl []
    fun _ _ => List.not_mem_nil

/-- The `int` just beyond the range is stored, and comes back as a `float`. -/
theorem not_python_roundTrip :
    (pyInsert pybindAt31 emptyMap (.int 1) (.int (2 ^ 31)) .granting).2 = .ok true ∧
    pyFind pybindAt31 (pyInsert pybindAt31 emptyMap (.int 1) (.int (2 ^ 31)) .granting).1
      (.int 1) .granting ≠ .ok (.int (2 ^ 31)) := by
  have hfind : pyFind pybindAt31
      (pyInsert pybindAt31 emptyMap (.int 1) (.int (2 ^ 31)) .granting).1 (.int 1) .granting
        = .ok (.float 0x41e0000000000000) := rfl
  refine ⟨rfl, fun h => ?_⟩
  cases hfind.symm.trans h

end RoundTrip

end Jakilid
