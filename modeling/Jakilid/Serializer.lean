import Jakilid.Lib.LittleEndian
import Jakilid.Traits

/-!
# The serializer

`serialize` and `deserialize` follow the overloads of the same names. A `SharedString` is the
list of its characters; in memory one NUL follows them, so the bytes a reader may touch are
the ones at offsets `0` to `length` (`byteAt`). Reading any other byte, or letting
`size() - kHeaderSize` wrap, is an error of its own (`outOfBounds`, `lengthWrap`): the source
has undefined behaviour there, and the theorems say when it does not get there.
-/

namespace Jakilid

open LittleEndian

/-- A string in shared memory, without the NUL that follows it. -/
abbrev SharedString := List UInt8

/-- How a decoding ends when it does not return a value. -/
inductive DecodeError
  /-- `std::domain_error` -/
  | domainError (what : String)
  /-- a byte behind the terminating NUL is read -/
  | outOfBounds (offset : ℕ)
  /-- `size() - kHeaderSize` wraps around -/
  | lengthWrap
deriving DecidableEq, Repr

/-- The result is a `std::domain_error`. -/
def IsDomainError {α : Type} (result : Except DecodeError α) : Prop :=
  ∃ what, result = .error (.domainError what)

/-- What `raise_for_type` throws. -/
def typeMismatch : DecodeError := .domainError "Type mismatch in deserializing"

namespace SharedString

/-- The byte at an offset of `c_str()`. -/
def byteAt (str : SharedString) (offset : ℕ) : Except DecodeError UInt8 :=
  match (str ++ [0])[offset]? with
  | some b => .ok b
  | none => .error (.outOfBounds offset)

/-- The `n` bytes of `c_str()` from an offset on. -/
def read (str : SharedString) (offset : ℕ) : ℕ → Except DecodeError (List UInt8)
  | 0 => .ok []
  | n + 1 => do
      let b ← byteAt str offset
      let bs ← read str (offset + 1) n
      return b :: bs

/-- `size() - kHeaderSize`. -/
def payloadSize (str : SharedString) : Except DecodeError ℕ :=
  if headerSize ≤ str.length then .ok (str.length - headerSize) else .error .lengthWrap

end SharedString

/-! ## Serialize -/

/-- `emplace<T>`: the tag of `T` and `n` bytes of `data`. -/
def emplace (T : Storable) (n : ℕ) (data : List UInt8) : SharedString :=
  (typeChar T).1 :: (typeChar T).2 :: data.take n

/-- The object representation of a real: the value bytes and, for `long double`, the padding
its storage has beyond them. -/
def realObject (k : RealKind) (t : BitVec (8 * k.valueBytes)) (padding : Padding) :
    List UInt8 :=
  wordBytes t ++ (wordBytes padding).take (k.sizeof - k.valueBytes)

/-- `Serialize`. The scalar overloads take their argument by value; `padding` is what the
padding bytes of that copy hold. -/
def serialize : (U : Storable) → U.Val → Padding → SharedString
  | .value .bool, t, _ => emplace (.value .bool) 1 [if t then 1 else 0]
  | .value .char, t, _ => emplace (.value .char) 1 [t]
  | .value .wchar, t, _ => emplace (.value .wchar) wcharSize (wordBytes t)
  | .value (.signedInteger r), t, _ =>
      emplace (.value (.signedInteger r)) r.sizeof (wordBytes t)
  | .value (.unsignedInteger r), t, _ =>
      emplace (.value (.unsignedInteger r)) r.sizeof (wordBytes t)
  | .value (.real k), t, padding =>
      emplace (.value (.real k)) k.sizeof (realObject k t padding)
  | .value .stdString, t, _ => emplace (.value .stdString) t.length (t ++ [0])
  | .value .stdWstring, t, _ =>
      emplace (.value .stdWstring) (t.length * wcharSize) (wordsBytes (t ++ [0]))
  | .cString, t, _ => emplace .cString t.strlen t.buf
  | .cWstring, t, _ => emplace .cWstring (t.strlen * wcharSize) (wordsBytes t.buf)

/-! ## Deserialize -/

/-- `raise_for_type<T>`. -/
def raiseForType (T : Storable) (str : SharedString) : Except DecodeError Unit := do
  let first ← str.byteAt 0
  if (typeChar T).1 = first then
    let second ← str.byteAt 1
    if (typeChar T).2 = second then return ()
    else throw typeMismatch
  else throw typeMismatch

/-- The scalar overloads of `Deserialize`: `sizeof(T)` bytes behind the header, read as an
object of type `T`. -/
def deserializeScalar (V : Readable) (size : ℕ) (object : List UInt8 → V.Val)
    (str : SharedString) : Except DecodeError V.Val := do
  raiseForType V str
  let bytes ← str.read headerSize size
  return object bytes

/-- `Deserialize<V>`. -/
def deserialize : (V : Readable) → SharedString → Except DecodeError V.Val
  | .bool, str => deserializeScalar .bool 1 (fun bytes => bytes.headD 0 ≠ 0) str
  | .char, str => deserializeScalar .char 1 (fun bytes => bytes.headD 0) str
  | .wchar, str => deserializeScalar .wchar wcharSize (bytesWord wcharSize) str
  | .signedInteger r, str =>
      deserializeScalar (.signedInteger r) r.sizeof (bytesWord r.sizeof) str
  | .unsignedInteger r, str =>
      deserializeScalar (.unsignedInteger r) r.sizeof (bytesWord r.sizeof) str
  | .real k, str =>
      deserializeScalar (.real k) k.sizeof
        (fun bytes => bytesWord k.valueBytes (bytes.take k.valueBytes)) str
  | .stdString, str => do
      raiseForType Readable.stdString str
      let n ← str.payloadSize
      str.read headerSize n
  | .stdWstring, str => do
      raiseForType Readable.stdWstring str
      let n ← str.payloadSize
      let bytes ← str.read headerSize (n / wcharSize * wcharSize)
      return bytesWords wcharSize (n / wcharSize) bytes

end Jakilid
