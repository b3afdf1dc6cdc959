import Mathlib

/-!
# The built-in types and their two-byte tags

The compile-time half of the storage format. `Readable` lists the types that have a
`Deserialize` overload, `Storable` the types that have a `Serialize` overload: the same ones
and the two families of C strings, which can be stored but are read back as standard strings.

A value is modelled by what the program can tell about it on the platform the code is built
for (x86-64, little-endian, `char` of one byte and `wchar_t` of four):

* a `long double` has sixteen bytes of storage, ten of which carry the value. Only those ten
  are part of the value; the other six are `Padding`, supplied wherever the object is copied;
* a C string is a buffer that holds a NUL somewhere. What lies behind the first NUL is part of
  the buffer but not of the string.
-/

namespace Jakilid

/-- The ranks of the five signed and the five unsigned integer types; the rank `char` is
`signed char` or `unsigned char`. -/
inductive IntRank
  | char
  | short
  | int
  | long
  | longLong
deriving DecidableEq, Repr

/-- The real types. -/
inductive RealKind
  | float
  | double
  | longDouble
deriving DecidableEq, Repr

/-- The types with a `Deserialize` overload. -/
inductive Readable
  | bool
  | char
  | wchar
  | signedInteger (r : IntRank)
  | unsignedInteger (r : IntRank)
  | real (k : RealKind)
  | stdString
  | stdWstring
deriving DecidableEq, Repr

/-- The types with a `Serialize` overload. -/
inductive Storable
  | value (V : Readable)
  | cString
  | cWstring
deriving DecidableEq, Repr

instance : Coe Readable Storable := ⟨Storable.value⟩

/-! ## Sizes -/

/-- `sizeof` an integer type. -/
def IntRank.sizeof : IntRank → ℕ
  | .char => 1
  | .short => 2
  | .int => 4
  | .long => 8
  | .longLong => 8

/-- `sizeof` a real type. -/
def RealKind.sizeof : RealKind → ℕ
  | .float => 4
  | .double => 8
  | .longDouble => 16

/-- The bytes of a real object that carry its value. -/
def RealKind.valueBytes : RealKind → ℕ
  | .float => 4
  | .double => 8
  | .longDouble => 10

/-- `sizeof(wchar_t)`. -/
def wcharSize : ℕ := 4

/-- The bytes of a `long double` that carry no value. -/
def paddingSize : ℕ := 6

/-- The contents of the padding bytes of a `long double` object. -/
abbrev Padding := BitVec (8 * paddingSize)

/-! ## Values -/

/-- A pointer to characters that end in a NUL. -/
structure CString (α : Type) [Zero α] where
  buf : List α
  terminated : 0 ∈ buf

namespace CString

variable {α : Type} [Zero α] [DecidableEq α]

/-- The characters in front of the first NUL. -/
def chars (s : CString α) : List α :=
  s.buf.takeWhile (· ≠ 0)

/-- `std::strlen` and `std::wcslen`. -/
def strlen (s : CString α) : ℕ :=
  s.chars.length

/-- The first `strlen` characters of the buffer are the ones in front of the first NUL. -/
lemma take_strlen (s : CString α) : s.buf.take s.strlen = s.chars := by
  rw [strlen, chars]
  exact (List.prefix_iff_eq_take.mp (List.takeWhile_prefix _)).symm

lemma strlen_le (s : CString α) : s.strlen ≤ s.buf.length :=
  (List.takeWhile_prefix _).length_le

end CString

/-- What a value of a readable type is. Strings are lists of characters, so that they may be
of any length and hold NULs. -/
@[reducible] def Readable.Val : Readable → Type
  | .bool => Bool
  | .char => UInt8
  | .wchar => BitVec (8 * wcharSize)
  | .signedInteger r => BitVec (8 * r.sizeof)
  | .unsignedInteger r => BitVec (8 * r.sizeof)
  | .real k => BitVec (8 * k.valueBytes)
  | .stdString => List UInt8
  | .stdWstring => List (BitVec (8 * wcharSize))

/-- What a value of a storable type is. -/
@[reducible] def Storable.Val : Storable → Type
  | .value V => V.Val
  | .cString => CString UInt8
  | .cWstring => CString (BitVec (8 * wcharSize))

/-! ## Tags -/

/-- The two characters a stored string starts with. -/
abbrev Header := UInt8 × UInt8

/-- `kHeaderSize`. -/
def headerSize : ℕ := 2

/-- The header spelled by two characters. -/
def header (a b : Char) : Header := (a.toUInt8, b.toUInt8)

/-- `is_signed_integer<T>::id`. -/
def IntRank.signedId : IntRank → Header
  | .char => header 'i' '0'
  | .short => header 'i' '1'
  | .int => header 'i' '2'
  | .long => header 'i' '3'
  | .longLong => header 'i' '4'

/-- `is_unsigned_integer<T>::id`. -/
def IntRank.unsignedId : IntRank → Header
  | .char => header 'u' '0'
  | .short => header 'u' '1'
  | .int => header 'u' '2'
  | .long => header 'u' '3'
  | .longLong => header 'u' '4'

/-- `is_real<T>::id`. -/
def RealKind.id : RealKind → Header
  | .float => header 'f' '0'
  | .double => header 'f' '1'
  | .longDouble => header 'f' '2'

/-- `type_char<T>::value`. A character and the strings of its family share a tag. -/
def typeChar : Storable → Header
  | .value (.signedInteger r) => r.signedId
  | .value (.unsignedInteger r) => r.unsignedId
  | .value (.real k) => k.id
  | .cString | .value .stdString | .value .char => header 's' '0'
  | .cWstring | .value .stdWstring | .value .wchar => header 'w' '0'
  | .value .bool => header 'b' '0'

lemma signedId_fst (r : IntRank) : r.signedId.1 = 'i'.toUInt8 := by cases r <;> rfl

lemma unsignedId_fst (r : IntRank) : r.unsignedId.1 = 'u'.toUInt8 := by cases r <;> rfl

lemma realId_fst (k : RealKind) : k.id.1 = 'f'.toUInt8 := by cases k <;> rfl

lemma signedId_injective : Function.Injective IntRank.signedId := by
  intro r r' h
  cases r <;> cases r' <;> first | rfl | exact absurd h (by decide)

lemma unsignedId_injective : Function.Injective IntRank.unsignedId := by
  intro r r' h
  cases r <;> cases r' <;> first | rfl | exact absurd h (by decide)

lemma realId_injective : Function.Injective RealKind.id := by
  intro k k' h
  cases k <;> cases k' <;> first | rfl | exact absurd h (by decide)

/-- Two types share a tag only when they are the same type or belong to the same family of
character and string types. -/
lemma typeChar_eq_cases (U : Storable) (V : Readable) (h : typeChar U = typeChar V) :
    U = .value V ∨
      (U = .value .char ∨ U = .value .stdString ∨ U = .cString) ∧ (V = .char ∨ V = .stdString) ∨
      (U = .value .wchar ∨ U = .value .stdWstring ∨ U = .cWstring) ∧
        (V = .wchar ∨ V = .stdWstring) := by
  have hfst := congrArg Prod.fst h
  rcases U with (_ | _ | _ | r | r | k | _ | _) | _ | _ <;>
    rcases V with _ | _ | _ | r' | r' | k' | _ | _ <;>
    simp only [typeChar, signedId_fst, unsignedId_fst, realId_fst] at h hfst <;>
    first
    | exact absurd hfst (by decide)
    | simp [signedId_injective h]
    | simp [unsignedId_injective h]
    | simp [realId_injective h]
    | simp

end Jakilid
