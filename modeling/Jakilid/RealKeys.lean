import Jakilid.Lib.FloatFormat
import Jakilid.SharedDictTheorems

/-!
# Real keys

Keys are compared by their bytes, reals by their values. The two disagree for the zeros of
opposite sign, and for `long double` also for copies with different padding and for
pseudo-denormals; they agree on all other numbers (`realKey_iff`).
-/

namespace Jakilid

open Cuckoo FloatFormat LittleEndian

/-! ## Values of reals -/

/-- The bits below the exponent; the ones of `long double` include its integer bit. -/
def RealKind.lowBits : RealKind → ℕ
  | .float => 23
  | .double => 52
  | .longDouble => 64

def RealKind.exponentBits : RealKind → ℕ
  | .float => 8
  | .double => 11
  | .longDouble => 15

/-- The number the value bytes of a real stand for. -/
def realValue : (k : RealKind) → BitVec (8 * k.valueBytes) → Value
  | .float, x => interchange 23 8 x.toNat
  | .double, x => interchange 52 11 x.toNat
  | .longDouble, x => extended 64 15 x.toNat

/-- `x == y` -/
def realEq (k : RealKind) (x y : BitVec (8 * k.valueBytes)) : Bool :=
  (realValue k x).eq (realValue k y)

def IsZeroReal (k : RealKind) (x : BitVec (8 * k.valueBytes)) : Prop :=
  IsZero k.lowBits k.exponentBits x.toNat

/-- A pseudo-denormal `long double` and the normal one it is equal to. -/
def TwinReals (k : RealKind) (x y : BitVec (8 * k.valueBytes)) : Prop :=
  k = .longDouble ∧ Twins k.lowBits k.exponentBits x.toNat y.toNat

lemma TwinReals.ne {k : RealKind} {x y : BitVec (8 * k.valueBytes)} (h : TwinReals k x y) :
    x ≠ y := by
  rintro rfl
  obtain ⟨-, -, -, ⟨h0, h1⟩ | ⟨h1, h0⟩⟩ := h <;> omega

/-- When numbers are equal. -/
lemma realEq_iff {k : RealKind} {x y : BitVec (8 * k.valueBytes)}
    (hx : realValue k x ≠ .nan) (hy : realValue k y ≠ .nan) :
    realEq k x y = true ↔ x = y ∨ IsZeroReal k x ∧ IsZeroReal k y ∨ TwinReals k x y := by
  rw [← BitVec.toNat_inj]
  cases k with
  | float =>
    have hxlt : x.toNat < 2 ^ (23 + 8 + 1) := x.isLt
    have hylt : y.toNat < 2 ^ (23 + 8 + 1) := y.isLt
    have h := eq_interchange_iff (by decide) hxlt hylt hx hy
    simpa [realEq, realValue, IsZeroReal, TwinReals, RealKind.lowBits,
      RealKind.exponentBits] using h
  | double =>
    have hxlt : x.toNat < 2 ^ (52 + 11 + 1) := x.isLt
    have hylt : y.toNat < 2 ^ (52 + 11 + 1) := y.isLt
    have h := eq_interchange_iff (by decide) hxlt hylt hx hy
    simpa [realEq, realValue, IsZeroReal, TwinReals, RealKind.lowBits,
      RealKind.exponentBits] using h
  | longDouble =>
    have hxlt : x.toNat < 2 ^ (64 + 15 + 1) := x.isLt
    have hylt : y.toNat < 2 ^ (64 + 15 + 1) := y.isLt
    have h := eq_extended_iff (by decide) (by decide) hxlt hylt hx hy
    simpa [realEq, realValue, IsZeroReal, TwinReals, RealKind.lowBits,
      RealKind.exponentBits] using h

/-! ## Bytes of reals -/

/-- Two reals have the same bytes when their value bytes and, for `long double`, the padding
bytes are the same. -/
lemma serialize_real_inj {k : RealKind} {x y : BitVec (8 * k.valueBytes)}
    {padding padding' : Padding} :
    serialize (.value (.real k)) x padding = serialize (.value (.real k)) y padding' ↔
      x = y ∧ (k = .longDouble → padding = padding') := by
  rw [serialize_eq, serialize_eq, List.cons.injEq, List.cons.injEq, eq_self_iff_true, true_and,
    eq_self_iff_true, true_and]
  simp only [payload, realObject]
  have hsplit : ∀ {bs bs' : List UInt8}, wordBytes x ++ bs = wordBytes y ++ bs' ↔
      x = y ∧ bs = bs' := by
    intro bs bs'
    constructor
    · intro h
      obtain ⟨hword, hbs⟩ := List.append_inj h (by rw [length_wordBytes, length_wordBytes])
      exact ⟨wordBytes_injective hword, hbs⟩
    · rintro ⟨rfl, rfl⟩
      rfl
  rw [hsplit]
  refine and_congr_right fun _ => ?_
  cases k with
  | float => simp [RealKind.sizeof, RealKind.valueBytes]
  | double => simp [RealKind.sizeof, RealKind.valueBytes]
  | longDouble =>
    have hall : ∀ p : Padding, (wordBytes p).take 6 = wordBytes p := fun p =>
      List.take_of_length_le (length_wordBytes p).le
    simp only [RealKind.sizeof, RealKind.valueBytes, hall, wordBytes_injective.eq_iff, true_imp_iff]

/-! ## Keys -/

/-- The numbers `x` and `y` are equal, but the bytes their keys are made of are not. -/
def SplitKey (k : RealKind) (x y : BitVec (8 * k.valueBytes)) (padding padding' : Padding) :
    Prop :=
  IsZeroReal k x ∧ IsZeroReal k y ∧ x ≠ y ∨ TwinReals k x y ∨
    k = .longDouble ∧ x = y ∧ padding ≠ padding'

/-- **Real keys.** After an `Insert` under `x`, the calls under `y` act on the entry just written
exactly when `x == y`, unless `x` and `y` are zeros of opposite sign, a pseudo-denormal and its
normal twin, or copies of one `long double` with different padding. -/
theorem realKey_iff {hash : SharedString → UInt64} (m : HashMap hash) (k : RealKind)
    (x y : BitVec (8 * k.valueBytes)) (value : Arg) (s s' : Supply) {b : Bool}
    (hx : realValue k x ≠ .nan) (hy : realValue k y ≠ .nan)
    (h : (m.insert (.builtin (.value (.real k)) x) value s).2 = .ok b)
    (hgranted : s'.key.granted = true) :
    ((m.insert (.builtin (.value (.real k)) x) value s).1.ActsOn
        (serialize (.value (.real k)) x s.key.padding) (.builtin (.value (.real k)) y) s' ↔
      realEq k x y = true) ↔ ¬ SplitKey k x y s.key.padding s'.key.padding := by
  have hsame : serialize (.value (.real k)) y s'.key.padding
      = serialize (.value (.real k)) x s.key.padding ↔
      x = y ∧ (k = .longDouble → s.key.padding = s'.key.padding) := by
    rw [eq_comm, serialize_real_inj]
  rw [show serialize (.value (.real k)) x s.key.padding
      = Arg.bytes (.builtin (.value (.real k)) x) s.key.padding from rfl,
    HashMap.actsOn_insert_iff h hgranted _, realEq_iff hx hy, SplitKey]
  have htwins : TwinReals k x y → x ≠ y := TwinReals.ne
  exact (iff_congr (iff_congr hsame Iff.rfl) Iff.rfl).mpr (by tauto)

/-- The key `1.0f`, inserted and looked up. -/
theorem realKey_iff_one :
    ((emptyMap.insert (.builtin (.value (.real .float)) 0x3f800000) (.user []) .granting).1.ActsOn
        (serialize (.value (.real .float)) 0x3f800000 0)
        (.builtin (.value (.real .float)) 0x3f800000) .granting ↔
      realEq .float 0x3f800000 0x3f800000 = true) ↔
    ¬ SplitKey .float 0x3f800000 0x3f800000 0 0 :=
  realKey_iff emptyMap .float 0x3f800000 0x3f800000 (.user []) .granting .granting (b := true)
    (by decide) (by decide) rfl rfl

/-- The two zeros of type `float` are equal, but not as keys. -/
theorem not_realKey_zeros :
    ¬ ((emptyMap.insert (.builtin (.value (.real .float)) 0) (.user []) .granting).1.ActsOn
        (serialize (.value (.real .float)) 0 0)
        (.builtin (.value (.real .float)) 0x80000000) .granting ↔
      realEq .float 0 0x80000000 = true) := by
  intro hiff
  have hinsert : (emptyMap.insert (.builtin (.value (.real .float)) 0) (.user [])
      .granting).2 = .ok true := rfl
  have hgranted : Supply.granting.key.granted = true := rfl
  have hacts := (HashMap.actsOn_insert_iff hinsert hgranted _).mp (hiff.mpr (by decide))
  exact absurd hacts (by decide)

end Jakilid
