import Mathlib

/-!
# Fixed-width little-endian byte strings

The object representation of an unsigned quantity on a little-endian machine: `toBytes n v`
lists the `n` low bytes of `v`, least significant first, and `ofBytes` reads such a list
back. A quantity of a fixed width is a `BitVec (8 * n)`; `wordBytes` and `bytesWord` are the
two directions at that type, and `wordsBytes` / `bytesWords` do the same for an array of
words laid out one after the other.

Everything here is about lists of bytes only, so it can be used for any format that copies
machine words.
-/

namespace LittleEndian

/-- The `n` low bytes of `v`, least significant first. -/
def toBytes : ℕ → ℕ → List UInt8
  | 0, _ => []
  | n + 1, v => UInt8.ofNat v :: toBytes n (v / 256)

/-- The value a little-endian byte string denotes. -/
def ofBytes : List UInt8 → ℕ
  | [] => 0
  | b :: bs => b.toNat + 256 * ofBytes bs

@[simp] lemma length_toBytes (n v : ℕ) : (toBytes n v).length = n := by
  induction n generalizing v with
  | zero => rfl
  | succ n ih => rw [toBytes, List.length_cons, ih]

lemma ofBytes_toBytes (n v : ℕ) : ofBytes (toBytes n v) = v % 256 ^ n := by
  induction n generalizing v with
  | zero => simp [toBytes, ofBytes, Nat.mod_one]
  | succ n ih =>
    have h8 : (UInt8.ofNat v).toNat = v % 256 := UInt8.toNat_ofNat'
    rw [toBytes, ofBytes, ih, h8, pow_succ', Nat.mod_mul]

/-- A value that fits `n` bytes is exactly what its bytes denote. -/
lemma ofBytes_toBytes_of_lt {n v : ℕ} (h : v < 256 ^ n) : ofBytes (toBytes n v) = v := by
  rw [ofBytes_toBytes, Nat.mod_eq_of_lt h]

/-! ## Words -/

/-- The object representation of an `n`-byte word. -/
def wordBytes {n : ℕ} (w : BitVec (8 * n)) : List UInt8 :=
  toBytes n w.toNat

/-- The `n`-byte word a byte string denotes. -/
def bytesWord (n : ℕ) (bs : List UInt8) : BitVec (8 * n) :=
  BitVec.ofNat (8 * n) (ofBytes bs)

@[simp] lemma length_wordBytes {n : ℕ} (w : BitVec (8 * n)) : (wordBytes w).length = n :=
  length_toBytes n _

/-- A word reads back from its object representation. -/
@[simp] lemma bytesWord_wordBytes {n : ℕ} (w : BitVec (8 * n)) :
    bytesWord n (wordBytes w) = w := by
  have hlt : w.toNat < 256 ^ n := by
    have h256 : (256 : ℕ) ^ n = 2 ^ (8 * n) := by rw [pow_mul]; norm_num
    rw [h256]
    exact w.isLt
  rw [bytesWord, wordBytes, ofBytes_toBytes_of_lt hlt, BitVec.ofNat_toNat, BitVec.setWidth_eq]

lemma wordBytes_injective {n : ℕ} : Function.Injective (wordBytes (n := n)) :=
  Function.LeftInverse.injective bytesWord_wordBytes

/-! ## Arrays of words -/

/-- The words of an array, laid out one after the other. -/
def wordsBytes {n : ℕ} (ws : List (BitVec (8 * n))) : List UInt8 :=
  ws.flatMap wordBytes

/-- The first `count` words of `n` bytes of a byte string. -/
def bytesWords (n : ℕ) : ℕ → List UInt8 → List (BitVec (8 * n))
  | 0, _ => []
  | count + 1, bs => bytesWord n (bs.take n) :: bytesWords n count (bs.drop n)

@[simp] lemma wordsBytes_nil {n : ℕ} : wordsBytes ([] : List (BitVec (8 * n))) = [] := rfl

@[simp] lemma wordsBytes_cons {n : ℕ} (w : BitVec (8 * n)) (ws : List (BitVec (8 * n))) :
    wordsBytes (w :: ws) = wordBytes w ++ wordsBytes ws := rfl

@[simp] lemma length_wordsBytes {n : ℕ} (ws : List (BitVec (8 * n))) :
    (wordsBytes ws).length = ws.length * n := by
  induction ws with
  | nil => simp
  | cons w ws ih =>
    rw [wordsBytes_cons, List.length_append, ih, length_wordBytes, List.length_cons]
    ring

/-- Cutting a layout at a word boundary cuts the array. -/
lemma take_wordsBytes {n : ℕ} (ws : List (BitVec (8 * n))) (count : ℕ) :
    (wordsBytes ws).take (count * n) = wordsBytes (ws.take count) := by
  induction ws generalizing count with
  | nil => simp
  | cons w ws ih =>
    cases count with
    | zero => simp
    | succ count =>
      have hlen : (wordBytes w).length = n := length_wordBytes w
      have hcut : (count + 1) * n - n = count * n := by rw [Nat.succ_mul, Nat.add_sub_cancel]
      rw [wordsBytes_cons, List.take_append, hlen, List.take_succ_cons, wordsBytes_cons, hcut,
        ih, List.take_of_length_le (by rw [hlen, Nat.succ_mul]; omega)]

/-- An array of words reads back from its layout. -/
@[simp] lemma bytesWords_wordsBytes {n : ℕ} (ws : List (BitVec (8 * n))) :
    bytesWords n ws.length (wordsBytes ws) = ws := by
  induction ws with
  | nil => rfl
  | cons w ws ih =>
    have hlen : (wordBytes w).length = n := length_wordBytes w
    rw [wordsBytes_cons, List.length_cons, bytesWords, List.take_left' hlen,
      List.drop_left' hlen, bytesWord_wordBytes, ih]

/-- The layout of an array of non-empty words determines the array. -/
lemma wordsBytes_injective {n : ℕ} (hn : 0 < n) : Function.Injective (wordsBytes (n := n)) := by
  intro ws ws' h
  have hlen : ws.length * n = ws'.length * n := by
    rw [← length_wordsBytes, h, length_wordsBytes]
  have hcount : ws.length = ws'.length := Nat.eq_of_mul_eq_mul_right hn hlen
  rw [← bytesWords_wordsBytes ws, h, hcount, bytesWords_wordsBytes]

end LittleEndian
