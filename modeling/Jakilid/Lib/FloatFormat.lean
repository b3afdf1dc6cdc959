import Mathlib

/-!
# Comparing floating-point numbers by their encodings

The binary formats as words, that is, natural numbers below `2 ^ (1 + w + p)` with a sign bit,
`w` exponent bits and `p` further bits: the IEEE 754 interchange formats, whose integer bit is
implied by the exponent, and the x87 extended format, which stores it and has words for which
it contradicts the exponent.

A finite number is given by its value in units of the smallest positive one, an integer, so
that equality of numbers is exact. The results say which words are equal as numbers without
being equal as words: zeros of opposite sign (`eq_interchange_iff`), and in the extended format
also a pseudo-denormal and the normal number with its significand (`eq_extended_iff`).
-/

namespace FloatFormat

/-- What a word stands for. A word that is no number compares as unordered. -/
inductive Value
  | nan
  | infinite (negative : Bool)
  | finite (units : ℤ)
deriving DecidableEq, Repr

/-- `==` -/
def Value.eq : Value → Value → Bool
  | .infinite s, .infinite s' => s = s'
  | .finite a, .finite b => a = b
  | _, _ => false

/-! ## Fields -/

/-- The bits below the exponent. -/
def lowBits (p word : ℕ) : ℕ := word % 2 ^ p

def exponent (p w word : ℕ) : ℕ := word / 2 ^ p % 2 ^ w

def negative (p w word : ℕ) : Bool := decide (2 ^ (p + w) ≤ word)

/-- The number with an exponent field and a significand, in units of the smallest one: the
exponents zero and one have the same scale. -/
def scaled (negative : Bool) (exponent significand : ℕ) : ℤ :=
  (if negative then -1 else 1) * (significand * 2 ^ (exponent - 1) : ℕ)

/-- A word of an IEEE 754 interchange format. -/
def interchange (p w word : ℕ) : Value :=
  let e := exponent p w word
  if e = 2 ^ w - 1 then
    if lowBits p word = 0 then .infinite (negative p w word) else .nan
  else
    .finite (scaled (negative p w word) e
      (if e = 0 then lowBits p word else 2 ^ p + lowBits p word))

/-- A word of the x87 extended format, whose integer bit is the topmost of its `p` low bits.
With a positive exponent it has to be set. -/
def extended (p w word : ℕ) : Value :=
  let e := exponent p w word
  if e = 0 then .finite (scaled (negative p w word) e (lowBits p word))
  else if lowBits p word < 2 ^ (p - 1) then .nan
  else if e = 2 ^ w - 1 then
    if lowBits p word = 2 ^ (p - 1) then .infinite (negative p w word) else .nan
  else .finite (scaled (negative p w word) e (lowBits p word))

section Fields

variable {p w x y : ℕ}

lemma lowBits_lt (p word : ℕ) : lowBits p word < 2 ^ p := Nat.mod_lt _ (Nat.two_pow_pos p)

/-- A word is its three fields. -/
lemma eq_of_fields (hx : x < 2 ^ (p + w + 1)) (hy : y < 2 ^ (p + w + 1))
    (hs : negative p w x = negative p w y) (he : exponent p w x = exponent p w y)
    (hl : lowBits p x = lowBits p y) : x = y := by
  have hsplit : ∀ z, z = (2 ^ w * (z / 2 ^ (p + w)) + exponent p w z) * 2 ^ p + lowBits p z := by
    intro z
    have hhigh : z / 2 ^ p = 2 ^ w * (z / 2 ^ (p + w)) + exponent p w z := by
      rw [exponent, pow_add, ← Nat.div_div_eq_div_mul]
      exact (Nat.div_add_mod _ _).symm
    rw [← hhigh, lowBits, Nat.mul_comm]
    exact (Nat.div_add_mod z (2 ^ p)).symm
  have htop : ∀ z, z < 2 ^ (p + w + 1) → z / 2 ^ (p + w) = if negative p w z then 1 else 0 := by
    intro z hz
    rw [pow_succ] at hz
    rw [negative]
    by_cases h : 2 ^ (p + w) ≤ z
    · rw [if_pos (decide_eq_true h)]
      exact Nat.div_eq_of_lt_le (by omega) (by omega)
    · rw [if_neg (by simpa using h)]
      exact Nat.div_eq_of_lt (by omega)
  rw [hsplit x, hsplit y, htop x hx, htop y hy, hs, he, hl]

end Fields

/-! ## Numbers -/

/-- Significands of `q` bits, with their top bit set unless at the smallest scale, are equal as
numbers only if they are equal. -/
lemma eq_of_mul_two_pow {q m m' d d' : ℕ} (hm : m < 2 ^ q) (hm' : m' < 2 ^ q)
    (htop : 0 < d → 2 ^ q ≤ 2 * m) (htop' : 0 < d' → 2 ^ q ≤ 2 * m')
    (h : m * 2 ^ d = m' * 2 ^ d') : d = d' ∧ m = m' := by
  have hlt : ∀ {m m' d d' : ℕ}, m < 2 ^ q → (0 < d' → 2 ^ q ≤ 2 * m') → d < d' →
      m * 2 ^ d < m' * 2 ^ d' := by
    intro m m' d d' hm htop' hd
    have hscale : 2 * 2 ^ d ≤ 2 ^ d' := by
      rw [← pow_succ']
      exact Nat.pow_le_pow_right (by decide) hd
    calc m * 2 ^ d < 2 ^ q * 2 ^ d := Nat.mul_lt_mul_of_pos_right hm (Nat.two_pow_pos d)
      _ ≤ 2 * m' * 2 ^ d := Nat.mul_le_mul_right _ (htop' (by omega))
      _ = m' * (2 * 2 ^ d) := by ring
      _ ≤ m' * 2 ^ d' := Nat.mul_le_mul_left _ hscale
  rcases Nat.lt_trichotomy d d' with hd | rfl | hd
  · exact absurd h (hlt hm htop' hd).ne
  · exact ⟨rfl, Nat.eq_of_mul_eq_mul_right (Nat.two_pow_pos d) h⟩
  · exact absurd h (hlt hm' htop hd).ne'

/-- Numbers of equal value have the same sign, unless they are zero, and the same magnitude. -/
lemma scaled_eq_iff {s s' : Bool} {e e' m m' : ℕ} :
    scaled s e m = scaled s' e' m' ↔
      m * 2 ^ (e - 1) = m' * 2 ^ (e' - 1) ∧ (s = s' ∨ m = 0) := by
  have hsigned : ∀ a b : ℕ, (if s then (-1 : ℤ) else 1) * a = (if s' then (-1 : ℤ) else 1) * b ↔
      a = b ∧ (s = s' ∨ a = 0) := by
    intro a b
    cases s <;> cases s' <;> simp <;> omega
  have hzero : m * 2 ^ (e - 1) = 0 ↔ m = 0 := by
    rw [Nat.mul_eq_zero, or_iff_left (Nat.two_pow_pos _).ne']
  rw [scaled, scaled, hsigned, hzero]

/-- A zero of either sign. -/
def IsZero (p w word : ℕ) : Prop := exponent p w word = 0 ∧ lowBits p word = 0

section Interchange

variable {p w x y : ℕ}

lemma interchange_of_isZero (hw : 0 < w) (h : IsZero p w x) :
    interchange p w x = .finite 0 := by
  have hones : (0 : ℕ) ≠ 2 ^ w - 1 := by
    have := Nat.one_lt_two_pow hw.ne'
    omega
  simp [interchange, h.1, h.2, hones, scaled]

/-- The significand of a finite word of an interchange format. -/
def significand (p w word : ℕ) : ℕ :=
  if exponent p w word = 0 then lowBits p word else 2 ^ p + lowBits p word

lemma significand_lt : significand p w x < 2 ^ (p + 1) := by
  have := lowBits_lt p x
  rw [significand, pow_succ]
  split <;> omega

/-- Equal significands at equal scales come of equal fields. -/
lemma fields_of_significand (hscale : exponent p w x - 1 = exponent p w y - 1)
    (h : significand p w x = significand p w y) :
    exponent p w x = exponent p w y ∧ lowBits p x = lowBits p y := by
  have hx := lowBits_lt p x
  have hy := lowBits_lt p y
  rw [significand, significand] at h
  split at h <;> split at h <;> omega

/-- **Interchange formats.** Two numbers are equal when their words are, or when both are
zero. -/
theorem eq_interchange_iff (hw : 0 < w) (hx : x < 2 ^ (p + w + 1)) (hy : y < 2 ^ (p + w + 1))
    (hnx : interchange p w x ≠ .nan) (hny : interchange p w y ≠ .nan) :
    (interchange p w x).eq (interchange p w y) = true ↔
      x = y ∨ IsZero p w x ∧ IsZero p w y := by
  constructor
  · intro heq
    by_cases ex : exponent p w x = 2 ^ w - 1 <;> by_cases ey : exponent p w y = 2 ^ w - 1
    · -- two infinities
      by_cases lx : lowBits p x = 0 <;> by_cases ly : lowBits p y = 0 <;>
        simp only [interchange, ex, ey, lx, ly, if_true, if_false, ne_eq, not_true] at hnx hny heq
      have hs : negative p w x = negative p w y := by simpa [Value.eq] using heq
      exact .inl (eq_of_fields hx hy hs (ex.trans ey.symm) (lx.trans ly.symm))
    · by_cases lx : lowBits p x = 0 <;> simp [interchange, ex, ey, lx, Value.eq] at heq
    · by_cases ly : lowBits p y = 0 <;> simp [interchange, ex, ey, ly, Value.eq] at heq
    · have hscaled : scaled (negative p w x) (exponent p w x) (significand p w x)
          = scaled (negative p w y) (exponent p w y) (significand p w y) := by
        simpa [interchange, ex, ey, Value.eq, significand] using heq
      obtain ⟨hmag, hsign⟩ := scaled_eq_iff.mp hscaled
      have htop : ∀ z, 0 < exponent p w z - 1 → 2 ^ (p + 1) ≤ 2 * significand p w z := by
        intro z hz
        rw [significand, if_neg (by omega), pow_succ]
        omega
      obtain ⟨hd, hm⟩ := eq_of_mul_two_pow significand_lt significand_lt (htop x) (htop y) hmag
      obtain ⟨he, hl⟩ := fields_of_significand hd hm
      rcases hsign with hs | hzero
      · exact .inl (eq_of_fields hx hy hs he hl)
      · refine .inr ?_
        have hpow := Nat.two_pow_pos p
        rw [significand] at hzero
        split at hzero
        · next he0 => exact ⟨⟨he0, hzero⟩, he ▸ he0, hl ▸ hzero⟩
        · omega
  · rintro (rfl | ⟨hzx, hzy⟩)
    · cases hv : interchange p w x with
      | nan => exact absurd hv hnx
      | infinite s => simp [Value.eq]
      | finite a => simp [Value.eq]
    · rw [interchange_of_isZero hw hzx, interchange_of_isZero hw hzy]
      rfl

end Interchange

section Extended

variable {p w x y : ℕ}

/-- A pseudo-denormal and the normal number it is equal to: the same significand, once with
the exponent zero and once with the exponent one. -/
def Twins (p w x y : ℕ) : Prop :=
  negative p w x = negative p w y ∧ lowBits p x = lowBits p y ∧
    (exponent p w x = 0 ∧ exponent p w y = 1 ∨ exponent p w x = 1 ∧ exponent p w y = 0)

/-- A finite word of the extended format. -/
def IsFinite (p w word : ℕ) : Prop :=
  exponent p w word = 0 ∨ 2 ^ (p - 1) ≤ lowBits p word ∧ exponent p w word ≠ 2 ^ w - 1

lemma extended_of_isFinite (h : IsFinite p w x) :
    extended p w x = .finite (scaled (negative p w x) (exponent p w x) (lowBits p x)) := by
  rw [extended]
  by_cases he : exponent p w x = 0
  · simp [he]
  · obtain ⟨hl, hones⟩ := h.resolve_left he
    simp [he, Nat.not_lt.mpr hl, hones]

/-- A word that is neither finite nor no number is an infinity. -/
lemma extended_of_not_isFinite (h : ¬ IsFinite p w x) (hnan : extended p w x ≠ .nan) :
    exponent p w x = 2 ^ w - 1 ∧ lowBits p x = 2 ^ (p - 1) ∧
      extended p w x = .infinite (negative p w x) := by
  rw [IsFinite, not_or, not_and_or, not_le, not_not] at h
  rw [extended] at hnan ⊢
  simp only [if_neg h.1] at hnan ⊢
  by_cases hl : lowBits p x < 2 ^ (p - 1)
  · exact absurd (if_pos hl) hnan
  · have hones := h.2.resolve_left hl
    simp only [if_neg hl, if_pos hones] at hnan ⊢
    by_cases hinf : lowBits p x = 2 ^ (p - 1)
    · exact ⟨hones, hinf, if_pos hinf⟩
    · exact absurd (if_neg hinf) hnan

/-- Two finite words of the extended format. -/
lemma eq_scaled_iff (hp : 0 < p) (hx : x < 2 ^ (p + w + 1)) (hy : y < 2 ^ (p + w + 1))
    (hfx : IsFinite p w x) (hfy : IsFinite p w y) :
    scaled (negative p w x) (exponent p w x) (lowBits p x)
        = scaled (negative p w y) (exponent p w y) (lowBits p y) ↔
      x = y ∨ IsZero p w x ∧ IsZero p w y ∨ Twins p w x y := by
  have hhalf : 2 ^ p = 2 * 2 ^ (p - 1) := by
    rw [← pow_succ', Nat.sub_add_cancel hp]
  have hpow := Nat.two_pow_pos (p - 1)
  rw [scaled_eq_iff]
  constructor
  · rintro ⟨hmag, hsign⟩
    have htop : ∀ z, IsFinite p w z → 0 < exponent p w z - 1 → 2 ^ p ≤ 2 * lowBits p z := by
      intro z hz hpos
      rcases hz with hz | ⟨hz, -⟩ <;> omega
    obtain ⟨hd, hm⟩ :=
      eq_of_mul_two_pow (lowBits_lt p x) (lowBits_lt p y) (htop x hfx) (htop y hfy) hmag
    by_cases he : exponent p w x = exponent p w y
    · rcases hsign with hs | hzero
      · exact .inl (eq_of_fields hx hy hs he hm)
      · have he0 : exponent p w x = 0 := hfx.resolve_right fun h => by omega
        exact .inr (.inl ⟨⟨he0, hzero⟩, he ▸ he0, hm ▸ hzero⟩)
    · -- exponents zero and one, so that the significand has its integer bit
      have hnz : lowBits p x ≠ 0 := by
        rcases hfx with hfx | ⟨hfx, -⟩ <;> rcases hfy with hfy | ⟨hfy, -⟩ <;> omega
      exact .inr (.inr ⟨hsign.resolve_right hnz, hm, by omega⟩)
  · rintro (rfl | ⟨⟨hex, hlx⟩, hey, hly⟩ | ⟨hs, hl, he⟩)
    · exact ⟨rfl, .inl rfl⟩
    · rw [hlx, hly]
      exact ⟨by rw [Nat.zero_mul, Nat.zero_mul], .inr rfl⟩
    · refine ⟨?_, .inl hs⟩
      rw [hl]
      rcases he with ⟨hex, hey⟩ | ⟨hex, hey⟩ <;> rw [hex, hey]

/-- The exceptions do not concern words with the largest exponent. -/
lemma eq_or_iff_of_ones (hw : 1 < w)
    (h : exponent p w x = 2 ^ w - 1 ∨ exponent p w y = 2 ^ w - 1) :
    x = y ∨ IsZero p w x ∧ IsZero p w y ∨ Twins p w x y ↔ x = y := by
  have hpow : 2 ^ 2 ≤ 2 ^ w := Nat.pow_le_pow_right (by decide) hw
  refine or_iff_left ?_
  rintro (⟨⟨hex, -⟩, hey, -⟩ | ⟨-, -, ⟨hex, hey⟩ | ⟨hex, hey⟩⟩) <;> omega

/-- **The extended format.** Two numbers are equal when their words are, when both are zero, or
when one is a pseudo-denormal and the other the normal number with its significand. -/
theorem eq_extended_iff (hp : 0 < p) (hw : 1 < w) (hx : x < 2 ^ (p + w + 1))
    (hy : y < 2 ^ (p + w + 1)) (hnx : extended p w x ≠ .nan) (hny : extended p w y ≠ .nan) :
    (extended p w x).eq (extended p w y) = true ↔
      x = y ∨ IsZero p w x ∧ IsZero p w y ∨ Twins p w x y := by
  by_cases hfx : IsFinite p w x <;> by_cases hfy : IsFinite p w y
  · rw [extended_of_isFinite hfx, extended_of_isFinite hfy, ← eq_scaled_iff hp hx hy hfx hfy]
    simp [Value.eq]
  · obtain ⟨hones, -, hinf⟩ := extended_of_not_isFinite hfy hny
    rw [extended_of_isFinite hfx, hinf, eq_or_iff_of_ones hw (.inr hones)]
    exact ⟨nofun, fun h => absurd (h ▸ hfx) hfy⟩
  · obtain ⟨hones, -, hinf⟩ := extended_of_not_isFinite hfx hnx
    rw [extended_of_isFinite hfy, hinf, eq_or_iff_of_ones hw (.inl hones)]
    exact ⟨nofun, fun h => absurd (h ▸ hfy) hfx⟩
  · obtain ⟨hex, hlx, hinfx⟩ := extended_of_not_isFinite hfx hnx
    obtain ⟨hey, hly, hinfy⟩ := extended_of_not_isFinite hfy hny
    rw [hinfx, hinfy, eq_or_iff_of_ones hw (.inl hex)]
    constructor
    · intro h
      have hs : negative p w x = negative p w y := by simpa [Value.eq] using h
      exact eq_of_fields hx hy hs (hex.trans hey.symm) (hlx.trans hly.symm)
    · rintro rfl
      simp [Value.eq]

end Extended

end FloatFormat
