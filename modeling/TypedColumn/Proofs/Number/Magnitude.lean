import Mathlib
import TypedColumn.Number.Decimal

namespace TypedColumn.Precision

variable {p : Precision} {x y : p.Bits}

def signBit (p : Precision) : Nat := 2 ^ (p.exponentBits + p.fractionBits)

def unsigned (x : p.Bits) : Nat := x.toNat % p.signBit

def infinity (p : Precision) : Nat := p.topExponent * 2 ^ p.fractionBits

def steps (x : p.Bits) : Nat := significand x * 2 ^ (max (exponent x) 1 - 1)

def value (x : p.Bits) : EInt :=
  if negative x then
    if exponent x = p.topExponent then ⊥ else ((-magnitude x : Int) : EInt)
  else
    if exponent x = p.topExponent then ⊤ else ((magnitude x : Int) : EInt)

theorem two_pow_bytes_eq (p : Precision) : 2 ^ (8 * p.bytes) = 2 * p.signBit := by
  cases p <;> rfl

theorem negative_iff (x : p.Bits) : negative x ↔ p.signBit ≤ x.toNat := by
  have half : 2 ^ (8 * p.bytes - 1) = p.signBit := by cases p <;> rfl
  rw [negative, BitVec.msb_eq_decide, half, decide_eq_true_iff]

theorem unsigned_lt (x : p.Bits) : unsigned x < p.signBit := Nat.mod_lt _ (Nat.two_pow_pos _)

theorem toNat_of_clear (h : negative x = false) : x.toNat = unsigned x := by
  have small : ¬ p.signBit ≤ x.toNat := by
    rw [← negative_iff, h]
    exact Bool.false_ne_true
  exact (Nat.mod_eq_of_lt (Nat.lt_of_not_le small)).symm

theorem toNat_of_set (h : negative x) : x.toNat = p.signBit + unsigned x := by
  have large := (negative_iff x).1 h
  have bound := x.isLt
  rw [two_pow_bytes_eq] at bound
  rw [unsigned, Nat.mod_eq_sub_mod large, Nat.mod_eq_of_lt (by omega)]
  omega

theorem fraction_lt (x : p.Bits) : fraction x < 2 ^ p.fractionBits :=
  Nat.mod_lt _ (Nat.two_pow_pos _)

theorem exponent_eq (x : p.Bits) : exponent x = unsigned x / 2 ^ p.fractionBits := by
  rw [exponent, unsigned, signBit, Nat.add_comm, Nat.pow_add, Nat.mod_mul_right_div_self]

theorem fraction_eq (x : p.Bits) : fraction x = unsigned x % 2 ^ p.fractionBits := by
  rw [fraction, unsigned, signBit, Nat.add_comm, Nat.pow_add, Nat.mod_mul_right_mod]

theorem unsigned_eq (x : p.Bits) :
    unsigned x = exponent x * 2 ^ p.fractionBits + fraction x := by
  rw [exponent_eq, fraction_eq, Nat.div_add_mod']

theorem exponent_le_top (x : p.Bits) : exponent x ≤ p.topExponent :=
  Nat.le_pred_of_lt (Nat.mod_lt _ (Nat.two_pow_pos _))

theorem exponent_eq_top_iff : exponent x = p.topExponent ↔ p.infinity ≤ unsigned x := by
  rw [infinity, ← Nat.le_div_iff_mul_le (Nat.two_pow_pos _), ← exponent_eq]
  exact ⟨Nat.le_of_eq ∘ Eq.symm, Nat.le_antisymm (exponent_le_top x)⟩

theorem isNaN_iff : isNaN x ↔ p.infinity < unsigned x := by
  have parts := unsigned_eq x
  rw [isNaN, Bool.and_eq_true, beq_iff_eq, bne_iff_ne]
  constructor
  · rintro ⟨top, rest⟩
    rw [top, ← infinity] at parts
    omega
  · intro above
    have top := exponent_eq_top_iff.2 (Nat.le_of_lt above)
    rw [top, ← infinity] at parts
    exact ⟨top, by omega⟩

theorem unsigned_le_infinity (h : isNaN x = false) : unsigned x ≤ p.infinity := by
  rw [← Nat.not_lt, ← isNaN_iff, h]
  exact Bool.false_ne_true

theorem unsigned_of_isNaN (h : isNaN x) : unsigned x = p.infinity + fraction x := by
  rw [unsigned_eq, exponent_eq_top_iff.2 (isNaN_iff.1 h).le, infinity]

theorem unsigned_lt_of_isNaN (hx : isNaN x = false) (hy : isNaN y) : unsigned x < unsigned y :=
  (unsigned_le_infinity hx).trans_lt (isNaN_iff.1 hy)

theorem magnitude_eq (x : p.Bits) : magnitude x = 4 * 5 ^ p.places * steps x := by
  rw [magnitude, quarter, steps]
  ac_rfl

theorem steps_lt (x : p.Bits) : steps x < 2 ^ p.fractionBits * 2 ^ exponent x := by
  have below := fraction_lt x
  rw [steps, significand]
  -- The exponents zero and one have the same step; only the latter has the added bit.
  split
  next zero => simpa [zero] using below
  next positive =>
    have next : exponent x = (max (exponent x) 1 - 1) + 1 := by omega
    calc
      (2 ^ p.fractionBits + fraction x) * 2 ^ (max (exponent x) 1 - 1)
        < (2 ^ p.fractionBits * 2) * 2 ^ (max (exponent x) 1 - 1) :=
          Nat.mul_lt_mul_of_pos_right (by omega) (Nat.two_pow_pos _)
      _ = 2 ^ p.fractionBits * 2 ^ ((max (exponent x) 1 - 1) + 1) := by
          rw [Nat.mul_assoc, Nat.pow_succ']
      _ = 2 ^ p.fractionBits * 2 ^ exponent x := by rw [← next]

theorem le_steps (h : 0 < exponent x) :
    2 ^ p.fractionBits * 2 ^ (exponent x - 1) ≤ steps x := by
  rw [steps, significand, if_neg (Nat.ne_of_gt h), Nat.max_eq_left h]
  exact Nat.mul_le_mul_right _ (Nat.le_add_right _ _)

theorem steps_lt_steps (h : unsigned x < unsigned y) : steps x < steps y := by
  have exponents : exponent x ≤ exponent y := by
    rw [exponent_eq, exponent_eq]
    exact Nat.div_le_div_right (Nat.le_of_lt h)
  rcases Nat.lt_or_eq_of_le exponents with lower | same
  · calc
      steps x < 2 ^ p.fractionBits * 2 ^ exponent x := steps_lt x
      _ ≤ 2 ^ p.fractionBits * 2 ^ (exponent y - 1) :=
        Nat.mul_le_mul_left _ (Nat.pow_le_pow_right Nat.two_pos (Nat.le_pred_of_lt lower))
      _ ≤ steps y := le_steps (Nat.zero_lt_of_lt lower)
  · have fractions : fraction x < fraction y := by
      rw [unsigned_eq, unsigned_eq y, same] at h
      exact Nat.lt_of_add_lt_add_left h
    have significands : significand x < significand y := by
      rw [significand, significand, same]
      split
      · exact fractions
      · exact Nat.add_lt_add_left fractions _
    rw [steps, steps, same]
    exact Nat.mul_lt_mul_of_pos_right significands (Nat.two_pow_pos _)

theorem magnitude_lt_magnitude (h : unsigned x < unsigned y) : magnitude x < magnitude y := by
  rw [magnitude_eq, magnitude_eq]
  exact Nat.mul_lt_mul_of_pos_left (steps_lt_steps h)
    (Nat.mul_pos (by decide) (Nat.pow_pos (by decide)))

section Value

theorem value_of_set (h : negative x) :
    value x = if exponent x = p.topExponent then ⊥ else ((-magnitude x : Int) : EInt) :=
  if_pos h

theorem value_of_clear (h : negative x = false) :
    value x = if exponent x = p.topExponent then ⊤ else ((magnitude x : Int) : EInt) :=
  if_neg (Bool.eq_false_iff.1 h)

theorem exponent_ne_top_of_lt (hy : isNaN y = false) (h : unsigned x < unsigned y) :
    exponent x ≠ p.topExponent := by
  rw [Ne, exponent_eq_top_iff, Nat.not_le]
  exact Nat.lt_of_lt_of_le h (unsigned_le_infinity hy)

theorem value_lt_of_clear (hx : negative x = false) (hy : negative y = false)
    (num : isNaN y = false) (h : unsigned x < unsigned y) : value x < value y := by
  rw [value_of_clear hx, value_of_clear hy, if_neg (exponent_ne_top_of_lt num h)]
  split
  · exact WithBot.coe_lt_coe.2 (WithTop.coe_lt_top _)
  · exact WithBotTop.coe_lt_coe.2 (Int.ofNat_lt.2 (magnitude_lt_magnitude h))

theorem value_lt_of_set (hx : negative x) (hy : negative y) (num : isNaN x = false)
    (h : unsigned y < unsigned x) : value x < value y := by
  rw [value_of_set hx, value_of_set hy, if_neg (exponent_ne_top_of_lt num h)]
  split
  · exact WithBot.bot_lt_coe _
  · exact WithBotTop.coe_lt_coe.2 (Int.neg_lt_neg (Int.ofNat_lt.2 (magnitude_lt_magnitude h)))

theorem value_le_of_signs (hx : negative x) (hy : negative y = false) : value x ≤ value y := by
  rw [value_of_set hx, value_of_clear hy]
  split
  · exact bot_le
  · split
    · exact le_top
    · exact WithBotTop.coe_le_coe.2 (by omega)

end Value

end TypedColumn.Precision
