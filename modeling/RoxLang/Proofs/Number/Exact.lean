/-
# `RoxLang.Proofs.Number.Exact` — what is exact is not rounded

`ofRatio` scales a quotient to a significand of at most 53 bits, rounds that, and adds the scale to
the exponent field.  When the quotient is the size of a finite number, nothing is lost on the way:
the scale is the number's own exponent, less the one that subnormal numbers share with the least
normal ones, the significand is a whole number before it is rounded, and scale and significand add
up to the word.

`units` is where this starts.  It tells the two cases of the format apart, with and without the
leading bit, and `units_eq` says of both at once that the units are a significand times a power of
two, with the exponent that `ofRatio` is going to compute.
-/
import Mathlib.Algebra.Group.Nat.Defs
import RoxLang.Number.Basic

namespace RoxLang.Number

/-- A number that is neither an infinity nor a NaN. -/
def IsFinite (x : Number) : Prop := x.magnitude < infinityWord

instance (x : Number) : Decidable x.IsFinite := inferInstanceAs (Decidable (_ < _))

theorem isFinite_iff (x : Number) :
    x.IsFinite ↔ x.isNaN = false ∧ x.isInfinite = false := by
  constructor
  · intro h
    exact ⟨decide_eq_false (Nat.lt_asymm h), decide_eq_false (Nat.ne_of_lt h)⟩
  · rintro ⟨hnan, hinf⟩
    have hle : x.magnitude ≤ infinityWord := Nat.not_lt.mp (of_decide_eq_false hnan)
    exact Nat.lt_of_le_of_ne hle (of_decide_eq_false hinf)

/-! ## Sign and magnitude -/

theorem magnitude_lt (x : Number) : x.magnitude < signWeight :=
  Nat.mod_lt _ (by decide)

theorem toNat_bits_of_nonnegative {x : Number} (h : x.isNegative = false) :
    x.bits.toNat = x.magnitude :=
  (Nat.mod_eq_of_lt (Nat.not_le.mp (of_decide_eq_false h))).symm

theorem toNat_bits_of_negative {x : Number} (h : x.isNegative = true) :
    x.bits.toNat = x.magnitude + signWeight := by
  have hle : signWeight ≤ x.bits.toNat := of_decide_eq_true h
  have hlt : x.bits.toNat < signWeight + signWeight := x.bits.toNat_lt
  rw [magnitude, Nat.mod_eq_sub_mod hle, Nat.mod_eq_of_lt (Nat.sub_lt_left_of_lt_add hle hlt)]
  exact (Nat.sub_add_cancel hle).symm

theorem eq_of_toNat_bits {x y : Number} (h : x.bits.toNat = y.bits.toNat) : x = y := by
  cases x
  cases y
  exact congrArg Number.mk (UInt64.toNat_inj.mp h)

theorem toNat_bits_ofWord {word : Nat} (h : word < signWeight) :
    (ofWord word).bits.toNat = word :=
  UInt64.toNat_ofNat_of_lt' (Nat.lt_trans h (by decide))

/-- A number without its sign. -/
theorem ofWord_magnitude {x : Number} (h : x.isNegative = false) : ofWord x.magnitude = x :=
  eq_of_toNat_bits ((toNat_bits_ofWord x.magnitude_lt).trans (toNat_bits_of_nonnegative h).symm)

/-- A bit above all others of a number is added by flipping it. -/
theorem xor_two_pow {m k : Nat} (h : m < 2 ^ k) : m ^^^ 2 ^ k = m + 2 ^ k := by
  rw [Nat.add_comm]
  refine Nat.eq_of_testBit_eq fun i => ?_
  rw [Nat.testBit_xor, Nat.testBit_two_pow]
  rcases Nat.lt_trichotomy i k with hi | rfl | hi
  · rw [Nat.testBit_two_pow_add_gt hi, decide_eq_false (Nat.ne_of_gt hi), Bool.xor_false]
  · rw [Nat.testBit_two_pow_add_eq, decide_eq_true rfl, Bool.xor_true]
  · have hpow : 2 ^ (k + 1) ≤ 2 ^ i := Nat.pow_le_pow_right (Nat.succ_pos 1) hi
    have hsum : 2 ^ k + m < 2 ^ i := by
      rw [Nat.pow_succ] at hpow
      omega
    have hm : m < 2 ^ i := Nat.lt_of_le_of_lt (Nat.le_add_left m _) hsum
    rw [Nat.testBit_lt_two_pow hsum, Nat.testBit_lt_two_pow hm, decide_eq_false (Nat.ne_of_lt hi),
      Bool.xor_false]

/-- The sign flipped back on. -/
theorem neg_ofWord_magnitude {x : Number} (h : x.isNegative = true) : -ofWord x.magnitude = x := by
  refine eq_of_toNat_bits ?_
  have hneg : (-ofWord x.magnitude).bits = (ofWord x.magnitude).bits ^^^ UInt64.ofNat signWeight :=
    rfl
  have hsign : (UInt64.ofNat signWeight).toNat = 2 ^ 63 := rfl
  rw [toNat_bits_of_negative h, hneg, UInt64.toNat_xor, toNat_bits_ofWord x.magnitude_lt, hsign]
  exact xor_two_pow x.magnitude_lt

/-! ## Rounding what is exact -/

theorem roundHalfEven_mul (n : Nat) {den : Nat} (hden : 0 < den) :
    roundHalfEven (n * den) den = n := by
  simp only [roundHalfEven, Nat.mul_mod_left, Nat.mul_zero, hden, if_true,
    Nat.mul_div_cancel n hden]

/-- The units of a number are a significand of at most 53 bits times a power of two.  The power is
what rounding shifts by, and together they are the magnitude. -/
theorem units_eq (x : Number) : ∃ significand shift : Nat,
    x.units = significand * 2 ^ shift ∧ x.units.log2 - 52 = shift ∧
      shift * exponentWeight + significand = x.magnitude := by
  have hweight : exponentWeight = 2 ^ 52 := rfl
  have hfraction : x.magnitude % exponentWeight < 2 ^ 52 := Nat.mod_lt _ (by decide)
  have hsplit := Nat.div_add_mod' x.magnitude exponentWeight
  cases hexponent : x.magnitude / exponentWeight with
  | zero =>
      -- a subnormal number, which is its fraction
      have hunits : x.units = x.magnitude % exponentWeight := by
        simp only [units, hexponent, if_true]
      refine ⟨x.units, 0, (Nat.mul_one _).symm, ?_, ?_⟩
      · rw [hunits]
        by_cases hzero : x.magnitude % exponentWeight = 0
        · rw [hzero]
          rfl
        · exact Nat.sub_eq_zero_of_le (Nat.le_of_lt ((Nat.log2_lt hzero).mpr hfraction))
      · rw [hunits, ← hsplit, hexponent]
        simp
  | succ exponent =>
      have hunits : x.units
          = (exponentWeight + x.magnitude % exponentWeight) * 2 ^ exponent := by
        simp only [units, hexponent, Nat.succ_ne_zero, if_false, Nat.add_sub_cancel]
        rfl
      refine ⟨exponentWeight + x.magnitude % exponentWeight, exponent, hunits, ?_, ?_⟩
      · have hlog : x.units.log2 = 52 + exponent := by
          have hpos : 0 < x.units := by
            rw [hunits]
            exact Nat.mul_pos (Nat.add_pos_left (by decide) _) (Nat.two_pow_pos exponent)
          refine (Nat.log2_eq_iff (Nat.ne_of_gt hpos)).mpr ?_
          rw [hunits, hweight, Nat.pow_add, Nat.add_right_comm, Nat.pow_add]
          constructor
          · exact Nat.mul_le_mul_right _ (Nat.le_add_right _ _)
          · refine Nat.mul_lt_mul_of_pos_right ?_ (Nat.two_pow_pos exponent)
            omega
        rw [hlog, Nat.add_sub_cancel_left]
      · rw [← Nat.add_assoc, ← Nat.succ_mul, ← hsplit, hexponent]
        simp

/-- A quotient that is the size of a finite number is rounded to that number. -/
theorem ofRatio_of_exact {x : Number} (hx : x.IsFinite) {num den : Nat} (hden : 0 < den)
    (h : num * unitsPerOne = x.units * den) : ofRatio num den = ofWord x.magnitude := by
  obtain ⟨significand, shift, hunits, hshift, hword⟩ := x.units_eq
  have hpow : Nat.pow 2 shift = 2 ^ shift := rfl
  have hscale : 0 < den * 2 ^ shift := Nat.mul_pos hden (Nat.two_pow_pos shift)
  have hscaled : x.units * den = significand * (den * 2 ^ shift) := by
    rw [hunits, Nat.mul_assoc, Nat.mul_comm (2 ^ shift)]
  simp only [ofRatio, h, Nat.mul_div_cancel x.units hden, hshift, hpow]
  rw [hscaled, roundHalfEven_mul significand hscale, hword, Nat.min_eq_right (Nat.le_of_lt hx)]

end RoxLang.Number
