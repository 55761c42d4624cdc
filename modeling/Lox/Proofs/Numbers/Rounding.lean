import Mathlib

/-!
# When rounding leaves the range of doubles

The model of doubles packs a sign, a mantissa and an exponent into 64 bits. It rounds a magnitude in
two steps. The mantissa is shifted until it has at most 53 bits, where the bits that are lost are
kept as a round bit and a sticky bit, and then it is rounded according to these.

What the round bit is for can be said without it. A mantissa together with its round bit counts
halves of the last place, and shifting divides that count. So whether a magnitude is too large for a
double depends on its halves only, and on nothing that the sticky bit tells.
-/

namespace Lox.Number

open Float.Model (Format totalExponent)
open Float.Model.UnpackedFloat

/-! ## Packing -/

/-- What is unpacked is finite unless all bits of the exponent are set. -/
theorem isFinite_unpack {b : BitVec Format.binary64.numBits} :
    (unpack .binary64 b).isFinite = true ↔ @unpackExponent .binary64 b ≠ -1#_ := by
  rw [unpack]
  dsimp only
  split_ifs with hall
  · exact iff_of_false Bool.false_ne_true (not_not_intro hall)
  · exact iff_of_false Bool.false_ne_true (not_not_intro hall)
  all_goals exact iff_of_true rfl hall

theorem isNaN_unpack {b : BitVec Format.binary64.numBits}
    (h : @unpackExponent .binary64 b = -1#_ → @unpackMantissa .binary64 b = 0#_) :
    (unpack .binary64 b).isNaN = false := by
  rw [unpack]
  dsimp only
  split_ifs with hall hmantissa
  · rfl
  · exact absurd (h hall) hmantissa
  all_goals rfl

/-- The largest exponent that a double has room for. -/
def greatestExponent : Int := 971

theorem exponent_ne_of_lt {biased : Nat} (h : biased + 1 < 2048) :
    BitVec.ofNat 11 biased ≠ -1#11 := fun heq ↦ by
  have hvalue : biased % 2048 = 2047 := congrArg BitVec.toNat heq
  omega

section

variable {s : Sign} {m : Nat} {e : Int} {hm : 0 < m}

/-- A magnitude with a larger exponent is packed like infinity. -/
theorem pack_of_large (h : greatestExponent < e) :
    pack .binary64 (.finite s m e hm) = packedInfinity .binary64 s := by
  have hbias : (Format.exponentBias .binary64 : Int) = 1023 := by decide
  rw [greatestExponent] at h
  rw [pack]
  dsimp only
  rw [hbias, if_pos (by omega)]

theorem unpackExponent_pack (s : Sign) (m : Nat) (e : Int) (hm : 0 < m) :
    @unpackExponent .binary64 (pack .binary64 (.finite s m e hm)) = -1#_ ↔
      greatestExponent < e := by
  refine ⟨fun hall ↦ ?_, fun h ↦ ?_⟩
  · by_contra hle
    have hbias : (Format.exponentBias .binary64 : Int) = 1023 := by decide
    rw [greatestExponent, Int.not_lt] at hle
    rw [pack] at hall
    dsimp only at hall
    rw [hbias, if_neg (by omega)] at hall
    split_ifs at hall
    · rw [unpackExponent_packComponents] at hall
      exact exponent_ne_of_lt (by omega) hall
    · rw [unpackExponent_packComponents] at hall
      revert hall
      decide
  · rw [pack_of_large h, packedInfinity, unpackExponent_packComponents]

theorem isFinite_pack_finite :
    (Float.Model.pack (.finite s m e hm)).isFinite = true ↔ e ≤ greatestExponent :=
  isFinite_unpack.trans ((not_congr (unpackExponent_pack s m e hm)).trans Int.not_lt)

theorem isFinite_pack_zero : (Float.Model.pack (.zero s)).isFinite = true := by
  cases s <;> decide

/-- What is packed is no number only if it was none before. -/
theorem isNaN_pack {f : Float.Model.UnpackedFloat} (h : f.isNaN = false) :
    (Float.Model.pack f).isNaN = false := by
  refine isNaN_unpack fun hall ↦ ?_
  change @unpackExponent .binary64 (pack .binary64 f) = -1#_ at hall
  change @unpackMantissa .binary64 (pack .binary64 f) = 0#_
  cases f with
  | notANumber => cases h
  | infinity s => rw [pack, packedInfinity, unpackMantissa_packComponents]; rfl
  | zero s => rw [pack, packedZero, unpackMantissa_packComponents]; rfl
  | finite s m e hm =>
    rw [pack_of_large ((unpackExponent_pack s m e hm).mp hall), packedInfinity,
      unpackMantissa_packComponents]
    rfl

end

/-! ## Halves of the last place -/

/-- How many halves of the last place a mantissa has, with its round bit. -/
def halves (em : ExtendedMantissa) : Nat := 2 * em.mantissa + em.roundBit.toNat

theorem halves_shiftRightOne (em : ExtendedMantissa) : halves em.shiftRightOne = halves em / 2 := by
  obtain ⟨m, round, sticky⟩ := em
  have hbit : (m % 2 != 0).toNat = m % 2 := by
    rcases Nat.mod_two_eq_zero_or_one m with h | h <;> rw [h] <;> rfl
  cases round <;> simp only [halves, ExtendedMantissa.shiftRightOne, hbit, Bool.toNat_false,
    Bool.toNat_true] <;> omega

/-- Shifting divides the number of halves, whatever bits are lost. -/
theorem halves_shiftRight (em : ExtendedMantissa) (k : Nat) :
    halves (em >>> k) = halves em / 2 ^ k := by
  induction k with
  | zero => rw [pow_zero, Nat.div_one]; rfl
  | succ k ih =>
    change halves (em >>> k).shiftRightOne = _
    rw [halves_shiftRightOne, ih, Nat.div_div_eq_div_mul, pow_succ]

theorem halves_div_two (em : ExtendedMantissa) : halves em / 2 = em.mantissa := by
  have hbit : em.roundBit.toNat < 2 := Bool.toNat_lt _
  rw [halves]
  omega

/-- Rounding goes to the mantissa or the next one. -/
theorem roundedMantissa_bounds (em : ExtendedMantissa) :
    em.mantissa ≤ em.roundedMantissa ∧ em.roundedMantissa ≤ em.mantissa + 1 := by
  obtain ⟨m, round, sticky⟩ := em
  cases round <;> cases sticky <;>
    simp only [ExtendedMantissa.roundedMantissa, ExtendedMantissa.accuracy,
      Accuracy.roundToNearestEven] <;> omega

/-- Rounding goes down without a round bit, and up from an odd mantissa with one. -/
theorem roundedMantissa_of_halves {em : ExtendedMantissa} (hodd : em.mantissa % 2 = 1) :
    em.roundedMantissa = (halves em + 1) / 2 := by
  obtain ⟨m, round, sticky⟩ := em
  cases round <;> cases sticky <;>
    simp only [ExtendedMantissa.roundedMantissa, ExtendedMantissa.accuracy,
      Accuracy.roundToNearestEven, halves, Bool.toNat_false, Bool.toNat_true] at hodd ⊢ <;> omega

/-! ## Rounding -/

/-- What an accuracy adds to the halves of a mantissa. -/
def half : Accuracy → Nat
  | .exact | .inexact .lt => 0
  | .inexact .eq | .inexact .gt => 1

theorem halves_ofMantissaAndAccuracy (m : Nat) (acc : Accuracy) :
    halves (.ofMantissaAndAccuracy m acc) = 2 * m + half acc := by
  cases acc with
  | exact => rfl
  | inexact o => cases o <;> rfl

theorem targetExponent_eq (total : Int) :
    Format.targetExponent .binary64 total = max (total - 53) (-1074) := rfl

section

variable (m : Nat) (e : Int) (acc : Accuracy)

/-- Shifting stops at the target, unless the exponent is beyond it already. -/
theorem shiftToTargetExponent_exponent :
    (shiftToTargetExponent .binary64 m e acc).2 = max e (max (m.log2 + 1 + e - 53) (-1074)) := by
  simp only [shiftToTargetExponent, shiftToExponent, targetExponent_eq, totalExponent]
  omega

theorem shiftToTargetExponent_halves :
    halves (shiftToTargetExponent .binary64 m e acc).1
      = (2 * m + half acc) / 2 ^ ((shiftToTargetExponent .binary64 m e acc).2 - e).toNat := by
  simp only [shiftToTargetExponent, shiftToExponent]
  rw [halves_shiftRight, halves_ofMantissaAndAccuracy]
  congr 2
  omega

theorem shiftToTargetExponent_mantissa :
    (shiftToTargetExponent .binary64 m e acc).1.mantissa
      = m / 2 ^ ((shiftToTargetExponent .binary64 m e acc).2 - e).toNat := by
  have hhalf : (2 * m + half acc) / 2 = m := by
    cases acc with
    | exact => simp only [half]; omega
    | inexact o => cases o <;> simp only [half] <;> omega
  rw [← halves_div_two, shiftToTargetExponent_halves, Nat.div_div_eq_div_mul,
    Nat.mul_comm (2 ^ _), ← Nat.div_div_eq_div_mul, hhalf]

/-- A mantissa has at most 53 bits when it has been shifted. -/
theorem shiftToTargetExponent_mantissa_lt :
    (shiftToTargetExponent .binary64 m e acc).1.mantissa < 2 ^ 53 := by
  rw [shiftToTargetExponent_mantissa, shiftToTargetExponent_exponent]
  refine Nat.div_lt_of_lt_mul ?_
  calc m < 2 ^ (m.log2 + 1) := Nat.lt_log2_self
    _ ≤ 2 ^ ((max e (max (m.log2 + 1 + e - 53) (-1074)) - e).toNat + 53) :=
      Nat.pow_le_pow_right (by decide) (by omega)
    _ = _ := Nat.pow_add ..

/-- The second shift only makes room for a carry. -/
theorem shiftToTargetExponent_carry {r : Nat} {e : Int} (hr : r ≤ 2 ^ 53) (he : -1074 ≤ e) :
    (shiftToTargetExponent .binary64 r e .exact).2 = e + (r / 2 ^ 53 : Nat) ∧
      ((shiftToTargetExponent .binary64 r e .exact).1.mantissa = 0 ↔ r = 0) := by
  rw [shiftToTargetExponent_mantissa, shiftToTargetExponent_exponent]
  rcases Nat.lt_or_eq_of_le hr with hlt | rfl
  · have hlog : r.log2 ≤ 52 := by
      rcases Nat.eq_zero_or_pos r with rfl | hpos
      · decide
      · exact Nat.le_of_lt_succ ((Nat.log2_lt hpos.ne').mpr hlt)
    rw [Nat.div_eq_of_lt hlt, max_eq_left (by omega), Int.sub_self]
    exact ⟨(Int.add_zero e).symm, by rw [Int.toNat_zero, pow_zero, Nat.div_one]⟩
  · rw [Nat.log2_two_pow, Nat.div_self (by decide), max_eq_left (a := _ + 1 + e - 53) (by omega),
      max_eq_right (by omega)]
    refine ⟨by omega, iff_of_false ?_ (by decide)⟩
    rw [show (((53 : Nat) : Int) + 1 + e - 53 - e).toNat = 1 by omega]
    decide

variable {m e acc}

/-- Whether a magnitude is still finite when it has been rounded and packed. -/
theorem isFinite_round {s : Sign} :
    (Float.Model.pack (roundWithAccuracy .binary64 s m e acc)).isFinite = true ↔
      (shiftToTargetExponent .binary64 m e acc).1.roundedMantissa = 0 ∨
        (shiftToTargetExponent .binary64 m e acc).2
          + ((shiftToTargetExponent .binary64 m e acc).1.roundedMantissa / 2 ^ 53 : Nat)
            ≤ greatestExponent := by
  have hlt := shiftToTargetExponent_mantissa_lt m e acc
  have hexponent := shiftToTargetExponent_exponent m e acc
  rw [roundWithAccuracy]
  generalize shiftToTargetExponent .binary64 m e acc = first at hlt hexponent ⊢
  obtain ⟨em, e₁⟩ := first
  dsimp only at hlt hexponent ⊢
  have hr : em.roundedMantissa ≤ 2 ^ 53 := (roundedMantissa_bounds em).2.trans hlt
  obtain ⟨hcarry, hzero⟩ := shiftToTargetExponent_carry hr (e := e₁) (by omega)
  split_ifs with h
  · exact iff_of_true isFinite_pack_zero (.inl (hzero.mp h))
  · rw [isFinite_pack_finite, hcarry, or_iff_right (mt hzero.mpr h)]

/-- A mantissa of 53 bits is rounded to a further bit if and only if all its halves are there. -/
theorem roundedMantissa_lt_iff {em : ExtendedMantissa} (hlt : em.mantissa < 2 ^ 53) :
    em.roundedMantissa < 2 ^ 53 ↔ halves em < 2 ^ 54 - 1 := by
  have hle := (roundedMantissa_bounds em).2
  have hhalves := halves_div_two em
  rcases Nat.mod_two_eq_zero_or_one em.mantissa with heven | hodd
  · omega
  · rw [roundedMantissa_of_halves hodd]
    omega

/-- A magnitude whose last place is not beyond what a double has room for is still finite when it
has been rounded if and only if it has fewer halves than the midpoint between the largest double
and the next power of two. -/
theorem isFinite_round_iff {s : Sign} (hshift : e ≤ max (m.log2 + 1 + e - 53) (-1074))
    (he : e ≤ greatestExponent) :
    (Float.Model.pack (roundWithAccuracy .binary64 s m e acc)).isFinite = true ↔
      2 * m + half acc < (2 ^ 54 - 1) * 2 ^ (greatestExponent - e).toNat := by
  have hmantissa := shiftToTargetExponent_mantissa m e acc
  have hlt := shiftToTargetExponent_mantissa_lt m e acc
  have hhalves := shiftToTargetExponent_halves m e acc
  have hexponent := shiftToTargetExponent_exponent m e acc
  rw [max_eq_right hshift] at hexponent
  rw [isFinite_round]
  generalize shiftToTargetExponent .binary64 m e acc = first at *
  obtain ⟨em, e₁⟩ := first
  dsimp only at *
  rw [greatestExponent] at *
  have hhalf : half acc ≤ 1 := by cases acc with
    | exact => decide
    | inexact o => cases o <;> decide
  obtain ⟨hbelow, habove⟩ := roundedMantissa_bounds em
  have hone : em.roundedMantissa / 2 ^ 53 ≤ 1 := Nat.div_le_of_le_mul (by omega)
  generalize hK : (971 - e).toNat = K at *
  have hlog : ∀ k, 2 ^ k ≤ m ↔ 0 < m ∧ k ≤ m.log2 := fun k ↦ by
    rcases Nat.eq_zero_or_pos m with rfl | hpos
    · exact iff_of_false (Nat.two_pow_pos k).not_ge fun h ↦ h.1.false
    · rw [Nat.le_log2 hpos.ne', and_iff_right hpos]
  have hzero : m = 0 → m.log2 = 0 := fun h ↦ h ▸ Nat.log2_zero
  have h52 := hlog (52 + K)
  have h53 := hlog (53 + K)
  rw [pow_add] at h52 h53
  have hpos : 0 < 2 ^ K := Nat.two_pow_pos K
  by_cases hlarge : 2 ^ 53 * 2 ^ K ≤ m
  · -- The exponent is too large already before the mantissa is rounded.
    have hnonzero : em.mantissa ≠ 0 := by
      rw [hmantissa]
      refine (Nat.div_pos (((hlog _).mpr ⟨(h53.mp hlarge).1, ?_⟩)) (Nat.two_pow_pos _)).ne'
      omega
    exact iff_of_false (by omega) (by omega)
  · by_cases hsmall : 2 ^ 52 * 2 ^ K ≤ m
    · -- The exponent is the greatest one, and a carry decides.
      obtain rfl : e₁ = 971 := by omega
      rw [hK] at hhalves
      rw [← Nat.div_lt_iff_lt_mul hpos, ← hhalves, ← roundedMantissa_lt_iff hlt]
      omega
    · -- The exponent stays below the greatest one, even with a carry.
      exact iff_of_true (by omega) (by omega)

end

end Lox.Number
