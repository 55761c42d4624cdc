import Lox.Proofs.Lexing.Longest
import Lox.Proofs.Numbers.Rounding

/-!
# Numbers that are too large

A literal of the language is rounded to a double, and so is one that lies beyond all doubles: it
becomes infinite from the midpoint between the largest double and the next power of two on. That
holds in the same way for literals with a fraction, and no literal is ever not a number.
-/

namespace Lox.Number

open Float.Model (Format totalExponent)
open Float.Model.UnpackedFloat

/-- The least magnitude that is rounded to infinity. -/
def overflow : Nat := (2 ^ 54 - 1) * 2 ^ 970

theorem overflow_pos : 0 < overflow := by decide +kernel

/-- What becomes of a magnitude that may be in the range of doubles or beyond it. -/
structure Rounds (x : Float) (inRange : Prop) : Prop where
  isFinite_iff : x.isFinite = true ↔ inRange
  isNaN : x.isNaN = false

theorem isNaN_roundWithAccuracy (s : Sign) (m : Nat) (e : Int) (acc : Accuracy) :
    (roundWithAccuracy .binary64 s m e acc).isNaN = false := by
  rw [roundWithAccuracy]
  dsimp only
  split_ifs <;> rfl

theorem Rounds.congr {x : Float} {inRange inRange' : Prop} (h : Rounds x inRange)
    (hiff : inRange ↔ inRange') : Rounds x inRange' :=
  ⟨h.isFinite_iff.trans hiff, h.isNaN⟩

theorem Rounds.zero {s : Sign} {inRange : Prop} (h : inRange) :
    Rounds (.ofModel (.pack (.zero s))) inRange :=
  ⟨iff_of_true isFinite_pack_zero h, isNaN_pack rfl⟩

theorem Rounds.round {s : Sign} {m : Nat} {e : Int} {acc : Accuracy}
    (hshift : e ≤ max (m.log2 + 1 + e - 53) (-1074)) (he : e ≤ greatestExponent) :
    Rounds (.ofModel (.pack (roundWithAccuracy .binary64 s m e acc)))
      (2 * m + half acc < (2 ^ 54 - 1) * 2 ^ (greatestExponent - e).toNat) :=
  ⟨isFinite_round_iff hshift he, isNaN_pack (isNaN_roundWithAccuracy s m e acc)⟩

/-! ## Rounding without a fraction and with one -/

theorem log2_shiftLeft {m : Nat} (hm : m ≠ 0) (k : Nat) : (m <<< k).log2 = m.log2 + k := by
  rw [Nat.shiftLeft_eq, Nat.log2_eq_iff (Nat.mul_ne_zero hm (Nat.two_pow_pos k).ne'), Nat.pow_add,
    Nat.add_right_comm, Nat.pow_add _ (m.log2 + 1)]
  exact ⟨Nat.mul_le_mul_right _ (Nat.log2_self_le hm),
    Nat.mul_lt_mul_of_pos_right Nat.lt_log2_self (Nat.two_pow_pos k)⟩

theorem lt_scaled {a b i j : Nat} : a * 2 ^ j < b * 2 ^ (i + j) ↔ a < b * 2 ^ i := by
  rw [Nat.pow_add, ← Nat.mul_assoc, Nat.mul_lt_mul_right (Nat.two_pow_pos j)]

theorem rounds_whole {n : Nat} (hn : n ≠ 0) :
    Rounds (.ofModel (.ofScientific n 0)) (n < overflow) := by
  have hscaled : Float.Model.UnpackedFloat.ofScientific .binary64 n 0
      = roundWithAccuracy .binary64 .positive (n <<< 53 * 1) (-53) .exact := by
    rw [Float.Model.UnpackedFloat.ofScientific, dif_neg hn, if_neg (by decide), if_neg,
      if_pos le_rfl, mul]
    · rfl
    · change ¬ (0 : Int) < -(2048 + n.log2)
      omega
  rw [Float.Model.ofScientific, hscaled, Nat.mul_one]
  refine (Rounds.round (by rw [log2_shiftLeft hn]; omega) (by decide)).congr ?_
  have hleft : 2 * n <<< 53 + half .exact = n * 2 ^ 54 := by
    rw [Nat.shiftLeft_eq, half]
    omega
  rw [hleft, overflow, show (greatestExponent - -53).toNat = 970 + 54 by decide]
  exact lt_scaled

/-- The halves of a quotient. -/
theorem halves_quotient (a : Nat) {b : Nat} (hb : 0 < b) :
    2 * (a / b) + half (accuracyOfFraction (a % b) b) = 2 * a / b := by
  have hmod : a % b < b := Nat.mod_lt a hb
  have hhalf : half (accuracyOfFraction (a % b) b) = if 2 * (a % b) < b then 0 else 1 := by
    rw [accuracyOfFraction]
    split_ifs with hzero hless hless
    · rfl
    · omega
    · rw [Nat.compare_eq_lt.mpr hless]; rfl
    · rcases Nat.lt_or_eq_of_le (Nat.not_lt.mp hless) with h | h
      · rw [Nat.compare_eq_gt.mpr h]; rfl
      · rw [Nat.compare_eq_eq.mpr h.symm]; rfl
  have hdouble : 2 * a = 2 * (a % b) + b * (2 * (a / b)) := by
    rw [Nat.mul_left_comm, ← Nat.mul_add, Nat.mod_add_div]
  rw [hhalf, hdouble, Nat.add_mul_div_left _ _ hb, Nat.add_comm]
  congr 1
  split_ifs with hless
  · exact (Nat.div_eq_of_lt hless).symm
  · exact (Nat.div_eq_of_lt_le (by omega) (by omega)).symm

/-- A quotient has at least 53 bits if its dividend has been shifted far enough. -/
theorem log2_quotient {n d k : Nat} (hn : n ≠ 0) (hd : 0 < d) (hk : d.log2 + 53 ≤ n.log2 + k) :
    52 ≤ (n <<< k / d).log2 := by
  have hle : 2 ^ 52 ≤ n <<< k / d := by
    rw [Nat.le_div_iff_mul_le hd, Nat.shiftLeft_eq]
    calc 2 ^ 52 * d ≤ 2 ^ 52 * 2 ^ (d.log2 + 1) := Nat.mul_le_mul_left _ Nat.lt_log2_self.le
      _ = 2 ^ (d.log2 + 53) := by rw [← Nat.pow_add]; congr 1; omega
      _ ≤ 2 ^ (n.log2 + k) := Nat.pow_le_pow_right (by decide) hk
      _ ≤ n * 2 ^ k := by rw [Nat.pow_add]; exact Nat.mul_le_mul_right _ (Nat.log2_self_le hn)
  exact (Nat.le_log2 (Nat.ne_of_gt (Nat.lt_of_lt_of_le (Nat.two_pow_pos 52) hle))).mpr hle

theorem rounds_quotient {n d : Nat} (hn : n ≠ 0) (hd : 0 < d) :
    Rounds (.ofModel (.pack (div .binary64 (.finite .positive n 0 (Nat.pos_of_ne_zero hn))
      (.finite .positive d 0 hd)))) (n < overflow * d) := by
  rw [div, divCore]
  dsimp only
  rw [targetExponent_eq, Int.sub_zero]
  generalize hte : min (0 : Int) _ = te
  obtain ⟨k, rfl⟩ : ∃ k : Nat, te = -k := ⟨(-te).toNat, by omega⟩
  rw [totalExponent, totalExponent] at hte
  rw [show (0 - -(k : Int)).toNat = k by omega]
  have hshift : -(k : Int) ≤ max ((n <<< k / d).log2 + 1 + -(k : Int) - 53) (-1074) := by
    by_cases hk : d.log2 + 53 ≤ n.log2 + k
    · have := log2_quotient hn hd hk
      omega
    · omega
  refine (Rounds.round hshift (by rw [greatestExponent]; omega)).congr ?_
  have hpower : (greatestExponent - -(k : Int)).toNat = 970 + (k + 1) := by
    rw [greatestExponent]
    omega
  have hleft : 2 * n <<< k = n * 2 ^ (k + 1) := by
    rw [Nat.shiftLeft_eq, Nat.pow_succ', Nat.mul_left_comm]
  rw [halves_quotient _ hd, Nat.div_lt_iff_lt_mul hd, hpower, hleft, overflow, Nat.mul_right_comm,
    Nat.mul_right_comm _ (2 ^ 970)]
  exact lt_scaled

/-- What is small beside a power of ten is in range. -/
theorem lt_overflow_mul {n f : Nat} (h : n < 10 ^ f) : n < overflow * 10 ^ f :=
  h.trans_le (Nat.le_mul_of_pos_left _ overflow_pos)

/-- A magnitude in scientific notation, with an exponent that is not positive. -/
theorem rounds_model {n : Nat} (hn : n ≠ 0) (f : Nat) :
    Rounds (.ofModel (.ofScientific n (-(f : Int)))) (n < overflow * 10 ^ f) := by
  rcases Nat.eq_zero_or_pos f with rfl | hf
  · simpa using rounds_whole hn
  · have hbits : (2 ^ Format.exponentBits .binary64 : Int) = 2048 := by decide
    rw [Float.Model.ofScientific, Float.Model.UnpackedFloat.ofScientific, dif_neg hn, hbits,
      if_neg (by omega), if_neg (c := 0 ≤ _) (by omega)]
    split_ifs with hsmall
    · refine .zero (lt_overflow_mul ?_)
      calc n < 2 ^ (n.log2 + 1) := Nat.lt_log2_self
        _ ≤ 2 ^ f := Nat.pow_le_pow_right (by decide) (by omega)
        _ ≤ 10 ^ f := Nat.pow_le_pow_left (by decide) f
    · simp only [Int.neg_neg, Int.toNat_natCast]
      exact rounds_quotient hn _

/-! ## Literals that are computed at once -/

/-- A number is finite, and it lies below a power of two. -/
def IsBelow (bound : Int) : Float.Model.UnpackedFloat → Prop
  | .zero _ => True
  | .finite _ m e _ => m.log2 + 1 + e ≤ bound
  | .infinity _ | .notANumber => False

theorem IsBelow.mono {bound bound' : Int} {u : Float.Model.UnpackedFloat} (h : IsBelow bound u)
    (hle : bound ≤ bound') : IsBelow bound' u := by
  cases u with
  | zero _ => trivial
  | finite _ m e _ => exact Int.le_trans h hle
  | infinity _ | notANumber => exact h

theorem log2_lt_of_lt {m k : Nat} (hk : 0 < k) (h : m < 2 ^ k) : m.log2 < k := by
  rcases Nat.eq_zero_or_pos m with rfl | hpos
  · rwa [Nat.log2_zero]
  · exact (Nat.log2_lt hpos.ne').mpr h

theorem log2_le_log2 {a b : Nat} (hb : b ≠ 0) (h : a ≤ b) : a.log2 ≤ b.log2 := by
  rcases Nat.eq_zero_or_pos a with rfl | hpos
  · rw [Nat.log2_zero]
    exact Nat.zero_le _
  · exact (Nat.le_log2 hb).mpr ((Nat.log2_self_le hpos.ne').trans h)

theorem toNat_unpackExponent_pack (s : Sign) (m : Nat) (e : Int) (hm : 0 < m)
    (hleast : -1074 ≤ e) (hgreatest : e ≤ greatestExponent) :
    ((@unpackExponent .binary64 (pack .binary64 (.finite s m e hm))).toNat : Int)
      ≤ e + 1075 := by
  have hbias : (Format.exponentBias .binary64 : Int) = 1023 := by decide
  rw [greatestExponent] at hgreatest
  rw [pack]
  dsimp only
  rw [hbias, if_neg (by omega)]
  split_ifs
  · rw [unpackExponent_packComponents, BitVec.toNat_ofNat]
    omega
  · rw [unpackExponent_packComponents, BitVec.toNat_ofNat]
    omega

/-- What has been packed with an exponent in range comes back as a number of that size. -/
theorem isBelow_unpack_pack {s : Sign} {m : Nat} {e : Int} {hm : 0 < m} (hleast : -1074 ≤ e)
    (hgreatest : e ≤ greatestExponent) :
    IsBelow (53 + e) (unpack .binary64 (pack .binary64 (.finite s m e hm))) := by
  have hfinite := not_congr (unpackExponent_pack s m e hm)
  have hexponent := toNat_unpackExponent_pack s m e hm hleast hgreatest
  have hbias : (Format.exponentBias .binary64 : Int) = 1023 := by decide
  rw [unpack]
  dsimp only
  rw [if_neg (hfinite.mpr (Int.not_lt.mpr hgreatest)), hbias]
  split_ifs with hzero hmantissa
  · trivial
  · have hlog := log2_lt_of_lt (by decide) (@unpackMantissa .binary64
      (pack .binary64 (.finite s m e hm))).isLt
    rw [hzero, IsBelow]
    change _ < 52 at hlog
    change _ + 1 + ((0 : Nat) - (1023 + 52) + 1 : Int) ≤ _
    omega
  · have hlog := log2_lt_of_lt (by decide) (1#1 ++ @unpackMantissa .binary64
      (pack .binary64 (.finite s m e hm))).isLt
    rw [IsBelow]
    change _ < 53 at hlog
    change _ + 1 + (_ - (1023 + 52) : Int) ≤ _
    omega

/-- So does what has been rounded. -/
theorem isBelow_round {s : Sign} {m : Nat} {e : Int} {acc : Accuracy} (bound : Int) (he : e ≤ bound)
    (hm : m.log2 + 1 + e - 53 ≤ bound) (hbound : bound < greatestExponent)
    (hleast : -1074 ≤ bound) :
    IsBelow (54 + bound)
      (unpack .binary64 (pack .binary64 (roundWithAccuracy .binary64 s m e acc))) := by
  have hlt := shiftToTargetExponent_mantissa_lt m e acc
  have hexponent := shiftToTargetExponent_exponent m e acc
  rw [roundWithAccuracy]
  generalize shiftToTargetExponent .binary64 m e acc = first at hlt hexponent ⊢
  obtain ⟨em, e₁⟩ := first
  dsimp only at hlt hexponent ⊢
  have hr : em.roundedMantissa ≤ 2 ^ 53 := (roundedMantissa_bounds em).2.trans hlt
  obtain ⟨hcarry, -⟩ := shiftToTargetExponent_carry hr (e := e₁) (by omega)
  have hone : em.roundedMantissa / 2 ^ 53 ≤ 1 := Nat.div_le_of_le_mul (by omega)
  split_ifs
  · cases s <;> trivial
  · rw [hcarry]
    exact (isBelow_unpack_pack (by omega) (by omega)).mono (by omega)

/-- A whole number that has at most 53 bits lies below the power of two of as many bits, and one
more. -/
theorem isBelow_ofNat {n : Nat} (hn : n < 2 ^ 53) :
    IsBelow 54 (unpack .binary64 (pack .binary64 (ofNat .binary64 n))) := by
  rcases Nat.eq_zero_or_pos n with rfl | hpos
  · exact True.intro
  · have hlog := log2_lt_of_lt (by decide) hn
    rw [ofNat, ofInt, Float.Model.UnpackedFloat.normalize,
      Int.compare_eq_gt.mpr (Int.natCast_pos.mpr hpos)]
    dsimp only
    rw [Float.Model.UnpackedFloat.round, decreaseExponent, targetExponent_eq, totalExponent]
    dsimp only
    refine isBelow_round 0 ?_ ?_ (by decide) (by decide)
    · omega
    · rw [Int.toNat_natCast, log2_shiftLeft hpos.ne']
      omega

theorem IsBelow.isFinite {bound : Int} {u : Float.Model.UnpackedFloat} (h : IsBelow bound u) :
    u.isFinite = true := by
  cases u with
  | zero _ | finite _ _ _ _ => rfl
  | infinity _ | notANumber => exact h.elim

/-- What is far below the largest double stays in range when it is rounded. -/
theorem Rounds.small {s : Sign} {m : Nat} {e : Int} {acc : Accuracy} (bound : Int) (he : e ≤ bound)
    (hm : m.log2 + 1 + e - 53 ≤ bound) (hbound : bound < greatestExponent)
    (hleast : -1074 ≤ bound) :
    Rounds (.ofModel (.pack (roundWithAccuracy .binary64 s m e acc))) True :=
  ⟨iff_of_true (isBelow_round bound he hm hbound hleast).isFinite trivial,
    isNaN_pack (isNaN_roundWithAccuracy s m e acc)⟩

/-- A number is finite and of a size such that neither dividing by it nor multiplying with it leads
far away. -/
def isModerate : Float.Model.UnpackedFloat → Bool
  | .finite _ m e _ => decide (-52 ≤ e ∧ m.log2 + 1 + e ≤ 74)
  | _ => false

theorem isModerate_powers :
    Float.exactlyRepresentablePowersOfTen.all (fun x ↦ isModerate x.toModel.unpack) = true := by
  decide +kernel

section

variable {u v : Float.Model.UnpackedFloat}

theorem rounds_div (hu : IsBelow 54 u)
    (hv : isModerate v = true) : Rounds (.ofModel (.pack (div .binary64 u v))) True := by
  cases v with
  | finite s' d e' hd =>
    obtain ⟨hplace, -⟩ := of_decide_eq_true hv
    cases u with
    | zero s => exact .zero trivial
    | finite s n e hn =>
      rw [IsBelow] at hu
      rw [div, divCore]
      dsimp only
      generalize hte : min (e - e') _ = te
      generalize hk : (e - e' - te).toNat = k
      have hlog := log2_le_log2
        (Nat.shiftLeft_eq n k ▸ Nat.mul_ne_zero hn.ne' (Nat.two_pow_pos k).ne')
        (Nat.div_le_self (n <<< k) d)
      rw [log2_shiftLeft hn.ne'] at hlog
      exact .small 105 (by omega) (by omega) (by decide) (by decide)
    | infinity _ | notANumber => exact hu.elim
  | _ => cases hv

theorem rounds_mul (hu : IsBelow 54 u) (hv : isModerate v = true) :
    Rounds (.ofModel (.pack (mul .binary64 u v))) True := by
  cases v with
  | finite s' m e' hm =>
    obtain ⟨-, hsize⟩ := of_decide_eq_true hv
    cases u with
    | zero s => exact .zero trivial
    | finite s n e hn =>
      have hlog : (n * m).log2 < n.log2 + 1 + (m.log2 + 1) := by
        rw [Nat.log2_lt (Nat.mul_ne_zero hn.ne' hm.ne'), Nat.pow_add]
        exact Nat.mul_lt_mul_of_lt_of_lt Nat.lt_log2_self Nat.lt_log2_self
      rw [IsBelow] at hu
      rw [mul]
      exact .small 128 (by omega) (by omega) (by decide) (by decide)
    | infinity _ | notANumber => exact hu.elim
  | _ => cases hv

end

theorem isBelow_toFloat {n : Nat} (hn : n < 2 ^ 53) :
    IsBelow 54 n.toUInt64.toFloat.toModel.unpack := by
  have hvalue : n.toUInt64.toNat = n := Nat.mod_eq_of_lt (by omega)
  have hbelow := isBelow_ofNat hn
  rw [← hvalue] at hbelow
  exact hbelow

theorem isModerate_power {f : Nat}
    {h : f < Float.exactlyRepresentablePowersOfTen.size} :
    isModerate (Float.exactlyRepresentablePowersOfTen[f]).toModel.unpack = true :=
  Array.all_eq_true_iff_forall_mem.mp isModerate_powers _ (Array.getElem_mem _)

theorem lt_overflow {n f : Nat} (hn : n < 2 ^ 53) : n < overflow * 10 ^ f := by
  have hle : 2 ^ 53 ≤ overflow := by decide +kernel
  exact hn.trans_le (hle.trans (Nat.le_mul_of_pos_right _ (Nat.pow_pos (by decide))))

/-- A magnitude is divided by a power of ten, both of which may be doubles or not. -/
theorem rounds_ofScientific {n : Nat} (hn : n ≠ 0) (f : Nat) :
    Rounds (Float.ofScientific n (decide (0 < f)) f) (n < overflow * 10 ^ f) := by
  rw [Float.ofScientific]
  split_ifs with hquick hf hf
  · exact (rounds_div (isBelow_toFloat hquick.1) isModerate_power).congr
      (iff_of_true trivial (lt_overflow hquick.1))
  · exact (rounds_mul (isBelow_toFloat hquick.1) isModerate_power).congr
      (iff_of_true trivial (lt_overflow hquick.1))
  · obtain ⟨f, rfl⟩ := Nat.exists_eq_add_of_le' (of_decide_eq_true hf)
    exact rounds_model hn (f + 1)
  · obtain rfl : f = 0 := by simpa using hf
    exact rounds_model hn 0

/-! ## Literals -/

theorem digitsValue_lt {digits : List Char} (h : ∀ c ∈ digits, IsDigit c) :
    digitsValue digits < 10 ^ digits.length := by
  have hfold : ∀ n : Nat, digits.foldl (fun n c ↦ 10 * n + (c.toNat - '0'.toNat)) n
      < (n + 1) * 10 ^ digits.length := by
    induction digits with
    | nil => intro n; simp
    | cons c digits ih =>
      intro n
      obtain ⟨hc, hdigits⟩ := List.forall_mem_cons.mp h
      have hle : c.toNat - '0'.toNat ≤ 9 := Nat.sub_le_of_le_add hc.2
      rw [List.foldl_cons, List.length_cons, Nat.pow_succ', ← Nat.mul_assoc]
      exact (ih hdigits _).trans_le (Nat.mul_le_mul_right _ (by omega))
  simpa [digitsValue] using hfold 0

theorem rounds_nought : Rounds 0.0 True := ⟨by decide +kernel, by decide +kernel⟩

/-- A literal is infinite if and only if its digits, without the point, are too large for as many
digits behind the point. -/
theorem rounds_ofLiteral {whole fraction : List Char} (hwhole : ∀ c ∈ whole, IsDigit c)
    (hfraction : ∀ c ∈ fraction, IsDigit c) : Rounds (ofLiteral whole fraction)
      (digitsValue (whole ++ fraction) < overflow * 10 ^ fraction.length) := by
  have hvalue : digitsValue (whole ++ fraction) < 10 ^ (whole ++ fraction).length :=
    digitsValue_lt fun c hc ↦ (List.mem_append.mp hc).elim (hwhole c) (hfraction c)
  rw [ofLiteral, ofDecimal]
  split_ifs with hzero hlarge hsmall
  · rw [hzero]
    exact rounds_nought.congr (iff_of_true trivial
      (Nat.mul_pos overflow_pos (Nat.pow_pos (by decide))))
  · omega
  · refine rounds_nought.congr (iff_of_true trivial (lt_overflow_mul (hvalue.trans_le ?_)))
    exact Nat.pow_le_pow_right (by decide) (by omega)
  · have hnegative : decide (-(fraction.length : Int) < 0) = decide (0 < fraction.length) := by
      simp
    rw [hnegative, Int.natAbs_neg, Int.natAbs_natCast]
    exact rounds_ofScientific hzero _

end Lox.Number
