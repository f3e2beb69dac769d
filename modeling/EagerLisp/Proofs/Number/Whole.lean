import Mathlib
import EagerLisp.Number
import EagerLisp.Proofs.Number.Rounding

namespace EagerLisp.Number

open Float.Model Float.Model.UnpackedFloat

/-- Numbers of more than 1024 bits have no finite double. -/
def Overflows (number : Nat) : Prop :=
  1024 ≤ number.log2

instance (number : Nat) : Decidable (Overflows number) :=
  inferInstanceAs (Decidable (_ ≤ _))

theorem Overflows.ne_zero {number : Nat} (large : Overflows number) : number ≠ 0 := by
  rintro rfl
  exact absurd large (by decide)

theorem Overflows.mono {number other : Nat} (large : Overflows number) (le : number ≤ other) :
    Overflows other := by
  have positive := large.ne_zero
  have grown : number.log2 ≤ other.log2 :=
    (Nat.le_log2 (by omega)).mpr (Nat.le_trans (Nat.log2_self_le positive) le)
  exact Nat.le_trans large grown

theorem not_overflows_of_lt {number : Nat} (narrow : number < 2 ^ 53) : ¬Overflows number := by
  intro large
  have short := (Nat.log2_lt large.ne_zero).mpr narrow
  rw [Overflows] at large
  omega

theorem Overflows.nearest {number : Nat} (large : Overflows number) :
    Overflows (nearest number) := by
  have leading : Overflows (2 ^ number.log2) := by
    rw [Overflows, Nat.log2_two_pow]
    exact large
  exact leading.mono (two_pow_le_nearest (Nat.log2_self_le large.ne_zero))

/-- The first fifty-three bits of a number, zeros behind a shorter one included. -/
def significand (number : Nat) : Nat :=
  number * 2 ^ 52 / 2 ^ number.log2

theorem significand_bounds {number : Nat} (positive : number ≠ 0) :
    2 ^ 52 ≤ significand number ∧ significand number < 2 ^ 53 := by
  have lower := Nat.log2_self_le positive
  have upper := @Nat.lt_log2_self number
  rw [Nat.pow_succ] at upper
  exact ⟨(Nat.le_div_iff_mul_le (Nat.two_pow_pos _)).mpr (by omega),
    (Nat.div_lt_iff_lt_mul (Nat.two_pow_pos _)).mpr (by omega)⟩

theorem significand_pos {number : Nat} (positive : number ≠ 0) : 0 < significand number :=
  Nat.lt_of_lt_of_le (Nat.two_pow_pos 52) (significand_bounds positive).1

/-- The parts of the double for a whole number. -/
def unpacked (number : Nat) : UnpackedFloat :=
  if positive : number ≠ 0 then
    if Overflows number then .infinity .positive
    else .finite .positive (significand number) (number.log2 - 52) (significand_pos positive)
  else .zero .positive

/-- The double for a whole number, infinity for a large one. -/
def whole (number : Nat) : Float :=
  .ofModel (.pack (unpacked number))

theorem unpacked_of_finite {number : Nat} (positive : number ≠ 0) (small : ¬Overflows number) :
    unpacked number = .finite .positive (significand number) (number.log2 - 52)
      (significand_pos positive) := by
  rw [unpacked, dif_pos positive, if_neg small]

theorem unpacked_of_overflows {number : Nat} (large : Overflows number) :
    unpacked number = .infinity .positive := by
  rw [unpacked, dif_pos large.ne_zero, if_pos large]

private theorem unpacked_eq_infinity {number : Nat} :
    unpacked number = .infinity .positive ↔ Overflows number := by
  refine ⟨fun same => ?_, unpacked_of_overflows⟩
  unfold unpacked at same
  split_ifs at same with positive large
  exact large

private theorem unpacked_eq_zero {number : Nat} :
    unpacked number = .zero .positive ↔ number = 0 := by
  refine ⟨fun same => ?_, fun none => by rw [none]; rfl⟩
  unfold unpacked at same
  split_ifs at same with positive
  exact not_not.mp positive

theorem biased (exponent : Nat) :
    ((exponent : Int) - 52 + Format.binary64.exponentBias + (52 : Nat)).toNat =
      exponent + 1023 := by
  change ((exponent : Int) - 52 + 1023 + 52).toNat = _
  omega

theorem implicit_append {part : Nat} (lower : 2 ^ 52 ≤ part) (upper : part < 2 ^ 53) :
    (1#1 ++ BitVec.ofNat 52 part).toNat = part := by
  rw [BitVec.toNat_append, ← Nat.shiftLeft_add_eq_or_of_lt (BitVec.isLt _), BitVec.toNat_ofNat]
  change 1 <<< 52 + part % 2 ^ 52 = part
  rw [Nat.one_shiftLeft]
  omega

private theorem unpack_pack_finite {part exponent : Nat} (lower : 2 ^ 52 ≤ part)
    (upper : part < 2 ^ 53) (small : exponent < 1024) :
    (Float.Model.pack (.finite .positive part (exponent - 52) (by omega))).unpack =
      .finite .positive part (exponent - 52) (by omega) := by
  have leading : part.log2 + 1 = Format.binary64.mantissaBits := by
    rw [log2_unique lower upper]
    rfl
  have fits : ¬2 ^ 11 ≤ exponent + 1023 + 1 := by omega
  simp only [Float.Model.unpack, Float.Model.pack, UnpackedFloat.pack, biased, leading, if_neg fits,
    if_true]
  have field : (BitVec.ofNat 11 (exponent + 1023)).toNat = exponent + 1023 := by
    rw [BitVec.toNat_ofNat, Nat.mod_eq_of_lt (by omega)]
  have notFull : BitVec.ofNat 11 (exponent + 1023) ≠ -1#11 := by
    intro full
    have number := congrArg BitVec.toNat full
    rw [field] at number
    change exponent + 1023 = 2047 at number
    omega
  have notEmpty : BitVec.ofNat 11 (exponent + 1023) ≠ 0#11 := by
    intro empty
    have number := congrArg BitVec.toNat empty
    rw [field] at number
    change exponent + 1023 = 0 at number
    omega
  simp only [UnpackedFloat.unpack, unpackExponent_packComponents, unpackMantissa_packComponents,
    unpackSign_packComponents, if_neg notFull, if_neg notEmpty, field, implicit_append lower upper]
  have unbiased : ((exponent + 1023 : Nat) : Int) - (Format.binary64.exponentBias + (52 : Nat)) =
      exponent - 52 := by
    change ((exponent + 1023 : Nat) : Int) - (1023 + 52) = _
    omega
  simp only [unbiased]
  rfl

private theorem pack_finite {number part exponent : Nat} (lower : 2 ^ 52 ≤ part)
    (upper : part < 2 ^ 53) (same : number * 2 ^ 52 = part * 2 ^ exponent) :
    Float.Model.pack (.finite .positive part (exponent - 52) (by omega)) =
      Float.Model.pack (unpacked number) := by
  have leading : part.log2 = 52 := log2_unique lower upper
  have positive : part ≠ 0 := by omega
  have nonzero := ne_zero_of_scaled positive same.symm
  have bits : number.log2 = exponent := by
    have scaled := log2_of_scaled positive same.symm
    omega
  by_cases large : Overflows number
  · have high : 1024 ≤ exponent := bits ▸ large
    have overflows : 2 ^ 11 ≤ exponent + 1023 + 1 := by omega
    rw [unpacked_of_overflows large]
    simp only [Float.Model.pack, UnpackedFloat.pack, biased, if_pos overflows]
  · have exact : significand number = part := by
      rw [significand, same, bits, Nat.mul_div_cancel _ (Nat.two_pow_pos exponent)]
    simp only [unpacked_of_finite nonzero large, exact, bits]

theorem unpack_whole (number : Nat) : (whole number).toModel.unpack = unpacked number := by
  change (Float.Model.pack (unpacked number)).unpack = unpacked number
  by_cases positive : number = 0
  · rw [positive]
    rfl
  by_cases large : Overflows number
  · rw [unpacked_of_overflows large]
    rfl
  · have bounds := significand_bounds positive
    rw [unpacked_of_finite positive large]
    exact unpack_pack_finite bounds.1 bounds.2 (Nat.lt_of_not_le large)

/-- Shifting keeps the bits that rounding needs. -/
theorem shiftRight_exact (mantissa bits : Nat) :
    ExtendedMantissa.ofMantissaAndAccuracy mantissa .exact >>> bits =
      ⟨mantissa / 2 ^ bits, decide (2 ^ bits ≤ 2 * (mantissa % 2 ^ bits)),
        decide (mantissa % 2 ^ bits ≠ 0 ∧ 2 * (mantissa % 2 ^ bits) ≠ 2 ^ bits)⟩ := by
  change bits.repeat ExtendedMantissa.shiftRightOne _ = _
  induction bits with
  | zero => simp [Nat.repeat, ExtendedMantissa.ofMantissaAndAccuracy, Nat.mod_one]
  | succ bits ih =>
    have rest : mantissa % (2 ^ bits * 2) =
        mantissa % 2 ^ bits + 2 ^ bits * (mantissa / 2 ^ bits % 2) := Nat.mod_mul
    have short := Nat.mod_lt mantissa (Nat.two_pow_pos bits)
    simp only [Nat.repeat, ih, ExtendedMantissa.shiftRightOne, Nat.div_div_eq_div_mul,
      Nat.pow_succ, rest, ExtendedMantissa.mk.injEq, true_and]
    generalize mantissa / 2 ^ bits = quotient
    generalize mantissa % 2 ^ bits = remainder at short
    generalize 2 ^ bits = place at short
    rcases Nat.mod_two_eq_zero_or_one quotient with parity | parity
    all_goals
      rw [parity]
      refine ⟨Bool.eq_iff_iff.mpr ?_, Bool.eq_iff_iff.mpr ?_⟩
      all_goals
        simp only [Bool.or_eq_true, decide_eq_true_eq, bne_iff_ne]
        omega

private theorem roundedMantissa_mk (mantissa : Nat) (round sticky : Bool) :
    (ExtendedMantissa.mk mantissa round sticky).roundedMantissa =
      if round then if sticky then mantissa + 1 else mantissa + mantissa % 2 else mantissa := by
  cases round <;> cases sticky <;> rfl

private theorem roundedMantissa_exact (mantissa bits : Nat) :
    (ExtendedMantissa.ofMantissaAndAccuracy mantissa .exact >>> bits).roundedMantissa =
      halfEven mantissa bits := by
  have positive := Nat.two_pow_pos bits
  rw [shiftRight_exact, roundedMantissa_mk, halfEven]
  simp only [decide_eq_true_eq]
  split_ifs <;> omega

/-- The bits beyond fifty-three are shifted out; the exponent follows the leading bit. -/
theorem shiftToTargetExponent_exact {mantissa : Nat} (wide : 2 ^ 52 ≤ mantissa) (exponent : Int)
    (top : Nat) (leading : mantissa.log2 + exponent = top) :
    shiftToTargetExponent Format.binary64 mantissa exponent .exact =
      (ExtendedMantissa.ofMantissaAndAccuracy mantissa .exact >>> excess mantissa,
        (top : Int) - 52) := by
  have enough := (Nat.le_log2 (by omega)).mpr wide
  have target : Format.binary64.targetExponent (totalExponent mantissa exponent) = top - 52 := by
    change max ((mantissa.log2 : Int) + 1 + exponent - 53) (-1074) = _
    omega
  have amount : ((top : Int) - 52 - exponent).toNat = excess mantissa := by
    rw [excess]
    omega
  have raised : exponent + (excess mantissa : Nat) = top - 52 := by
    rw [excess]
    omega
  rw [shiftToTargetExponent, target, shiftToExponent, amount, raised]

private theorem roundWithAccuracy_of_shifts {mantissa rounded : Nat} {exponent middle last : Int}
    {first second : ExtendedMantissa}
    (shift : shiftToTargetExponent Format.binary64 mantissa exponent .exact = (first, middle))
    (kept : first.roundedMantissa = rounded)
    (carry : shiftToTargetExponent Format.binary64 rounded middle .exact = (second, last))
    (positive : 0 < second.mantissa) :
    roundWithAccuracy Format.binary64 .positive mantissa exponent .exact =
      .finite .positive second.mantissa last positive := by
  simp only [roundWithAccuracy, shift, kept, carry]
  rw [dif_neg positive.ne']

/-- Rounding what stands for a whole number gives the double for the nearest one. -/
theorem pack_roundWithAccuracy {mantissa number up down : Nat} (wide : 2 ^ 52 ≤ mantissa)
    (same : mantissa * 2 ^ up = number * 2 ^ down) :
    Float.Model.pack (roundWithAccuracy Format.binary64 .positive mantissa (up - down) .exact) =
      Float.Model.pack (unpacked (nearest number)) := by
  have positive : mantissa ≠ 0 := by omega
  have bits := log2_of_scaled positive same
  have value := halfEven_mul_eq_nearest_mul wide same
  have lower := Nat.le_trans (div_excess_bounds mantissa wide).1
    (div_le_halfEven mantissa (excess mantissa))
  have divides := (exact_of_le (halfEven_excess_le mantissa)).excess_dvd
  have shift := shiftToTargetExponent_exact wide (up - down) number.log2 (by omega)
  have kept := roundedMantissa_exact mantissa (excess mantissa)
  generalize halfEven mantissa (excess mantissa) = rounded at value lower divides kept
  -- Rounding up to the next power of two leaves one more bit, which is zero, to be shifted out.
  have enough := (Nat.le_log2 (by omega)).mpr lower
  have leading : rounded.log2 = 52 + excess rounded := by
    rw [excess]
    omega
  have carry := shiftToTargetExponent_exact lower (number.log2 - 52)
    (number.log2 + excess rounded) (by omega)
  have part : (ExtendedMantissa.ofMantissaAndAccuracy rounded .exact >>>
      excess rounded).mantissa = rounded / 2 ^ excess rounded :=
    congrArg ExtendedMantissa.mantissa (shiftRight_exact rounded (excess rounded))
  have bounds := div_excess_bounds rounded lower
  rw [← part] at bounds
  rw [roundWithAccuracy_of_shifts shift kept carry (by omega)]
  apply pack_finite bounds.1 bounds.2
  rw [← value, part, Nat.add_comm, Nat.pow_add, ← Nat.mul_assoc, Nat.div_mul_cancel divides]

private theorem pack_round {mantissa number up down : Nat} (positive : mantissa ≠ 0)
    (same : mantissa * 2 ^ up = number * 2 ^ down) (whole : down ≤ mantissa.log2 + up) :
    Float.Model.pack (UnpackedFloat.round Format.binary64 .positive mantissa (up - down)) =
      Float.Model.pack (unpacked (nearest number)) := by
  have target : Format.binary64.targetExponent (totalExponent mantissa (up - down)) =
      mantissa.log2 + (up - down) - 52 := by
    change max ((mantissa.log2 : Int) + 1 + (up - down) - 53) (-1074) = _
    omega
  have amount : ((up : Int) - down - (mantissa.log2 + (up - down) - 52)).toNat =
      52 - mantissa.log2 := by omega
  have lowered : (up : Int) - down - (52 - mantissa.log2 : Nat) =
      up - (down + (52 - mantissa.log2) : Nat) := by omega
  simp only [UnpackedFloat.round, target, decreaseExponent, amount, lowered, Nat.shiftLeft_eq]
  apply pack_roundWithAccuracy
  · have filled := Nat.mul_le_mul_right (2 ^ (52 - mantissa.log2)) (Nat.log2_self_le positive)
    rw [← Nat.pow_add] at filled
    exact Nat.le_trans (Nat.pow_le_pow_right (by omega) (by omega)) filled
  · rw [Nat.mul_right_comm, same, Nat.mul_assoc, ← Nat.pow_add]

theorem pack_normalize {mantissa number up down : Nat} (positive : mantissa ≠ 0)
    (same : mantissa * 2 ^ up = number * 2 ^ down) (whole : down ≤ mantissa.log2 + up) :
    Float.Model.pack (UnpackedFloat.normalize Format.binary64 mantissa (up - down) .positive) =
      Float.Model.pack (unpacked (nearest number)) := by
  have order : compare (mantissa : Int) 0 = .gt := by
    rw [Int.compare_eq_gt]
    omega
  rw [UnpackedFloat.normalize, order]
  exact pack_round positive same whole

/-- Two summands are brought to the smaller exponent. -/
theorem add_finite {part other top height : Nat} (positive : 0 < part) (nonzero : 0 < other) :
    UnpackedFloat.add Format.binary64 (.finite .positive part (top - 52) positive)
        (.finite .positive other (height - 52) nonzero) =
      UnpackedFloat.normalize Format.binary64
        (part * 2 ^ (top - min top height) + other * 2 ^ (height - min top height) : Nat)
        ((min top height : Nat) - (52 : Nat)) .positive := by
  have least : min ((top : Int) - 52) (height - 52) = (min top height : Nat) - (52 : Nat) := by
    omega
  have shift (exponent : Nat) :
      ((exponent : Int) - 52 - ((min top height : Nat) - (52 : Nat))).toNat =
        exponent - min top height := by omega
  simp only [UnpackedFloat.add, decreaseExponent, least, shift, Nat.shiftLeft_eq]
  rfl

section Arithmetic

variable {first second : Nat} (exact : Exact first)

include exact

theorem Exact.significand_mul : significand first * 2 ^ first.log2 = first * 2 ^ 52 := by
  have divides : 2 ^ first.log2 ∣ first * 2 ^ 52 := by
    rcases Nat.le_total first.log2 52 with short | long
    · exact Nat.dvd_mul_left_of_dvd (Nat.pow_dvd_pow 2 short) first
    · have split : first.log2 = excess first + 52 := by
        rw [excess]
        omega
      rw [split, Nat.pow_add]
      exact Nat.mul_dvd_mul exact.excess_dvd (Nat.dvd_refl _)
  rw [significand, Nat.div_mul_cancel divides]

theorem whole_mul (bits : Nat) (small : bits < 1024) :
    whole first * whole (2 ^ bits) = whole (first * 2 ^ bits) := by
  have power : unpacked (2 ^ bits) = .finite .positive (2 ^ 52) (bits - 52) (by decide) := by
    have leading : (2 ^ bits).log2 = bits := Nat.log2_two_pow
    have fits : ¬Overflows (2 ^ bits) := by
      rw [Overflows, leading]
      omega
    have part : significand (2 ^ bits) = 2 ^ 52 := by
      rw [significand, leading, Nat.mul_div_cancel_left _ (Nat.two_pow_pos bits)]
    simp only [unpacked_of_finite (Nat.two_pow_pos bits).ne' fits, leading, part]
  change Float.ofModel (.pack (UnpackedFloat.mul Format.binary64 (whole first).toModel.unpack
    (whole (2 ^ bits)).toModel.unpack)) = Float.ofModel (.pack (unpacked (first * 2 ^ bits)))
  rw [unpack_whole, unpack_whole, power]
  by_cases positive : first = 0
  · rw [positive, Nat.zero_mul]
    rfl
  by_cases large : Overflows first
  · have grown := large.mono (Nat.le_mul_of_pos_right first (Nat.two_pow_pos bits))
    rw [unpacked_of_overflows large, unpacked_of_overflows grown]
    rfl
  · have exponents : (first.log2 : Int) - 52 + (bits - 52) =
        (first.log2 + bits : Nat) - (104 : Nat) := by omega
    have bounds := significand_bounds positive
    have product : significand first * 2 ^ 52 * 2 ^ (first.log2 + bits) =
        first * 2 ^ bits * 2 ^ 104 := by
      rw [Nat.pow_add, Nat.mul_right_comm, ← Nat.mul_assoc, exact.significand_mul]
      ring
    have rounded := pack_roundWithAccuracy (by omega) product
    rw [nearest_of_exact (exact.mul_two_pow bits), ← exponents] at rounded
    rw [unpacked_of_finite positive large]
    exact congrArg Float.ofModel rounded

theorem whole_add (other : Exact second) (small : ¬Overflows second) :
    whole first + whole second = whole (nearest (first + second)) := by
  change Float.ofModel (.pack (UnpackedFloat.add Format.binary64 (whole first).toModel.unpack
    (whole second).toModel.unpack)) = Float.ofModel (.pack (unpacked (nearest (first + second))))
  rw [unpack_whole, unpack_whole]
  by_cases absent : second = 0
  · have none : unpacked 0 = .zero .positive := rfl
    rw [absent, Nat.add_zero, nearest_of_exact exact, none]
    unfold unpacked
    split_ifs <;> rfl
  by_cases positive : first = 0
  · rw [positive, Nat.zero_add, nearest_of_exact other, unpacked_of_finite absent small]
    rfl
  rw [unpacked_of_finite absent small]
  by_cases large : Overflows first
  · have sum := (large.mono (Nat.le_add_right first second)).nearest
    rw [unpacked_of_overflows large, unpacked_of_overflows sum]
    rfl
  · rw [unpacked_of_finite positive large, add_finite]
    have bounds := significand_bounds positive
    have filled := Nat.le_mul_of_pos_right (significand first)
      (Nat.two_pow_pos (first.log2 - min first.log2 second.log2))
    have sum : (significand first * 2 ^ (first.log2 - min first.log2 second.log2) +
        significand second * 2 ^ (second.log2 - min first.log2 second.log2)) *
          2 ^ min first.log2 second.log2 = (first + second) * 2 ^ 52 := by
      rw [Nat.add_mul, Nat.mul_assoc, Nat.mul_assoc, ← Nat.pow_add, ← Nat.pow_add,
        Nat.sub_add_cancel (Nat.min_le_left _ _), Nat.sub_add_cancel (Nat.min_le_right _ _),
        exact.significand_mul, other.significand_mul, Nat.add_mul]
    refine congrArg Float.ofModel (pack_normalize (by omega) sum ?_)
    have enough := (Nat.le_log2 (by omega)).mpr (Nat.le_trans bounds.1 (Nat.le_trans filled
      (Nat.le_add_right _ (significand second * 2 ^ (second.log2 - min first.log2 second.log2)))))
    omega

/-- Different exact numbers have different doubles unless both are infinite. -/
theorem whole_inj (other : Exact second) :
    whole first = whole second ↔ first = second ∨ Overflows first ∧ Overflows second := by
  constructor
  · intro same
    have parts := congrArg (fun value => value.toModel.unpack) same
    simp only [unpack_whole] at parts
    have infinite : unpacked first = .infinity .positive ↔ _ := unpacked_eq_infinity
    have zero : unpacked first = .zero .positive ↔ _ := unpacked_eq_zero
    rw [parts, unpacked_eq_infinity] at infinite
    rw [parts, unpacked_eq_zero] at zero
    by_cases large : Overflows first
    · exact .inr ⟨large, infinite.mpr large⟩
    by_cases none : first = 0
    · exact .inl (none.trans (zero.mpr none).symm)
    rw [unpacked_of_finite none large, unpacked_of_finite (mt zero.mp none)
      (mt infinite.mp large)] at parts
    injection parts with _ significands exponents
    have leading : first.log2 = second.log2 := by omega
    have value := exact.significand_mul
    rw [significands, leading, other.significand_mul] at value
    exact .inl (Nat.mul_right_cancel (Nat.two_pow_pos 52) value.symm)
  · rintro (rfl | ⟨large, huge⟩)
    · rfl
    · rw [whole, whole, unpacked_of_overflows large, unpacked_of_overflows huge]

end Arithmetic

private theorem toFloat_of_lt {number : Nat} (positive : number ≠ 0) (narrow : number < 2 ^ 53) :
    number.toUInt64.toFloat = whole (nearest number) := by
  have same : number.toUInt64.toNat = number := by
    rw [Nat.toUInt64, UInt64.toNat_ofNat']
    omega
  have scaled := pack_normalize positive (Eq.refl (number * 2 ^ 0)) (Nat.zero_le _)
  change Float.ofModel (.pack (UnpackedFloat.normalize Format.binary64
    (number.toUInt64.toNat : Nat) 0 .positive)) = _
  rw [same]
  exact congrArg Float.ofModel scaled

/-- A longer number is multiplied by one at full length and rounded then. -/
theorem pack_ofScientific {number : Nat} (long : 2 ^ 53 ≤ number) :
    Float.Model.pack (UnpackedFloat.ofScientific Format.binary64 number 0) =
      Float.Model.pack (unpacked (nearest number)) := by
  have positive : number ≠ 0 := by omega
  have low : ¬(0 : Int) < -(2 ^ 11 + number.log2) := by omega
  have sign : UnpackedFloat.Sign.positive * .positive = .positive := rfl
  have places : Format.binary64.mantissaBits = 53 := rfl
  have exponent : -((53 : Nat) : Int) + 0 = (0 : Nat) - (53 : Nat) := rfl
  have power : 10 ^ Int.toNat 0 = 1 := rfl
  have wide : 2 ^ 52 ≤ number * 2 ^ 53 := by omega
  rw [UnpackedFloat.ofScientific, dif_neg positive, if_neg (by decide), if_neg low,
    if_pos (Int.le_refl 0), UnpackedFloat.mul, sign, places, exponent, power, Nat.mul_one,
    Nat.shiftLeft_eq]
  exact pack_roundWithAccuracy wide (Nat.mul_one _)

theorem ofNat_eq_whole (number : Nat) : Float.ofNat number = whole (nearest number) := by
  by_cases positive : number = 0
  · rw [positive]
    decide +kernel
  change Float.ofScientific number false 0 = _
  unfold Float.ofScientific
  split
  case isTrue narrow =>
    have one : Float.ofBits 0x3FF0000000000000 = whole (2 ^ 0) := by decide +kernel
    have product := whole_mul (exact_nearest number) 0 (by decide)
    rw [Nat.pow_zero, Nat.mul_one] at product
    change number.toUInt64.toFloat * Float.ofBits 0x3FF0000000000000 = _
    rw [one, toFloat_of_lt positive narrow.1]
    exact product
  case isFalse long =>
    exact congrArg Float.ofModel (pack_ofScientific (by omega))

end EagerLisp.Number
