import Mathlib
import EagerLisp.Number

namespace EagerLisp.Number

open Float.Model

variable {number : Float}

/-- The double is one of the two zeros. -/
def IsZero (unpacked : UnpackedFloat) : Prop :=
  ∃ sign, unpacked = .zero sign

/-- Doubles are equal if they are one and the same and not the one that is not a number, or if they
are zeros. -/
theorem unpacked_beq_iff (first second : UnpackedFloat) : first.beq second = true ↔
    first.isNaN = false ∧ (first = second ∨ IsZero first ∧ IsZero second) := by
  simp only [IsZero, UnpackedFloat.beq]
  cases first with
  | notANumber => simp [UnpackedFloat.compare, UnpackedFloat.isNaN]
  | infinity sign =>
    cases second with
    | infinity twin =>
      cases sign <;> cases twin <;> simp [UnpackedFloat.compare, UnpackedFloat.isNaN] <;> decide
    | _ => cases sign <;> simp [UnpackedFloat.compare, UnpackedFloat.isNaN]
  | zero sign =>
    cases second with
    | infinity twin => cases twin <;> simp [UnpackedFloat.compare, UnpackedFloat.isNaN]
    | finite twin => cases twin <;> simp [UnpackedFloat.compare, UnpackedFloat.isNaN]
    | _ => simp [UnpackedFloat.compare, UnpackedFloat.isNaN]
  | finite sign =>
    cases second with
    | infinity twin =>
      cases sign <;> cases twin <;> simp [UnpackedFloat.compare, UnpackedFloat.isNaN]
    | finite twin =>
      cases sign <;> cases twin <;>
        simp [UnpackedFloat.compare, UnpackedFloat.isNaN, Ordering.then_eq_eq, and_comm]
    | _ => cases sign <;> simp [UnpackedFloat.compare, UnpackedFloat.isNaN]

theorem beq_iff (first second : Float) : (first == second) = true ↔
    first.isNaN = false ∧ (first.toModel.unpack = second.toModel.unpack ∨
      IsZero first.toModel.unpack ∧ IsZero second.toModel.unpack) :=
  unpacked_beq_iff first.toModel.unpack second.toModel.unpack

private theorem isNaN_of_isZero (zero : IsZero number.toModel.unpack) : number.isNaN = false := by
  obtain ⟨sign, same⟩ := zero
  change number.toModel.unpack.isNaN = false
  rw [same]
  rfl

theorem beq_symm {first second : Float} (same : (first == second) = true) :
    (second == first) = true := by
  obtain ⟨known, one | ⟨zero, other⟩⟩ := (beq_iff first second).mp same
  · refine (beq_iff second first).mpr ⟨?_, .inl one.symm⟩
    change second.toModel.unpack.isNaN = false
    rw [← one]
    exact known
  · exact (beq_iff second first).mpr ⟨isNaN_of_isZero other, .inr ⟨other, zero⟩⟩

theorem beq_comm (first second : Float) : (first == second) = (second == first) :=
  Bool.eq_iff_iff.mpr ⟨beq_symm, beq_symm⟩

theorem beq_trans {first second third : Float} (left : (first == second) = true)
    (right : (second == third) = true) : (first == third) = true := by
  obtain ⟨known, one⟩ := (beq_iff first second).mp left
  obtain ⟨_, other⟩ := (beq_iff second third).mp right
  refine (beq_iff first third).mpr ⟨known, ?_⟩
  rcases one with same | ⟨zero, middle⟩
  · rwa [same]
  · rcases other with same | ⟨_, last⟩
    · exact .inr ⟨zero, same ▸ middle⟩
    · exact .inr ⟨zero, last⟩

theorem beq_self_iff : (number == number) = true ↔ number.isNaN = false :=
  (beq_iff number number).trans (and_iff_left (.inl rfl))

/-- A double is nothing but its bits. -/
theorem eq_of_toBits {first second : Float}
    (same : first.toBits.toNat = second.toBits.toNat) : first = second := by
  obtain ⟨⟨bits, valid⟩⟩ := first
  obtain ⟨⟨twin, validTwin⟩⟩ := second
  obtain rfl : bits = twin := UInt64.toNat_inj.mp same
  rfl

private theorem fields_of_infinite (known : number.isNaN = false)
    (infinite : number.isFinite = false) :
    exponentField number.toBits.toNat = 2047 ∧ fractionField number.toBits.toNat = 0 := by
  let unpacked := UnpackedFloat.unpack Format.binary64 number.toBits.toBitVec
  have known : unpacked.isNaN = false := known
  have infinite : unpacked.isFinite = false := infinite
  simp only [unpacked, UnpackedFloat.unpack] at known infinite
  split at infinite
  case isTrue full =>
    rw [if_pos full] at known
    split at known
    case isTrue empty =>
      have exponent := congrArg BitVec.toNat full
      have fraction := congrArg BitVec.toNat empty
      constructor
      · simpa [UnpackedFloat.unpackExponent, exponentField, Nat.shiftRight_eq_div_pow] using
          exponent
      · simpa [UnpackedFloat.unpackMantissa, fractionField] using fraction
    case isFalse => simp [UnpackedFloat.isNaN] at known
  case isFalse =>
    split at infinite
    · split at infinite <;> simp [UnpackedFloat.isFinite] at infinite
    · simp [UnpackedFloat.isFinite] at infinite

private theorem eq_infinity (known : number.isNaN = false) (infinite : number.isFinite = false) :
    number = 1 / 0 ∨ number = -(1 / 0) := by
  obtain ⟨exponent, fraction⟩ := fields_of_infinite known infinite
  have bound := number.toBits.toNat_lt
  have positive : (1 / 0 : Float).toBits.toNat = 2047 * 2 ^ 52 := by decide +kernel
  have negative : (-(1 / 0) : Float).toBits.toNat = 2 ^ 63 + 2047 * 2 ^ 52 := by decide +kernel
  simp only [exponentField, fractionField, Nat.pow_eq] at exponent fraction
  -- The sign is the one bit that the fields leave open.
  have sign : number.toBits.toNat = 2047 * 2 ^ 52 ∨
      number.toBits.toNat = 2 ^ 63 + 2047 * 2 ^ 52 := by
    omega
  rcases sign with same | same
  · exact .inl (eq_of_toBits (same.trans positive.symm))
  · exact .inr (eq_of_toBits (same.trans negative.symm))

theorem ofText?_text_of_infinite (known : number.isNaN = false)
    (infinite : number.isFinite = false) : ofText? (text number) = some number := by
  rcases eq_infinity known infinite with rfl | rfl <;> decide +kernel

end EagerLisp.Number
