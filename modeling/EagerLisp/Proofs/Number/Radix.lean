import Mathlib.Data.List.Induction
import EagerLisp.Proofs.Number.Grammar
import EagerLisp.Proofs.Number.Whole

/-! The value of a whole number by the base that it is written to. A decimal is rounded once. Digits
behind a marker are added one by one: the total is exact while it has fifty-three bits, the first
longer total is rounded, and no later digit can change more than the zeros behind it. The two ways
differ if the first longer total is a tie that goes down and a later digit is not zero. -/
namespace EagerLisp.Number

/-- A text of digits to a base writes a whole number. -/
inductive Writes (radix : Nat) : List Char → Nat → Prop where
  | nil : Writes radix [] 0
  | snoc {text : List Char} {number digit : Nat} {c : Char} (front : Writes radix text number)
      (read : digit? radix c = some digit) : Writes radix (text ++ [c]) (number * radix + digit)

theorem writes_of_digits? {radix number : Nat} {text : List Char} {digits : List Nat}
    (read : digits? radix text = some digits)
    (total : digits.foldl (fun total digit => total * radix + digit) 0 = number) :
    Writes radix text number := by
  subst total
  induction text using List.reverseRecOn generalizing digits with
  | nil =>
    cases read
    exact .nil
  | append_singleton front c ih =>
    simp only [digits?, List.mapM_append, List.mapM_cons, List.mapM_nil, Option.bind_eq_bind,
      Option.bind_eq_some_iff, Option.pure_def, Option.some.injEq] at read
    obtain ⟨before, first, _, ⟨digit, last, _, rfl, rfl⟩, rfl⟩ := read
    rw [List.foldl_append]
    exact .snoc (ih first) last

/-- The first total of more than fifty-three bits is halfway above an even neighbour, and a digit
behind it is not zero. -/
def BreaksTieLate (radix number : Nat) : Prop :=
  ∃ places, 2 ^ 53 ≤ number / radix ^ places ∧ number / radix ^ places < 2 ^ 53 * radix ∧
    Halfway (number / radix ^ places) ∧ number % radix ^ places ≠ 0

/-- The first fifty-three bits of a number with zeros behind them. -/
def truncated (number : Nat) : Nat :=
  number / 2 ^ excess number * 2 ^ excess number

/-- What comes of adding the digits of a number one by one, a fixed number of bits at a time. -/
structure Stepwise (bits number : Nat) (value : Float) : Prop where
  small : number < 2 ^ 53 → value = whole number
  large (places : Nat) : 2 ^ 53 ≤ number / 2 ^ (bits * places) →
    number / 2 ^ (bits * places) < 2 ^ (53 + bits) →
      value = whole (nearest (number / 2 ^ (bits * places)) * 2 ^ (bits * places))

theorem ofNat_eq_whole_of_lt {number : Nat} (narrow : number < 2 ^ 53) :
    Float.ofNat number = whole number := by
  rw [ofNat_eq_whole, nearest_of_lt narrow]

private theorem stepwise_zero (bits : Nat) : Stepwise bits 0 0 := by
  refine ⟨fun _ => ofNat_eq_whole_of_lt (by decide), fun places lower _ => ?_⟩
  rw [Nat.zero_div] at lower
  exact absurd lower (by decide)

section Step

variable {bits number digit : Nat} {value : Float}

private theorem Stepwise.step (stepwise : Stepwise bits number value) (few : bits < 53)
    (fits : digit < 2 ^ bits) :
    Stepwise bits (number * 2 ^ bits + digit)
      (value * Float.ofNat (2 ^ bits) + Float.ofNat digit) := by
  have short : 2 ^ bits < 2 ^ 53 := Nat.pow_lt_pow_right (by decide) few
  have narrow : digit < 2 ^ 53 := Nat.lt_trans fits short
  have added {total : Nat} (exact : Exact total) :
      whole total * Float.ofNat (2 ^ bits) + Float.ofNat digit =
        whole (nearest (total * 2 ^ bits + digit)) := by
    rw [ofNat_eq_whole_of_lt short, ofNat_eq_whole_of_lt narrow, whole_mul exact bits (by omega),
      whole_add (exact.mul_two_pow bits) (exact_of_le narrow.le) (not_overflows_of_lt narrow)]
  have scaled := Nat.le_mul_of_pos_right number (Nat.two_pow_pos bits)
  constructor
  · intro small
    rw [stepwise.small (by omega), added (exact_of_le (by omega)), nearest_of_lt small]
  · intro places lower upper
    cases places with
    | zero =>
      simp only [Nat.mul_zero, Nat.pow_zero, Nat.div_one, Nat.mul_one] at lower upper ⊢
      have before : number < 2 ^ 53 := by
        rw [Nat.pow_add] at upper
        exact Nat.lt_of_mul_lt_mul_right (Nat.lt_of_le_of_lt (Nat.le_add_right _ digit) upper)
      rw [stepwise.small before, added (exact_of_le before.le)]
    | succ places =>
      rw [Nat.mul_succ, div_append number _ fits] at lower upper ⊢
      have exact := (exact_nearest (number / 2 ^ (bits * places))).mul_two_pow (bits * places)
      have long : 2 ^ 53 ≤ nearest (number / 2 ^ (bits * places)) * 2 ^ (bits * places) :=
        Nat.le_trans (two_pow_le_nearest lower)
          (Nat.le_mul_of_pos_right _ (Nat.two_pow_pos (bits * places)))
      rw [stepwise.large places lower upper, added exact, nearest_append_of_exact long exact fits,
        Nat.mul_assoc, ← Nat.pow_add]

end Step

/-- A long number has a first total of more than fifty-three bits. -/
theorem exists_first_long {bits : Nat} (several : bits ≠ 0) (number : Nat)
    (long : 2 ^ 53 ≤ number) : ∃ places, 2 ^ 53 ≤ number / 2 ^ (bits * places) ∧
      number / 2 ^ (bits * places) < 2 ^ (53 + bits) := by
  induction number using Nat.strongRecOn with
  | ind number ih =>
    rcases Nat.lt_or_ge number (2 ^ (53 + bits)) with short | longer
    · exact ⟨0, by simpa using long, by simpa using short⟩
    · rw [Nat.pow_add] at longer
      have still : 2 ^ 53 ≤ number / 2 ^ bits :=
        (Nat.le_div_iff_mul_le (Nat.two_pow_pos bits)).mpr longer
      have less : number / 2 ^ bits < number :=
        Nat.div_lt_self (by omega) (Nat.one_lt_two_pow several)
      obtain ⟨places, lower, upper⟩ := ih _ less still
      rw [Nat.div_div_eq_div_mul, ← Nat.pow_add, Nat.add_comm, ← Nat.mul_succ] at lower upper
      exact ⟨places + 1, lower, upper⟩

section Compare

variable {number places : Nat}

/-- Rounding the front of a number and the whole of it gives one double unless a tie that goes down
is broken late in a number of at most 1024 bits. -/
theorem whole_front_iff (long : 2 ^ 53 ≤ number / 2 ^ places) :
    whole (nearest (number / 2 ^ places) * 2 ^ places) = whole (nearest number) ↔
      ¬(¬Overflows number ∧ Halfway (number / 2 ^ places) ∧ number % 2 ^ places ≠ 0) := by
  have fits := Nat.mod_lt number (Nat.two_pow_pos places)
  have split := Nat.div_add_mod' number (2 ^ places)
  have agree := nearest_append_iff long fits
  rw [split] at agree
  have positive : number / 2 ^ places ≠ 0 := by omega
  have leading := log2_append (number / 2 ^ places) fits positive
  rw [split] at leading
  have infinite (large : Overflows number) :
      Overflows (nearest (number / 2 ^ places) * 2 ^ places) := by
    have front : Overflows (number / 2 ^ places * 2 ^ places) := by
      rw [Overflows, log2_mul_two_pow positive, ← leading]
      exact large
    have zeros := (nearest_append_iff long (Nat.two_pow_pos places)).mpr (by simp)
    rw [Nat.add_zero] at zeros
    rw [← zeros]
    exact front.nearest
  have finite (tie : Halfway (number / 2 ^ places))
      (large : Overflows (nearest (number / 2 ^ places) * 2 ^ places)) : Overflows number := by
    have down := Nat.mul_le_mul_right (2 ^ places) (nearest_lt_of_halfway long tie).le
    exact large.mono (by omega)
  rw [whole_inj ((exact_nearest _).mul_two_pow places) (exact_nearest number), eq_comm, agree]
  constructor
  · rintro (exact | ⟨front, _⟩) ⟨small, tie, late⟩
    · exact exact ⟨tie, late⟩
    · exact small (finite tie front)
  · intro other
    by_cases large : Overflows number
    · exact .inr ⟨infinite large, large.nearest⟩
    · exact .inl fun late => other ⟨large, late⟩

/-- A tie that goes down leaves the first bits as they are. -/
theorem nearest_front_of_halfway (long : 2 ^ 53 ≤ number / 2 ^ places)
    (tie : Halfway (number / 2 ^ places)) :
    nearest (number / 2 ^ places) * 2 ^ places = truncated number := by
  have fits := Nat.mod_lt number (Nat.two_pow_pos places)
  have wide : 2 ^ 52 ≤ number / 2 ^ places := by omega
  have bits := excess_append wide fits
  rw [Nat.div_add_mod'] at bits
  obtain ⟨tied, even⟩ := (halfway_iff long).mp tie
  rw [nearest, halfEven, if_neg (Nat.not_lt_of_le tied.ge), if_pos tied, even, Nat.add_zero,
    truncated, bits, Nat.div_div_eq_div_mul, ← Nat.pow_add, Nat.mul_assoc, ← Nat.pow_add,
    Nat.add_comm places]

end Compare

section Stepwise

variable {bits number : Nat} {value : Float} (stepwise : Stepwise bits number value)

include stepwise

/-- The digits of a number add up to the nearest double unless they break a tie too late. -/
theorem Stepwise.eq_ofNat_iff (several : bits ≠ 0) :
    value = Float.ofNat number ↔ ¬(¬Overflows number ∧ BreaksTieLate (2 ^ bits) number) := by
  simp only [BreaksTieLate, ← Nat.pow_mul, ← Nat.pow_add]
  rw [ofNat_eq_whole]
  constructor
  · rintro same ⟨small, places, lower, upper, tie, late⟩
    rw [stepwise.large places lower upper, whole_front_iff lower] at same
    exact same ⟨small, tie, late⟩
  · intro other
    rcases Nat.lt_or_ge number (2 ^ 53) with short | long
    · rw [stepwise.small short, nearest_of_lt short]
    · obtain ⟨places, lower, upper⟩ := exists_first_long several number long
      rw [stepwise.large places lower upper, whole_front_iff lower]
      exact fun ⟨small, tie, late⟩ => other ⟨small, places, lower, upper, tie, late⟩

private theorem Stepwise.eq_truncated (breaks : BreaksTieLate (2 ^ bits) number) :
    value = Float.ofNat (truncated number) := by
  simp only [BreaksTieLate, ← Nat.pow_mul, ← Nat.pow_add] at breaks
  obtain ⟨places, lower, upper, tie, _⟩ := breaks
  have front := nearest_front_of_halfway lower tie
  have exact := (exact_nearest (number / 2 ^ (bits * places))).mul_two_pow (bits * places)
  rw [front] at exact
  rw [stepwise.large places lower upper, front, ofNat_eq_whole, nearest_of_exact exact]

end Stepwise

private theorem lt_of_digit? {radix digit : Nat} {c : Char} (read : digit? radix c = some digit) :
    digit < radix := by
  have bound := (Option.filter_eq_some_iff.mp read).2
  exact of_decide_eq_true bound

private theorem Writes.stepwise {bits number : Nat} {text : List Char}
    (written : Writes (2 ^ bits) text number) (few : bits < 53) :
    ∃ digits, digits? (2 ^ bits) text = some digits ∧
      Stepwise bits number (Literal.based (2 ^ bits) digits).value := by
  induction written with
  | nil => exact ⟨[], rfl, stepwise_zero bits⟩
  | @snoc text number digit c front read ih =>
    obtain ⟨digits, before, stepwise⟩ := ih
    refine ⟨digits ++ [digit], ?_, ?_⟩
    · rw [digits?] at before ⊢
      simp [List.mapM_append, before, read]
    · simp only [Literal.value, List.foldl_append, List.foldl_cons, List.foldl_nil]
      exact stepwise.step few (lt_of_digit? read)

private theorem isDigit_of_digit? {c : Char} {digit : Nat} (read : digit? 10 c = some digit) :
    c.isDigit = true ∧ digit = c.toNat - '0'.toNat := by
  obtain ⟨value, bound⟩ := Option.filter_eq_some_iff.mp read
  have small : digit < 10 := of_decide_eq_true bound
  split at value
  case isTrue decimal =>
    cases value
    exact ⟨decimal, rfl⟩
  case isFalse =>
    split_ifs at value
    all_goals
      cases value
      omega

private theorem Writes.decimal {number : Nat} {text : List Char} (written : Writes 10 text number) :
    (∀ c ∈ text, c ∈ alphabet 10) ∧ ofDigits text = number := by
  induction written with
  | nil => exact ⟨by simp, rfl⟩
  | @snoc text number digit c front read ih =>
    obtain ⟨each, rfl⟩ := ih
    obtain ⟨decimal, rfl⟩ := isDigit_of_digit? read
    constructor
    · intro other member
      rcases List.mem_append.mp member with before | last
      · exact each other before
      · rw [List.mem_singleton.mp last]
        exact (isDigit_iff c).mp decimal
    · rw [ofDigits, List.foldl_append, Nat.mul_comm]
      rfl

private theorem literal?_of_digits {text : List Char} (digits : Digits 10 text) :
    literal? text = some (.decimal false (ofDigits text) 0) := by
  have unsigned : splitSign text = (false, text) := splitSign_append .absent digits.not_sign
  have notWord : text ≠ "Infinity".toList := by
    rintro rfl
    exact absurd (digits.each 'I' (by decide)) (by decide)
  have spans : (text ++ []).span Char.isDigit = (text, []) := span_append digits.each (by simp)
  rw [List.append_nil] at spans
  rw [literal?_eq_signed? fun c member => isDecimal_of_mem (digits.each c member), signed?,
    unsigned]
  simp only [if_neg notWord, decimal?, spans]
  rw [if_neg (by simp [digits.begun])]
  simp [exponent?]

private theorem ofText?_decimal {number : Nat} {text : List Char} (written : Writes 10 text number)
    (begun : text ≠ []) : ofText? (String.ofList text) = some (Float.ofNat number) := by
  obtain ⟨each, value⟩ := written.decimal
  rw [ofText?, String.toList_ofList, literal?_of_digits ⟨begun, each⟩, value]
  rfl

/-- Digits behind a marker are read, and their value is the nearest double as well, unless the
number has at most 1024 bits and its digits break a tie too late. Then it is the double below. -/
theorem based_eq_decimal_iff {marker : Char} {radix number : Nat}
    (marked : Marker marker radix) {text plain : List Char} (based : Writes radix text number)
    (begun : text ≠ []) (decimal : Writes 10 plain number) (nonempty : plain ≠ []) :
    ∃ value, ofText? (String.ofList ('0' :: marker :: text)) = some value ∧
      ofText? (String.ofList plain) = some (Float.ofNat number) ∧
        (value = Float.ofNat number ↔ ¬(¬Overflows number ∧ BreaksTieLate radix number)) ∧
          (BreaksTieLate radix number → value = Float.ofNat (truncated number)) := by
  obtain ⟨bits, rfl, several, few⟩ : ∃ bits, radix = 2 ^ bits ∧ bits ≠ 0 ∧ bits < 53 := by
    cases marked
    · exact ⟨4, rfl, by decide, by decide⟩
    · exact ⟨4, rfl, by decide, by decide⟩
    · exact ⟨3, rfl, by decide, by decide⟩
    · exact ⟨3, rfl, by decide, by decide⟩
    · exact ⟨1, rfl, by decide, by decide⟩
    · exact ⟨1, rfl, by decide, by decide⟩
  obtain ⟨digits, read, stepwise⟩ := based.stepwise few
  refine ⟨(Literal.based (2 ^ bits) digits).value, ?_, ofText?_decimal decimal nonempty, ?_, ?_⟩
  · rw [ofText?, String.toList_ofList, literal?_of_marker marked, based?,
      if_neg (by simpa using begun), read]
    rfl
  · exact stepwise.eq_ofNat_iff several
  · exact stepwise.eq_truncated

/-- The number thirty-one has one value to both bases. -/
theorem based_eq_decimal_at_thirty_one :
    Writes 16 "1F".toList 31 ∧ Writes 10 "31".toList 31 ∧ ofText? "0x1F" = ofText? "31" := by
  have based : Writes 16 "1F".toList 31 := writes_of_digits? rfl rfl
  have decimal : Writes 10 "31".toList 31 := writes_of_digits? rfl rfl
  obtain ⟨value, hexadecimal, plain, same, _⟩ := based_eq_decimal_iff .lowerHexadecimal
    based (by decide) decimal (by decide)
  have early : ¬BreaksTieLate 16 31 := by
    rintro ⟨places, lower, _⟩
    have short := Nat.div_le_self 31 (16 ^ places)
    omega
  refine ⟨based, decimal, ?_⟩
  rw [same.mpr fun ⟨_, late⟩ => early late] at hexadecimal
  exact hexadecimal.trans plain.symm

/-- The number two to the power 57 and seventeen has two values: its first fourteen digits to base
sixteen are a tie that goes down, and the last one is not zero. -/
theorem based_ne_decimal_of_late_tie :
    Writes 16 "200000000000011".toList 144115188075855889 ∧
      Writes 10 "144115188075855889".toList 144115188075855889 ∧
        ofText? "0x200000000000011" ≠ ofText? "144115188075855889" :=
  ⟨writes_of_digits? rfl rfl, writes_of_digits? rfl rfl, by decide +kernel⟩

end EagerLisp.Number
