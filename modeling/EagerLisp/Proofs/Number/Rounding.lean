import Mathlib.Data.Nat.Log
import Mathlib.Tactic.Ring

/-! Rounding whole numbers to fifty-three significant bits, to nearest with ties to even. Bits that
are dropped before rounding change the result only if what is left is a tie. -/
namespace EagerLisp.Number

/-- A number without its last bits, rounded to nearest with ties to even. -/
def halfEven (number bits : Nat) : Nat :=
  if 2 * (number % 2 ^ bits) < 2 ^ bits then number / 2 ^ bits
  else if 2 * (number % 2 ^ bits) = 2 ^ bits then number / 2 ^ bits + number / 2 ^ bits % 2
  else number / 2 ^ bits + 1

/-- How many bits a number has beyond fifty-three. -/
def excess (number : Nat) : Nat :=
  number.log2 - 52

/-- The nearest number of fifty-three significant bits. -/
def nearest (number : Nat) : Nat :=
  halfEven number (excess number) * 2 ^ excess number

/-- A number of at most fifty-three significant bits. -/
def Exact (number : Nat) : Prop :=
  ∃ significand < 2 ^ 53, ∃ bits, number = significand * 2 ^ bits

/-- A number halfway between two neighbours of fifty-three significant bits, the lower of which is
the even one. -/
def Halfway (number : Nat) : Prop :=
  ∃ half, 2 ^ 51 ≤ half ∧ half < 2 ^ 52 ∧ ∃ bits, number = (4 * half + 1) * 2 ^ bits

theorem log2_unique {number bits : Nat} (lower : 2 ^ bits ≤ number)
    (upper : number < 2 ^ (bits + 1)) : number.log2 = bits := by
  have positive : number ≠ 0 := Nat.ne_of_gt (Nat.lt_of_lt_of_le (Nat.two_pow_pos bits) lower)
  exact (Nat.log2_eq_iff positive).mpr ⟨lower, upper⟩

section Append

variable (number bits : Nat) {more behind : Nat} (fits : behind < 2 ^ more)

include fits

theorem div_append : (number * 2 ^ more + behind) / 2 ^ (bits + more) = number / 2 ^ bits := by
  have front : (number * 2 ^ more + behind) / 2 ^ more = number := by
    rw [Nat.add_comm, Nat.add_mul_div_right _ _ (Nat.two_pow_pos more),
      Nat.div_eq_of_lt fits, Nat.zero_add]
  rw [Nat.add_comm bits, Nat.pow_add, ← Nat.div_div_eq_div_mul, front]

theorem mod_append : (number * 2 ^ more + behind) % 2 ^ (bits + more) =
    behind + 2 ^ more * (number % 2 ^ bits) := by
  have front : (number * 2 ^ more + behind) / 2 ^ more = number := by
    simpa using div_append number 0 fits
  rw [Nat.add_comm bits, Nat.pow_add, Nat.mod_mul, front, Nat.mul_add_mod_of_lt fits]

theorem log2_append (positive : number ≠ 0) :
    (number * 2 ^ more + behind).log2 = number.log2 + more := by
  have lower := Nat.mul_le_mul_right (2 ^ more) (Nat.log2_self_le positive)
  have upper := Nat.mul_le_mul_right (2 ^ more) (Nat.succ_le_of_lt (@Nat.lt_log2_self number))
  apply log2_unique
  · rw [Nat.pow_add]
    omega
  · rw [Nat.succ_mul, ← Nat.pow_add] at upper
    rw [Nat.add_right_comm]
    omega

/-- Bits behind the last ones change nothing but a tie. -/
theorem halfEven_append
    (untied : behind = 0 ∨ bits ≠ 0 ∧ 2 * (number % 2 ^ bits) ≠ 2 ^ bits) :
    halfEven (number * 2 ^ more + behind) (bits + more) = halfEven number bits := by
  rw [halfEven, halfEven, div_append number bits fits, mod_append number bits fits]
  cases bits with
  | zero =>
    have none : behind = 0 := untied.resolve_right fun ⟨several, _⟩ => several rfl
    have whole : number % 2 ^ 0 = 0 := Nat.mod_one number
    rw [none, whole]
    simp
  | succ bits =>
    -- Both numbers are compared with the half of the last place, which is a whole number.
    generalize number % 2 ^ (bits + 1) = rest at untied ⊢
    have wide : 2 ^ (bits + 1 + more) = 2 * (2 ^ more * 2 ^ bits) := by ring
    have narrow : 2 ^ (bits + 1) = 2 * 2 ^ bits := by ring
    rw [narrow] at untied ⊢
    rw [wide]
    rcases Nat.lt_trichotomy rest (2 ^ bits) with lower | rfl | upper
    · have scaled := Nat.mul_le_mul_left (2 ^ more) (Nat.succ_le_of_lt lower)
      rw [Nat.mul_succ] at scaled
      rw [if_pos (by omega), if_pos (by omega)]
    · have none : behind = 0 := untied.resolve_right fun ⟨_, other⟩ => other rfl
      rw [none, Nat.zero_add]
      simp only [Nat.lt_irrefl, if_false, if_true]
    · have scaled := Nat.mul_le_mul_left (2 ^ more) (Nat.succ_le_of_lt upper)
      rw [Nat.mul_succ] at scaled
      rw [if_neg (by omega), if_neg (by omega), if_neg (by omega), if_neg (by omega)]

/-- Bits behind a tie break it. -/
theorem halfEven_append_of_tied (kept : behind ≠ 0) (tied : 2 * (number % 2 ^ bits) = 2 ^ bits) :
    halfEven (number * 2 ^ more + behind) (bits + more) = number / 2 ^ bits + 1 := by
  have above : 2 ^ (bits + more) < 2 * (behind + 2 ^ more * (number % 2 ^ bits)) := by
    have scaled : 2 * (2 ^ more * (number % 2 ^ bits)) = 2 ^ (bits + more) := by
      rw [Nat.mul_left_comm, tied, Nat.pow_add, Nat.mul_comm]
    omega
  rw [halfEven, div_append number bits fits, mod_append number bits fits,
    if_neg (Nat.not_lt_of_lt above), if_neg (Nat.ne_of_gt above)]

end Append

private theorem halfEven_mul_two_pow (number bits more : Nat) :
    halfEven (number * 2 ^ more) (bits + more) = halfEven number bits :=
  halfEven_append number bits (Nat.two_pow_pos more) (.inl rfl)

/-- Rounding depends on the ratio of the number to the last place that is kept. -/
theorem halfEven_of_scaled {first second firstBits secondBits up down : Nat}
    (same : first * 2 ^ up = second * 2 ^ down) (places : firstBits + up = secondBits + down) :
    halfEven first firstBits = halfEven second secondBits := by
  rw [← halfEven_mul_two_pow first firstBits up, same, places, halfEven_mul_two_pow]

theorem halfEven_zero (number : Nat) : halfEven number 0 = number := by
  simp [halfEven, Nat.mod_one]

theorem log2_mul_two_pow {number : Nat} (positive : number ≠ 0) (more : Nat) :
    (number * 2 ^ more).log2 = number.log2 + more :=
  log2_append number (Nat.two_pow_pos more) positive

section Scaled

variable {number other up down : Nat} (positive : number ≠ 0)
  (same : number * 2 ^ up = other * 2 ^ down)

include positive same

theorem ne_zero_of_scaled : other ≠ 0 := by
  rintro rfl
  have scaled := Nat.mul_pos (Nat.pos_of_ne_zero positive) (Nat.two_pow_pos up)
  omega

theorem log2_of_scaled : number.log2 + up = other.log2 + down := by
  rw [← log2_mul_two_pow positive, same, log2_mul_two_pow (ne_zero_of_scaled positive same)]

end Scaled

theorem div_le_halfEven (number bits : Nat) : number / 2 ^ bits ≤ halfEven number bits := by
  rw [halfEven]
  split_ifs <;> omega

private theorem halfEven_le (number bits : Nat) : halfEven number bits ≤ number / 2 ^ bits + 1 := by
  rw [halfEven]
  split_ifs <;> omega

theorem div_excess_bounds (number : Nat) (wide : 2 ^ 52 ≤ number) :
    2 ^ 52 ≤ number / 2 ^ excess number ∧ number / 2 ^ excess number < 2 ^ 53 := by
  have positive : number ≠ 0 := by omega
  have bits : number.log2 = 52 + excess number := by
    have enough := (Nat.le_log2 positive).mpr wide
    rw [excess]
    omega
  have lower := Nat.log2_self_le positive
  have upper := @Nat.lt_log2_self number
  rw [bits, Nat.pow_add] at lower
  rw [bits, Nat.add_right_comm, Nat.pow_add] at upper
  exact ⟨(Nat.le_div_iff_mul_le (Nat.two_pow_pos _)).mpr lower,
    (Nat.div_lt_iff_lt_mul (Nat.two_pow_pos _)).mpr upper⟩

theorem excess_of_lt {number : Nat} (narrow : number < 2 ^ 53) : excess number = 0 := by
  by_cases positive : number = 0
  · rw [positive]
    rfl
  · have bits := (Nat.log2_lt positive).mpr narrow
    rw [excess]
    omega

theorem nearest_of_lt {number : Nat} (narrow : number < 2 ^ 53) : nearest number = number := by
  rw [nearest, excess_of_lt narrow, halfEven_zero, Nat.pow_zero, Nat.mul_one]

theorem excess_append {number more behind : Nat} (wide : 2 ^ 52 ≤ number)
    (fits : behind < 2 ^ more) :
    excess (number * 2 ^ more + behind) = excess number + more := by
  have positive : number ≠ 0 := by omega
  have enough := (Nat.le_log2 positive).mpr wide
  rw [excess, log2_append number fits positive, excess]
  omega

theorem exact_of_le {number : Nat} (narrow : number ≤ 2 ^ 53) : Exact number := by
  rcases Nat.lt_or_eq_of_le narrow with less | rfl
  · exact ⟨number, less, 0, by rw [Nat.pow_zero, Nat.mul_one]⟩
  · exact ⟨1, by decide, 53, (Nat.one_mul _).symm⟩

theorem Exact.mul_two_pow {number : Nat} (exact : Exact number) (more : Nat) :
    Exact (number * 2 ^ more) := by
  obtain ⟨significand, narrow, bits, rfl⟩ := exact
  exact ⟨significand, narrow, bits + more, by rw [Nat.mul_assoc, Nat.pow_add]⟩

/-- A significand has fifty-three bits unless it is rounded up to the next power of two. -/
theorem halfEven_excess_le (number : Nat) : halfEven number (excess number) ≤ 2 ^ 53 := by
  by_cases narrow : number < 2 ^ 53
  · rw [excess_of_lt narrow, halfEven_zero]
    exact narrow.le
  · have bounds := div_excess_bounds number (by omega)
    have rounded := halfEven_le number (excess number)
    omega

theorem exact_nearest (number : Nat) : Exact (nearest number) :=
  (exact_of_le (halfEven_excess_le number)).mul_two_pow _

theorem Exact.excess_dvd {number : Nat} (exact : Exact number) : 2 ^ excess number ∣ number := by
  obtain ⟨significand, narrow, bits, whole⟩ := exact
  have within : excess number ≤ bits := by
    by_cases positive : significand = 0
    · rw [whole, positive, Nat.zero_mul]
      exact Nat.zero_le bits
    · have short := (Nat.log2_lt positive).mpr narrow
      rw [excess, whole, log2_mul_two_pow positive]
      omega
  have divides : 2 ^ bits ∣ number := ⟨significand, by rw [whole, Nat.mul_comm]⟩
  exact Nat.dvd_trans (Nat.pow_dvd_pow 2 within) divides

theorem nearest_of_exact {number : Nat} (exact : Exact number) : nearest number = number := by
  have none := Nat.mod_eq_zero_of_dvd exact.excess_dvd
  rw [nearest, halfEven, none, if_pos (Nat.two_pow_pos _), Nat.div_mul_cancel exact.excess_dvd]

theorem two_pow_le_nearest {number bits : Nat} (le : 2 ^ bits ≤ number) :
    2 ^ bits ≤ nearest number := by
  by_cases narrow : number < 2 ^ 53
  · rwa [nearest_of_lt narrow]
  · have wide : 2 ^ 52 ≤ number := by omega
    have positive : number ≠ 0 := by omega
    have enough := (Nat.le_log2 positive).mpr wide
    have within := (Nat.le_log2 positive).mpr le
    have leading : number.log2 = 52 + excess number := by
      rw [excess]
      omega
    calc 2 ^ bits ≤ 2 ^ number.log2 := Nat.pow_le_pow_right (by decide) within
      _ = 2 ^ 52 * 2 ^ excess number := by rw [leading, Nat.pow_add]
      _ ≤ nearest number := Nat.mul_le_mul_right _
        (Nat.le_trans (div_excess_bounds number wide).1 (div_le_halfEven number _))

/-- A number that has been scaled to at least fifty-three bits is rounded to the same
significand. -/
theorem halfEven_mul_eq_nearest_mul {mantissa number up down : Nat} (wide : 2 ^ 52 ≤ mantissa)
    (same : mantissa * 2 ^ up = number * 2 ^ down) :
    halfEven mantissa (excess mantissa) * 2 ^ number.log2 = nearest number * 2 ^ 52 := by
  have positive : mantissa ≠ 0 := by omega
  have enough := (Nat.le_log2 positive).mpr wide
  have bits := log2_of_scaled positive same
  rcases Nat.le_total 52 number.log2 with long | short
  · have rounded : halfEven mantissa (excess mantissa) = halfEven number (excess number) :=
      halfEven_of_scaled same (by rw [excess, excess]; omega)
    have leading : number.log2 = excess number + 52 := by
      rw [excess]
      omega
    rw [rounded, leading, Nat.pow_add, ← Nat.mul_assoc]
    rfl
  · -- A short number is not rounded at all.
    have split : number * 2 ^ down =
        number * 2 ^ (52 - number.log2) * 2 ^ (down - (52 - number.log2)) := by
      rw [Nat.mul_assoc, ← Nat.pow_add]
      congr 2
      omega
    have rounded : halfEven mantissa (excess mantissa) =
        halfEven (number * 2 ^ (52 - number.log2)) 0 :=
      halfEven_of_scaled (same.trans split) (by rw [excess]; omega)
    have narrow : number < 2 ^ 53 :=
      (Nat.log2_lt (ne_zero_of_scaled positive same)).mp (Nat.lt_succ_of_le short)
    rw [rounded, halfEven_zero, nearest_of_lt narrow, Nat.mul_assoc, ← Nat.pow_add,
      Nat.sub_add_cancel short]

section Excess

variable {number : Nat} (wide : 2 ^ 53 ≤ number)

include wide

theorem excess_ne_zero : excess number ≠ 0 := by
  have positive : number ≠ 0 := by omega
  have enough := (Nat.le_log2 positive).mpr wide
  rw [excess]
  omega

/-- A tie goes down exactly if it is halfway above an even neighbour. -/
theorem halfway_iff : Halfway number ↔
    2 * (number % 2 ^ excess number) = 2 ^ excess number ∧
      number / 2 ^ excess number % 2 = 0 := by
  constructor
  · rintro ⟨half, lower, upper, bits, rfl⟩
    have leading : (4 * half + 1).log2 = 53 := log2_unique (by omega) (by omega)
    have extra : excess ((4 * half + 1) * 2 ^ bits) = 1 + bits := by
      rw [excess, log2_mul_two_pow (by omega), leading]
      omega
    have front := div_append (4 * half + 1) 1 (Nat.two_pow_pos bits)
    have back := mod_append (4 * half + 1) 1 (Nat.two_pow_pos bits)
    have odd : (4 * half + 1) % 2 ^ 1 = 1 := by omega
    rw [Nat.add_zero] at front back
    rw [extra, front, back, odd, Nat.zero_add, Nat.mul_one, Nat.pow_add]
    omega
  · rintro ⟨tied, even⟩
    obtain ⟨bits, several⟩ := Nat.exists_eq_succ_of_ne_zero (excess_ne_zero wide)
    have bounds := div_excess_bounds number (by omega)
    have parts := Nat.div_add_mod number (2 ^ excess number)
    have place : 2 ^ excess number = 2 ^ bits * 2 := by rw [several, Nat.pow_succ]
    rw [place] at tied bounds parts even
    generalize number / (2 ^ bits * 2) = quotient at bounds parts even
    have twice : quotient = 2 * (quotient / 2) := by omega
    refine ⟨quotient / 2, by omega, by omega, bits, ?_⟩
    have rest : number % (2 ^ bits * 2) = 2 ^ bits := by omega
    rw [rest, twice] at parts
    rw [← parts]
    ring

/-- Bits behind an exact number are too few to matter. -/
theorem nearest_append_of_exact (exact : Exact number) {more behind : Nat}
    (fits : behind < 2 ^ more) :
    nearest (number * 2 ^ more + behind) = number * 2 ^ more := by
  have whole := Nat.mod_eq_zero_of_dvd exact.excess_dvd
  have rounded := halfEven_append number (excess number) fits
    (.inr ⟨excess_ne_zero wide, by rw [whole]; exact (Nat.two_pow_pos _).ne⟩)
  rw [nearest, excess_append (by omega) fits, rounded, Nat.pow_add, ← Nat.mul_assoc]
  exact congrArg (· * 2 ^ more) (nearest_of_exact exact)

/-- Rounding before bits are put behind differs from rounding afterwards exactly at a number that
is halfway above an even neighbour. -/
theorem nearest_append_iff {more behind : Nat} (fits : behind < 2 ^ more) :
    nearest (number * 2 ^ more + behind) = nearest number * 2 ^ more ↔
      ¬(Halfway number ∧ behind ≠ 0) := by
  rw [halfway_iff wide, nearest, nearest, excess_append (by omega) fits, Nat.pow_add,
    ← Nat.mul_assoc, Nat.mul_right_cancel_iff (Nat.two_pow_pos _),
    Nat.mul_right_cancel_iff (Nat.two_pow_pos _)]
  rcases Nat.eq_zero_or_pos behind with none | kept
  · have same := halfEven_append number (excess number) fits (.inl none)
    exact iff_of_true same fun ⟨_, kept⟩ => kept none
  by_cases tied : 2 * (number % 2 ^ excess number) = 2 ^ excess number
  · have here : halfEven number (excess number) =
        number / 2 ^ excess number + number / 2 ^ excess number % 2 := by
      rw [halfEven, if_neg (Nat.not_lt_of_le tied.ge), if_pos tied]
    rw [halfEven_append_of_tied number (excess number) fits kept.ne' tied, here]
    simp only [tied, kept.ne', true_and, ne_eq, not_false_eq_true, and_true]
    omega
  · have same := halfEven_append number (excess number) fits (.inr ⟨excess_ne_zero wide, tied⟩)
    simp [same, tied]

theorem nearest_lt_of_halfway (tie : Halfway number) : nearest number < number := by
  obtain ⟨tied, even⟩ := (halfway_iff wide).mp tie
  have parts := Nat.div_add_mod' number (2 ^ excess number)
  rw [nearest, halfEven, if_neg (Nat.not_lt_of_le tied.ge), if_pos tied, even, Nat.add_zero]
  have positive := Nat.two_pow_pos (excess number)
  omega

end Excess
end EagerLisp.Number
