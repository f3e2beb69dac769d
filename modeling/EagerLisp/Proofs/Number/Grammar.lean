import EagerLisp.Proofs.Number.Characters

namespace EagerLisp.Number

/-- The digits to a base. -/
def alphabet : Nat → List Char
  | 2 => "01".toList
  | 8 => "01234567".toList
  | 16 => "0123456789abcdefABCDEF".toList
  | _ => "0123456789".toList

/-- The markers of the bases that have one. -/
inductive Marker : Char → Nat → Prop where
  | lowerHexadecimal : Marker 'x' 16
  | upperHexadecimal : Marker 'X' 16
  | lowerOctal : Marker 'o' 8
  | upperOctal : Marker 'O' 8
  | lowerBinary : Marker 'b' 2
  | upperBinary : Marker 'B' 2

/-- One or more digits to a base. -/
structure Digits (radix : Nat) (text : List Char) : Prop where
  begun : text ≠ []
  each : ∀ c ∈ text, c ∈ alphabet radix

/-- An optional sign. -/
inductive Sign : List Char → Prop where
  | absent : Sign []
  | plus : Sign ['+']
  | minus : Sign ['-']

/-- Decimal digits with an optional point, which stands behind a digit or in front of one. -/
inductive Mantissa : List Char → Prop where
  | whole {front : List Char} (digits : Digits 10 front) : Mantissa front
  | point {front places : List Char} (digits : Digits 10 front)
      (further : ∀ c ∈ places, c ∈ alphabet 10) : Mantissa (front ++ '.' :: places)
  | fraction {places : List Char} (digits : Digits 10 places) : Mantissa ('.' :: places)

/-- An optional exponent. -/
inductive Exponent : List Char → Prop where
  | absent : Exponent []
  | present {letter : Char} {sign places : List Char} (marked : letter = 'e' ∨ letter = 'E')
      (signed : Sign sign) (digits : Digits 10 places) : Exponent (letter :: (sign ++ places))

/-- The forms of a numeric literal. -/
inductive Numeral : List Char → Prop where
  | based {marker : Char} {radix : Nat} {rest : List Char} (marked : Marker marker radix)
      (digits : Digits radix rest) : Numeral ('0' :: marker :: rest)
  | infinite {sign : List Char} (signed : Sign sign) : Numeral (sign ++ "Infinity".toList)
  | decimal {sign front back : List Char} (signed : Sign sign) (mantissa : Mantissa front)
      (exponent : Exponent back) : Numeral (sign ++ (front ++ back))

/-- Two classes of characters are one if they agree on ASCII and hold nothing beyond it. -/
theorem eq_of_ascii (first second : Char → Bool)
    (same : ∀ code < 128, first (Char.ofNat code) = second (Char.ofNat code))
    (beyond : ∀ c : Char, 128 ≤ c.toNat → first c = false ∧ second c = false) (c : Char) :
    first c = second c := by
  by_cases ascii : c.toNat < 128
  · have agreed := same c.toNat ascii
    rwa [Char.ofNat_toNat] at agreed
  · obtain ⟨absent, missing⟩ := beyond c (Nat.le_of_not_lt ascii)
    rw [absent, missing]

theorem alphabet_ascii (radix : Nat) {c : Char} (beyond : 128 ≤ c.toNat) :
    (alphabet radix).contains c = false := by
  have ascii : (alphabet radix).all (fun d => decide (d.toNat < 128)) = true := by
    unfold alphabet
    split <;> decide
  rw [List.contains_eq_mem, decide_eq_false_iff_not]
  exact fun member =>
    Nat.not_lt_of_le beyond (of_decide_eq_true (List.all_eq_true.mp ascii c member))

theorem not_le_of_beyond {c d : Char} (beyond : 128 ≤ c.toNat) (ascii : d.toNat < 128) :
    ¬c ≤ d := by
  rw [Char.le_def, UInt32.le_iff_toNat_le]
  exact Nat.not_le_of_lt (Nat.lt_of_lt_of_le ascii beyond)

theorem isDigit_of_beyond {c : Char} (beyond : 128 ≤ c.toNat) : c.isDigit = false := by
  have above : ¬c ≤ '9' := not_le_of_beyond beyond (by decide)
  simp only [Char.isDigit, Bool.and_eq_false_iff, decide_eq_false_iff_not]
  exact .inr above

theorem isDigit_iff (c : Char) : c.isDigit = true ↔ c ∈ alphabet 10 := by
  have same : c.isDigit = (alphabet 10).contains c :=
    eq_of_ascii Char.isDigit _ (by decide +kernel)
      (fun _ beyond => ⟨isDigit_of_beyond beyond, alphabet_ascii 10 beyond⟩) c
  rw [same, List.contains_iff_mem]

section Based

variable {marker : Char} {radix : Nat} (marked : Marker marker radix)

include marked

theorem isSome_digit?_iff (c : Char) :
    (digit? radix c).isSome = true ↔ c ∈ alphabet radix := by
  have same : (digit? radix c).isSome = (alphabet radix).contains c := by
    refine eq_of_ascii (fun c => (digit? radix c).isSome) _ ?_ (fun c beyond => ⟨?_, ?_⟩) c
    · cases marked <;> decide +kernel
    · have lower : ¬c ≤ 'f' := not_le_of_beyond beyond (by decide)
      have upper : ¬c ≤ 'F' := not_le_of_beyond beyond (by decide)
      simp [digit?, isDigit_of_beyond beyond, lower, upper]
    · exact alphabet_ascii radix beyond
  rw [same, List.contains_iff_mem]

theorem isSome_digits?_iff (text : List Char) :
    (digits? radix text).isSome = true ↔ ∀ c ∈ text, c ∈ alphabet radix := by
  induction text with
  | nil => simp [digits?]
  | cons c rest ih =>
    rw [List.forall_mem_cons, ← isSome_digit?_iff marked, ← ih, digits?, digits?, List.mapM_cons]
    cases digit? radix c <;> cases rest.mapM (digit? radix) <;> simp

theorem isSome_based?_iff (text : List Char) :
    (based? radix text).isSome = true ↔ Digits radix text := by
  rw [based?]
  split
  case isTrue none =>
    have empty : text = [] := List.isEmpty_iff.mp none
    exact ⟨fun some => absurd some (by simp), fun digits => absurd empty digits.begun⟩
  case isFalse some =>
    rw [Option.isSome_map, isSome_digits?_iff marked]
    exact ⟨fun each => ⟨mt List.isEmpty_iff.mpr some, each⟩, Digits.each⟩

/-- A marker decides to which base the rest is read. -/
theorem literal?_of_marker (rest : List Char) :
    literal? ('0' :: marker :: rest) = based? radix rest := by
  cases marked <;> rfl

end Based

/-- The characters of a signed decimal. -/
def isDecimal (c : Char) : Bool :=
  c.isDigit || c = '.' || c = 'e' || c = 'E' || c = '+' || c = '-'

theorem isDecimal_of_mem {c : Char} (member : c ∈ alphabet 10) : isDecimal c = true := by
  simp [isDecimal, (isDigit_iff c).mpr member]

theorem literal?_eq_signed? {text : List Char} (plain : ∀ c ∈ text, isDecimal c = true) :
    literal? text = signed? text := by
  unfold literal?
  split
  case h_7 => rfl
  all_goals exact absurd (plain _ (List.mem_cons_of_mem _ List.mem_cons_self)) (by decide)

theorem Sign.isDecimal {sign : List Char} (signed : Sign sign) :
    ∀ c ∈ sign, isDecimal c = true := by
  cases signed <;> exact List.all_eq_true.mp (by decide)

theorem Mantissa.isDecimal {text : List Char} (mantissa : Mantissa text) :
    ∀ c ∈ text, isDecimal c = true := by
  cases mantissa with
  | whole digits => exact fun c member => isDecimal_of_mem (digits.each c member)
  | point digits further =>
    intro c member
    rcases List.mem_append.mp member with before | behind
    · exact isDecimal_of_mem (digits.each c before)
    · rcases List.mem_cons.mp behind with rfl | behind
      · rfl
      · exact isDecimal_of_mem (further c behind)
  | fraction digits =>
    exact List.forall_mem_cons.mpr ⟨rfl, fun c member => isDecimal_of_mem (digits.each c member)⟩

theorem Exponent.isDecimal {text : List Char} (exponent : Exponent text) :
    ∀ c ∈ text, isDecimal c = true := by
  cases exponent with
  | absent => simp
  | present marked signed digits =>
    refine List.forall_mem_cons.mpr ⟨?_, fun c member => ?_⟩
    · rcases marked with rfl | rfl <;> rfl
    · rcases List.mem_append.mp member with before | behind
      · exact signed.isDecimal c before
      · exact isDecimal_of_mem (digits.each c behind)

theorem splitSign_append {sign rest : List Char} (signed : Sign sign)
    (unsigned : ∀ c, rest.head? = some c → c ≠ '+' ∧ c ≠ '-') :
    splitSign (sign ++ rest) = (decide (sign = ['-']), rest) := by
  cases signed with
  | plus => rfl
  | minus => rfl
  | absent =>
    rw [List.nil_append, splitSign.eq_def]
    split
    case h_1 => exact absurd rfl (unsigned _ rfl).1
    case h_2 => exact absurd rfl (unsigned _ rfl).2
    case h_3 => rfl

theorem exists_sign (text : List Char) :
    ∃ sign, Sign sign ∧ text = sign ++ (splitSign text).2 := by
  unfold splitSign
  split
  case h_1 => exact ⟨_, .plus, rfl⟩
  case h_2 => exact ⟨_, .minus, rfl⟩
  case h_3 => exact ⟨_, .absent, rfl⟩

theorem Digits.not_sign {rest : List Char} (digits : Digits 10 rest) :
    ∀ c, rest.head? = some c → c ≠ '+' ∧ c ≠ '-' := by
  intro c first
  have member := digits.each c (List.mem_of_mem_head? first)
  constructor
  all_goals
    rintro rfl
    exact absurd member (by decide)

theorem digits_iff (text : List Char) :
    Digits 10 text ↔ text ≠ [] ∧ text.all Char.isDigit = true := by
  rw [List.all_eq_true]
  constructor
  · exact fun digits => ⟨digits.begun, fun c member => (isDigit_iff c).mpr (digits.each c member)⟩
  · exact fun ⟨begun, each⟩ => ⟨begun, fun c member => (isDigit_iff c).mp (each c member)⟩

theorem isSome_exponent?_iff (text : List Char) :
    (exponent? text).isSome = true ↔ Exponent text := by
  cases text with
  | nil => exact ⟨fun _ => .absent, fun _ => rfl⟩
  | cons letter rest =>
    have read : (exponent? (letter :: rest)).isSome = true ↔
        (letter = 'e' ∨ letter = 'E') ∧ Digits 10 (splitSign rest).2 := by
      rw [digits_iff]
      simp only [exponent?]
      split
      case isTrue exact => simpa [and_assoc] using exact
      case isFalse inexact => simpa [and_assoc] using inexact
    rw [read]
    constructor
    · rintro ⟨marked, digits⟩
      obtain ⟨sign, signed, whole⟩ := exists_sign rest
      rw [whole]
      exact .present marked signed digits
    · intro exponent
      cases exponent with
      | present marked signed digits =>
        rw [splitSign_append signed digits.not_sign]
        exact ⟨marked, digits⟩

theorem span_append {digits rest : List Char} (each : ∀ c ∈ digits, c ∈ alphabet 10)
    (ended : ∀ c, rest.head? = some c → c.isDigit = false) :
    (digits ++ rest).span Char.isDigit = (digits, rest) := by
  have front : ∀ c ∈ digits, c.isDigit = true := fun c member => (isDigit_iff c).mpr (each c member)
  rw [List.span_eq_takeWhile_dropWhile, List.takeWhile_append_of_pos front,
    List.dropWhile_append_of_pos front]
  cases rest with
  | nil => simp
  | cons c rest => simp [ended c rfl]

private theorem exists_span (text : List Char) :
    ∃ digits rest, text.span Char.isDigit = (digits, rest) ∧ text = digits ++ rest ∧
      ∀ c ∈ digits, c ∈ alphabet 10 := by
  rw [List.span_eq_takeWhile_dropWhile]
  refine ⟨_, _, rfl, List.takeWhile_append_dropWhile.symm, fun c member => ?_⟩
  exact (isDigit_iff c).mp (List.mem_takeWhile_imp member)

private theorem Exponent.not_digit {text : List Char} (exponent : Exponent text) :
    ∀ c, text.head? = some c → c.isDigit = false ∧ c ≠ '.' := by
  intro c first
  cases exponent with
  | absent => cases first
  | present marked signed digits =>
    cases first
    rcases marked with rfl | rfl <;> decide

private theorem exists_mantissa {negative : Bool} {text : List Char}
    (read : (decimal? negative text).isSome = true) :
    ∃ front back, text = front ++ back ∧ Mantissa front ∧ Exponent back := by
  obtain ⟨digits, rest, split, rfl, each⟩ := exists_span text
  simp only [decimal?, split] at read
  split at read
  case h_1 rest =>
    obtain ⟨places, tail, splitPlaces, rfl, further⟩ := exists_span rest
    simp only [splitPlaces] at read
    split at read
    case isTrue => cases read
    case isFalse digit =>
      rw [Option.isSome_map, isSome_exponent?_iff] at read
      by_cases none : digits = []
      · have some : places ≠ [] := by simpa [none] using digit
        exact ⟨'.' :: places, tail, by simp [none], .fraction ⟨some, further⟩, read⟩
      · exact ⟨digits ++ '.' :: places, tail, by simp, .point ⟨none, each⟩ further, read⟩
  case h_2 =>
    split at read
    case isTrue => cases read
    case isFalse digit =>
      rw [Option.isSome_map, isSome_exponent?_iff] at read
      have some : digits ≠ [] := by simpa using digit
      exact ⟨digits, rest, rfl, .whole ⟨some, each⟩, read⟩

private theorem isSome_decimal?_of_mantissa {front back : List Char} (mantissa : Mantissa front)
    (exponent : Exponent back) (negative : Bool) :
    (decimal? negative (front ++ back)).isSome = true := by
  have ended := exponent.not_digit
  have read := (isSome_exponent?_iff back).mpr exponent
  have point (rest : List Char) : ∀ c, ('.' :: rest).head? = some c → c.isDigit = false := by
    rintro c same
    cases same
    decide
  cases mantissa with
  | whole digits =>
    have spans := span_append digits.each fun c first => (ended c first).1
    simp only [decimal?, spans]
    split
    case h_1 => exact absurd rfl (ended '.' rfl).2
    case h_2 =>
      rw [if_neg (by simp [digits.begun]), Option.isSome_map]
      exact read
  | @point whole places digits further =>
    have behind := span_append further fun c first => (ended c first).1
    have spans : (whole ++ '.' :: (places ++ back)).span Char.isDigit = _ :=
      span_append digits.each (point _)
    rw [List.append_assoc, List.cons_append]
    simp only [decimal?, spans, behind]
    rw [if_neg (by simp [digits.begun]), Option.isSome_map]
    exact read
  | @fraction places digits =>
    have behind := span_append digits.each fun c first => (ended c first).1
    have spans : ([] ++ '.' :: (places ++ back)).span Char.isDigit = _ :=
      span_append (by simp) (point _)
    rw [List.nil_append] at spans
    rw [List.cons_append]
    simp only [decimal?, spans, behind]
    rw [if_neg (by simp [digits.begun]), Option.isSome_map]
    exact read

theorem isSome_decimal?_iff (negative : Bool) (text : List Char) :
    (decimal? negative text).isSome = true ↔
      ∃ front back, text = front ++ back ∧ Mantissa front ∧ Exponent back := by
  refine ⟨exists_mantissa, ?_⟩
  rintro ⟨front, back, rfl, mantissa, exponent⟩
  exact isSome_decimal?_of_mantissa mantissa exponent negative

theorem Mantissa.head {text : List Char} (mantissa : Mantissa text) :
    ∃ c rest, text = c :: rest ∧ (c = '.' ∨ c ∈ alphabet 10) := by
  have first {digits : List Char} (begun : Digits 10 digits) (behind : List Char) :
      ∃ c rest, digits ++ behind = c :: rest ∧ (c = '.' ∨ c ∈ alphabet 10) := by
    cases digits with
    | nil => exact absurd rfl begun.begun
    | cons c rest => exact ⟨c, rest ++ behind, rfl, .inr (begun.each c List.mem_cons_self)⟩
  cases mantissa with
  | whole digits => simpa using first digits []
  | point digits further => exact first digits _
  | fraction digits => exact ⟨'.', _, rfl, .inl rfl⟩

theorem isSome_signed?_iff (text : List Char) :
    (signed? text).isSome = true ↔ (∃ sign, Sign sign ∧ text = sign ++ "Infinity".toList) ∨
      ∃ sign front back, Sign sign ∧ text = sign ++ (front ++ back) ∧ Mantissa front ∧
        Exponent back := by
  constructor
  · intro read
    obtain ⟨sign, signed, whole⟩ := exists_sign text
    simp only [signed?] at read
    split at read
    case isTrue word =>
      rw [word] at whole
      exact .inl ⟨sign, signed, whole⟩
    case isFalse =>
      obtain ⟨front, back, split, mantissa, exponent⟩ := (isSome_decimal?_iff _ _).mp read
      rw [split] at whole
      exact .inr ⟨sign, front, back, signed, whole, mantissa, exponent⟩
  · rintro (⟨sign, signed, rfl⟩ | ⟨sign, front, back, signed, rfl, mantissa, exponent⟩)
    · cases signed <;> decide
    · obtain ⟨c, rest, rfl, first⟩ := mantissa.head
      have unsigned : ∀ d, (c :: rest ++ back).head? = some d → d ≠ '+' ∧ d ≠ '-' := by
        rintro d same
        cases same
        rcases first with rfl | member
        · decide
        · exact ⟨by rintro rfl; exact absurd member (by decide), by
            rintro rfl; exact absurd member (by decide)⟩
      have notWord : c :: rest ++ back ≠ "Infinity".toList := by
        intro same
        obtain rfl : c = 'I' := (List.cons.inj same).1
        rcases first with same | member
        · exact absurd same (by decide)
        · exact absurd member (by decide)
      simp only [signed?, splitSign_append signed unsigned]
      rw [if_neg notWord, isSome_decimal?_iff]
      exact ⟨_, _, rfl, mantissa, exponent⟩

/-- A text is read as a number exactly if it is a numeral. -/
theorem isSome_literal?_iff (text : List Char) :
    (literal? text).isSome = true ↔ Numeral text := by
  constructor
  · intro read
    unfold literal? at read
    split at read
    case h_1 => exact .based .lowerHexadecimal ((isSome_based?_iff .lowerHexadecimal _).mp read)
    case h_2 => exact .based .upperHexadecimal ((isSome_based?_iff .upperHexadecimal _).mp read)
    case h_3 => exact .based .lowerOctal ((isSome_based?_iff .lowerOctal _).mp read)
    case h_4 => exact .based .upperOctal ((isSome_based?_iff .upperOctal _).mp read)
    case h_5 => exact .based .lowerBinary ((isSome_based?_iff .lowerBinary _).mp read)
    case h_6 => exact .based .upperBinary ((isSome_based?_iff .upperBinary _).mp read)
    case h_7 =>
      rcases (isSome_signed?_iff _).mp read with ⟨sign, signed, rfl⟩ |
        ⟨sign, front, back, signed, rfl, mantissa, exponent⟩
      · exact .infinite signed
      · exact .decimal signed mantissa exponent
  · intro numeral
    cases numeral with
    | based marked digits =>
      rw [literal?_of_marker marked]
      exact (isSome_based?_iff marked _).mpr digits
    | infinite signed => cases signed <;> decide
    | @decimal sign front back signed mantissa exponent =>
      have plain : ∀ c ∈ sign ++ (front ++ back), isDecimal c = true := by
        simp only [List.mem_append]
        rintro c (member | member | member)
        · exact signed.isDecimal c member
        · exact mantissa.isDecimal c member
        · exact exponent.isDecimal c member
      rw [literal?_eq_signed? plain, isSome_signed?_iff]
      exact .inr ⟨sign, front, back, signed, rfl, mantissa, exponent⟩

end EagerLisp.Number
