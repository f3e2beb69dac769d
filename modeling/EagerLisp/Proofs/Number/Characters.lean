import EagerLisp.Number
import Mathlib.Data.List.TakeDrop
import Mathlib.Data.List.TakeWhile

namespace EagerLisp.Number

/-- A character that a numeric literal may contain. -/
def isNumeral (c : Char) : Bool :=
  c.isDigit || ('a' ≤ c && c ≤ 'z') || ('A' ≤ c && c ≤ 'Z') || c = '+' || c = '-' || c = '.'

theorem isNumeral_of_isDigit {c : Char} (digit : c.isDigit = true) : isNumeral c = true := by
  simp [isNumeral, digit]

private theorem isNumeral_of_digit? {radix digit : Nat} {c : Char}
    (same : digit? radix c = some digit) :
    isNumeral c = true := by
  simp only [digit?] at same
  split at same
  case isTrue decimal => exact isNumeral_of_isDigit decimal
  case isFalse =>
    split at same
    case isTrue lower =>
      have bound : c ≤ 'z' := Char.le_trans lower.2 (by decide)
      simp [isNumeral, lower.1, bound]
    case isFalse =>
      split at same
      case isTrue upper =>
        have bound : c ≤ 'Z' := Char.le_trans upper.2 (by decide)
        simp [isNumeral, upper.1, bound]
      case isFalse => simp at same

private theorem isNumeral_of_digits? {radix : Nat} {text : List Char} {digits : List Nat}
    (same : digits? radix text = some digits) : ∀ c ∈ text, isNumeral c = true := by
  induction text generalizing digits with
  | nil => simp
  | cons c rest ih =>
    simp only [digits?, List.mapM_cons, Option.bind_eq_bind, Option.bind_eq_some_iff] at same
    obtain ⟨digit, first, others, further, _⟩ := same
    intro other member
    rcases List.mem_cons.mp member with rfl | member
    · exact isNumeral_of_digit? first
    · exact ih further other member

private theorem isNumeral_of_based? {radix : Nat} {text : List Char} {literal : Literal}
    (same : based? radix text = some literal) : ∀ c ∈ text, isNumeral c = true := by
  simp only [based?] at same
  split at same
  · simp at same
  · obtain ⟨digits, read, _⟩ := Option.map_eq_some_iff.mp same
    exact isNumeral_of_digits? read

theorem isNumeral_of_splitSign {text : List Char}
    (unsigned : ∀ c ∈ (splitSign text).2, isNumeral c = true) : ∀ c ∈ text, isNumeral c = true := by
  unfold splitSign at unsigned
  split at unsigned
  · exact List.forall_mem_cons.mpr ⟨rfl, unsigned⟩
  · exact List.forall_mem_cons.mpr ⟨rfl, unsigned⟩
  · exact unsigned

private theorem isNumeral_of_exponent? {text : List Char} {exponent : Int}
    (same : exponent? text = some exponent) : ∀ c ∈ text, isNumeral c = true := by
  cases text with
  | nil => simp
  | cons c rest =>
    simp only [exponent?] at same
    split at same
    case isFalse => simp at same
    case isTrue exact =>
      simp only [Bool.and_eq_true, Bool.or_eq_true, decide_eq_true_eq, List.all_eq_true] at exact
      obtain ⟨⟨letter, _⟩, digits⟩ := exact
      refine List.forall_mem_cons.mpr ⟨?_, ?_⟩
      · rcases letter with rfl | rfl <;> rfl
      · exact isNumeral_of_splitSign fun other member =>
          isNumeral_of_isDigit (digits other member)

private theorem isNumeral_of_span {text : List Char}
    (behind : ∀ c ∈ (text.span Char.isDigit).2, isNumeral c = true) :
    ∀ c ∈ text, isNumeral c = true := by
  rw [List.span_eq_takeWhile_dropWhile] at behind
  intro c member
  rw [← text.takeWhile_append_dropWhile, List.mem_append] at member
  rcases member with digit | other
  · exact isNumeral_of_isDigit (List.mem_takeWhile_imp digit)
  · exact behind c other

private theorem isNumeral_of_decimal? {negative : Bool} {text : List Char} {literal : Literal}
    (same : decimal? negative text = some literal) : ∀ c ∈ text, isNumeral c = true := by
  apply isNumeral_of_span
  simp only [decimal?] at same
  split at same
  case h_1 rest point =>
    split at same
    · simp at same
    · obtain ⟨exponent, read, _⟩ := Option.map_eq_some_iff.mp same
      rw [point]
      exact List.forall_mem_cons.mpr ⟨rfl, isNumeral_of_span (isNumeral_of_exponent? read)⟩
  case h_2 =>
    split at same
    · simp at same
    · obtain ⟨exponent, read, _⟩ := Option.map_eq_some_iff.mp same
      exact isNumeral_of_exponent? read

private theorem isNumeral_of_signed? {text : List Char} {literal : Literal}
    (same : signed? text = some literal) : ∀ c ∈ text, isNumeral c = true := by
  apply isNumeral_of_splitSign
  simp only [signed?] at same
  split at same
  case isTrue word =>
    rw [word]
    exact List.all_eq_true.mp (by decide)
  case isFalse => exact isNumeral_of_decimal? same

/-- All characters of a numeric literal are letters, digits, signs and points. -/
theorem isNumeral_of_literal? {text : List Char} {literal : Literal}
    (same : literal? text = some literal) : ∀ c ∈ text, isNumeral c = true := by
  unfold literal? at same
  split at same
  case h_7 => exact isNumeral_of_signed? same
  all_goals
    have digits := isNumeral_of_based? same
    exact List.forall_mem_cons.mpr ⟨rfl, List.forall_mem_cons.mpr ⟨rfl, digits⟩⟩

theorem ne_nil_of_literal? {text : List Char} {literal : Literal}
    (same : literal? text = some literal) : text ≠ [] := by
  rintro rfl
  have none : literal? [] = none := by decide
  simp [none] at same

end EagerLisp.Number
