import EagerLisp.Proofs.Token.Depth
import EagerLisp.Proofs.Token.Order
import Mathlib.Data.List.Induction

/-! Which parentheses belong together. A closing parenthesis closes the opening one in front of it
that nothing but balanced tokens separate from it; where there is none it is unmatched. Unlike a
list that is read, any sequence of tokens has such pairs, unmatched parentheses or not. -/
namespace EagerLisp.Token

/-- The opening parenthesis is the one that a closing one behind the tokens would close. -/
def Awaits (tokens : List Token) (opening : Span) : Prop :=
  ∃ before inside, tokens = before ++ ⟨.openParen, opening⟩ :: inside ∧ Balanced inside

/-- The closing parenthesis closes the opening one. -/
def Matches (tokens : List Token) (opening closing : Span) : Prop :=
  ∃ front after, tokens = front ++ ⟨.closeParen, closing⟩ :: after ∧ Awaits front opening

/-- The opening parentheses that the tokens leave unclosed, innermost first. In front of them there
may be closing ones that close nothing. -/
inductive Unclosed : List Token → List Span → Prop where
  | none {tokens : List Token} (closed : ∀ opening, ¬Awaits tokens opening) : Unclosed tokens []
  | more {outer inside : List Token} {span : Span} {around : List Span}
      (left : Unclosed outer around) (balanced : Balanced inside) :
      Unclosed (outer ++ ⟨.openParen, span⟩ :: inside) (span :: around)

theorem nonneg_left {first second : List Token}
    (nonneg : ∀ count, 0 ≤ depthAt (first ++ second) count) (count : Nat) :
    0 ≤ depthAt first count := by
  by_cases early : count ≤ first.length
  · have within := nonneg count
    rw [depthAt_append, Nat.sub_eq_zero_of_le early] at within
    simpa [depthAt] using within
  · have whole := nonneg first.length
    rw [depthAt_append, Nat.sub_self] at whole
    rw [depthAt_of_length_le (by omega), ← depthAt_length]
    simpa [depthAt] using whole

theorem Balanced.nonneg_left {first second : List Token} (balanced : Balanced (first ++ second)) :
    0 ≤ depth first := by
  have within := Token.nonneg_left balanced.nonneg first.length
  rwa [depthAt_length] at within

theorem Balanced.of_append {first second : List Token} (whole : Balanced (first ++ second))
    (right : Balanced second) : Balanced first := by
  refine ⟨Token.nonneg_left whole.nonneg, ?_⟩
  have closed := whole.closed
  rw [depth_append, right.closed] at closed
  omega

theorem not_balanced_open {front inside : List Token} {span : Span} (balanced : Balanced inside) :
    ¬Balanced (front ++ ⟨.openParen, span⟩ :: inside) := by
  intro whole
  have before := whole.nonneg_left
  have closed := whole.closed
  rw [depth_append, depth_cons_open, balanced.closed] at closed
  omega

private theorem not_balanced_close {inside after : List Token} {span : Span}
    (balanced : Balanced inside) :
    ¬Balanced (inside ++ ⟨.closeParen, span⟩ :: after) := by
  intro whole
  rw [List.append_cons] at whole
  have before := whole.nonneg_left
  rw [depth_append, balanced.closed, depth_cons_close, depth_nil] at before
  omega

namespace Awaits

variable {tokens more : List Token} {opening other : Span}

theorem unique (awaits : Awaits tokens opening) (others : Awaits tokens other) :
    opening = other := by
  obtain ⟨before, inside, rfl, balanced⟩ := awaits
  obtain ⟨front, within, same, apart⟩ := others
  rcases split_cases same with ⟨_, equal, _⟩ | ⟨between, _, rfl⟩ | ⟨between, _, rfl⟩
  · cases equal
    rfl
  · exact absurd balanced (not_balanced_open apart)
  · exact absurd apart (not_balanced_open balanced)

/-- Balanced tokens make no difference to what is awaited. -/
theorem append_iff (balanced : Balanced more) :
    Awaits (tokens ++ more) opening ↔ Awaits tokens opening := by
  constructor
  · rintro ⟨before, inside, same, within⟩
    rcases List.append_eq_append_iff.mp same with ⟨between, rfl, behind⟩ | ⟨between, rfl, behind⟩
    · rw [behind] at balanced
      exact absurd balanced (not_balanced_open within)
    · cases between with
      | nil =>
        rw [List.nil_append] at behind
        have unbalanced : ¬Balanced ([] ++ ⟨.openParen, opening⟩ :: inside) :=
          not_balanced_open within
        rw [List.nil_append, behind] at unbalanced
        exact absurd balanced unbalanced
      | cons token between =>
        cases behind
        exact ⟨before, between, rfl, within.of_append balanced⟩
  · rintro ⟨before, inside, rfl, within⟩
    exact ⟨before, inside ++ more, by simp, within.append balanced⟩

end Awaits

/-- Tokens that close no more than they open leave open what is awaited, if anything. -/
theorem exists_leavesOpen {tokens : List Token} (nonneg : ∀ count, 0 ≤ depthAt tokens count) :
    ∃ stack, LeavesOpen tokens stack := by
  induction tokens using List.reverseRecOn with
  | nil => exact ⟨[], .none .nil⟩
  | append_singleton front token ih =>
    obtain ⟨stack, left⟩ := ih (nonneg_left nonneg)
    obtain ⟨lexeme, span⟩ := token
    cases lexeme with
    | openParen => exact ⟨_, left.opening span⟩
    | atom text => exact ⟨_, left.append (.atom text span)⟩
    | closeParen =>
      cases stack with
      | cons innermost around => exact ⟨_, left.closing span⟩
      | nil =>
        have whole := nonneg (front.length + 1)
        rw [depthAt_append, depthAt_of_length_le (by omega), left.depth_eq] at whole
        simp [depthAt] at whole

theorem exists_awaits {tokens : List Token} (nonneg : ∀ count, 0 ≤ depthAt tokens count)
    (deep : 0 < depth tokens) : ∃ opening, Awaits tokens opening := by
  obtain ⟨stack, left⟩ := exists_leavesOpen nonneg
  cases left with
  | none balanced =>
    rw [balanced.closed] at deep
    cases deep
  | more outer balanced => exact ⟨_, _, _, rfl, balanced⟩

private theorem matches_of_nonneg {front after : List Token} {closing : Span}
    (nonneg : ∀ count, 0 ≤ depthAt (front ++ ⟨.closeParen, closing⟩ :: after) count) :
    ∃ opening, Matches (front ++ ⟨.closeParen, closing⟩ :: after) opening closing := by
  have closed := nonneg (front.length + 1)
  rw [depthAt_append, depthAt_of_length_le (by omega), Nat.add_sub_cancel_left, depthAt,
    List.take_succ_cons, List.take_zero, depth_cons_close, depth_nil] at closed
  obtain ⟨opening, awaits⟩ := exists_awaits (nonneg_left nonneg) (by omega)
  exact ⟨opening, front, after, rfl, awaits⟩

theorem Balanced.not_awaits {tokens : List Token} (balanced : Balanced tokens) (opening : Span) :
    ¬Awaits tokens opening := by
  rintro ⟨before, inside, rfl, within⟩
  exact not_balanced_open within balanced

namespace Unclosed

variable {tokens more : List Token} {stack : List Span} {span : Span}

theorem nil : Unclosed [] [] :=
  .none Balanced.nil.not_awaits

theorem awaits (left : Unclosed tokens (span :: stack)) : Awaits tokens span := by
  cases left with
  | more outer balanced => exact ⟨_, _, rfl, balanced⟩

theorem not_awaits (left : Unclosed tokens []) (opening : Span) : ¬Awaits tokens opening := by
  cases left with
  | none closed => exact closed opening

theorem append (left : Unclosed tokens stack) (balanced : Balanced more) :
    Unclosed (tokens ++ more) stack := by
  cases left with
  | none closed =>
    exact .none fun opening awaits => closed opening ((Awaits.append_iff balanced).mp awaits)
  | more outer inside =>
    rw [List.append_assoc, List.cons_append]
    exact .more outer (inside.append balanced)

theorem opening (left : Unclosed tokens stack) (span : Span) :
    Unclosed (tokens ++ [⟨.openParen, span⟩]) (span :: stack) :=
  .more left .nil

theorem closing (left : Unclosed tokens (span :: stack)) (place : Span) :
    Unclosed (tokens ++ [⟨.closeParen, place⟩]) stack := by
  cases left with
  | more outer inside =>
    rw [List.append_assoc]
    exact outer.append (inside.parens span place)

theorem unmatched (left : Unclosed tokens []) (place : Span) :
    Unclosed (tokens ++ [⟨.closeParen, place⟩]) [] := by
  refine .none fun opening awaits => ?_
  obtain ⟨before, inside, same, balanced⟩ := awaits
  rcases split_snoc_cases same with ⟨_, impossible, _⟩ | ⟨within, rfl, rfl⟩
  · cases impossible
  · have closed := balanced.closed
    rw [depth_append, depth_cons_close, depth_nil] at closed
    obtain ⟨other, front, apart, rfl, awaited⟩ :=
      exists_awaits (nonneg_left balanced.nonneg) (by omega)
    exact left.not_awaits other ⟨before ++ ⟨.openParen, opening⟩ :: front, apart, by simp, awaited⟩

end Unclosed

namespace Matches

variable {tokens : List Token} {opening closing : Span}

/-- One more token adds the pair that it closes, if any. -/
theorem snoc_iff {token : Token} : Matches (tokens ++ [token]) opening closing ↔
    Matches tokens opening closing ∨
      token = ⟨.closeParen, closing⟩ ∧ Awaits tokens opening := by
  constructor
  · rintro ⟨front, after, same, awaits⟩
    rcases split_snoc_cases same with ⟨rfl, last, _⟩ | ⟨between, rfl, _⟩
    · exact .inr ⟨last, awaits⟩
    · exact .inl ⟨front, between, rfl, awaits⟩
  · rintro (⟨front, after, rfl, awaits⟩ | ⟨rfl, awaits⟩)
    · exact ⟨front, after ++ [token], by simp, awaits⟩
    · exact ⟨tokens, [], rfl, awaits⟩

theorem snoc_iff_of_ne {token : Token} (other : token.lexeme ≠ .closeParen) :
    Matches (tokens ++ [token]) opening closing ↔ Matches tokens opening closing := by
  rw [snoc_iff, or_iff_left]
  rintro ⟨rfl, _⟩
  exact other rfl

private theorem append (pair : Matches tokens opening closing) (more : List Token) :
    Matches (tokens ++ more) opening closing := by
  obtain ⟨front, after, rfl, awaits⟩ := pair
  exact ⟨front, after ++ more, by simp, awaits⟩

theorem opening_mem (pair : Matches tokens opening closing) :
    (⟨.openParen, opening⟩ : Token) ∈ tokens := by
  obtain ⟨front, after, rfl, before, inside, rfl, balanced⟩ := pair
  simp

theorem closing_mem (pair : Matches tokens opening closing) :
    (⟨.closeParen, closing⟩ : Token) ∈ tokens := by
  obtain ⟨front, after, rfl, awaits⟩ := pair
  simp

theorem of_mem (nonneg : ∀ count, 0 ≤ depthAt tokens count)
    (member : (⟨.closeParen, closing⟩ : Token) ∈ tokens) (more : List Token) :
    ∃ opening, Matches (tokens ++ more) opening closing := by
  obtain ⟨front, after, rfl⟩ := List.append_of_mem member
  obtain ⟨opening, pair⟩ := matches_of_nonneg nonneg
  exact ⟨opening, pair.append more⟩

theorem opening_unique (increasing : Increasing tokens) (pair : Matches tokens opening closing)
    {other : Span} (others : Matches tokens other closing) : opening = other := by
  obtain ⟨front, after, first, awaits⟩ := pair
  obtain ⟨before, behind, second, awaited⟩ := others
  obtain ⟨rfl, _, _⟩ := increasing.split_unique first second rfl
  exact awaits.unique awaited

theorem closing_unique (increasing : Increasing tokens) (pair : Matches tokens opening closing)
    {other : Span} (others : Matches tokens opening other) : closing = other := by
  obtain ⟨front, after, first, before, inside, rfl, balanced⟩ := pair
  obtain ⟨ahead, behind, second, start, within, rfl, apart⟩ := others
  rw [List.append_assoc, List.cons_append] at first second
  obtain ⟨_, _, rest⟩ := increasing.split_unique first second rfl
  rcases split_cases rest with ⟨_, equal, _⟩ | ⟨between, rfl, _⟩ | ⟨between, rfl, _⟩
  · cases equal
    rfl
  · exact absurd apart (not_balanced_close balanced)
  · exact absurd balanced (not_balanced_close apart)

end Matches

end EagerLisp.Token
