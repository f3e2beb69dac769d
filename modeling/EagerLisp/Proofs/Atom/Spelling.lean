import EagerLisp.Node
import EagerLisp.Proofs.Number.Characters
import EagerLisp.Proofs.Token.Solid

namespace EagerLisp

open Token

theorem Number.isClosedAtom_of_ofText? {text : String} {number : Float}
    (same : ofText? text = some number) : IsClosedAtom text.toList := by
  obtain ⟨literal, read, _⟩ := Option.map_eq_some_iff.mp same
  refine .of_plain (ne_nil_of_literal? read) fun c member => ?_
  have numeral := isNumeral_of_literal? read c member
  have other : ∀ d : Char, isNumeral d = false → c ≠ d := by
    rintro d foreign rfl
    simp [numeral] at foreign
  refine ⟨?_, other ';' rfl, other '"' rfl⟩
  simp [endsAtom, isBlank, other ' ' rfl, other '\t' rfl, other '\r' rfl, other '\n' rfl,
    other '(' rfl, other ')' rfl]

namespace Atom

/-- How a text spells an atom. -/
inductive Spells : String → Atom → Prop where
  | loneQuote : Spells "\"" (.string "")
  | quoted (inner : String) : Spells ("\"" ++ inner ++ "\"") (.string inner)
  | number {text : String} {value : Float} (read : Number.ofText? text = some value) :
      Spells text (.number value)
  | boolean {text : String} {value : Bool} (word : boolean? text = some value) :
      Spells text (.boolean value)
  | symbol (text : String) : Spells text (.symbol text)

theorem unquoted?_eq_some {text inner : List Char} (same : unquoted? text = some inner) :
    (text = ['"'] ∧ inner = []) ∨ text = '"' :: inner ++ ['"'] := by
  unfold unquoted? at same
  split at same
  case h_1 =>
    cases same
    exact .inl ⟨rfl, rfl⟩
  case h_2 rest _ =>
    split at same
    case isTrue last =>
      cases same
      obtain ⟨front, rfl⟩ := List.getLast?_eq_some_iff.mp last
      exact .inr (by simp)
    case isFalse => simp at same
  case h_3 => simp at same

private theorem unquoted?_quoted (inner : List Char) :
    unquoted? ('"' :: inner ++ ['"']) = some inner := by
  have last : (inner ++ ['"']).getLast? = some '"' := by simp
  have front : (inner ++ ['"']).dropLast = inner := by simp
  rw [List.cons_append, unquoted?, if_pos last, front]
  simp

theorem spells_ofText (text : String) : Spells text (ofText text) := by
  unfold ofText
  split
  case h_1 _ _ _ inner same =>
    rcases unquoted?_eq_some same with ⟨lone, rfl⟩ | quoted
    · have whole : text = "\"" := String.toList_inj.mp lone
      rw [whole]
      exact .loneQuote
    · have whole : text = "\"" ++ String.ofList inner ++ "\"" := by
        rw [← String.toList_inj, quoted]
        simp
      rw [whole]
      exact .quoted _
  case h_2 value _ _ read => exact .number read
  case h_3 value _ _ _ word => exact .boolean word
  case h_4 => exact .symbol text

theorem ofText_quoted (inner : String) : ofText ("\"" ++ inner ++ "\"") = .string inner := by
  have enclosed : unquoted? ("\"" ++ inner ++ "\"").toList = some inner.toList := by
    simpa using unquoted?_quoted inner.toList
  rw [ofText, enclosed]
  simp

theorem ofText_of_number {text : String} {value : Float}
    (read : Number.ofText? text = some value) : ofText text = .number value := by
  obtain ⟨literal, numeral, _⟩ := Option.map_eq_some_iff.mp read
  have unquoted : unquoted? text.toList = none := by
    cases same : text.toList with
    | nil => rfl
    | cons c rest =>
      have first := Number.isNumeral_of_literal? numeral c (by simp [same])
      have notQuote : c ≠ '"' := by
        rintro rfl
        exact absurd first (by decide)
      simp [unquoted?, notQuote]
  rw [ofText, unquoted, read]

/-- The text of an atom that has been read spells it again; a number has to be read back from its
text. -/
theorem ofText_text_ofText {text : String}
    (numbers : ∀ value, ofText text = .number value →
      Number.ofText? (Number.text value) = some value) :
    ofText (ofText text).text = ofText text := by
  cases same : ofText text with
  | number value => exact ofText_of_number (numbers value same)
  | boolean value => cases value <;> rfl
  | string inner => exact ofText_quoted inner
  | symbol name =>
    have spelled := spells_ofText text
    rw [same] at spelled
    cases spelled
    exact same

/-- An atom is printed as it was read, or else as a text that no quoted stretch is open in. -/
theorem text_ofText {text : String}
    (numbers : ∀ value, ofText text = .number value →
      Number.ofText? (Number.text value) = some value) :
    (ofText text).text = text ∨ IsClosedAtom (ofText text).text.toList := by
  have spelled := spells_ofText text
  cases same : ofText text with
  | number value => exact .inr (Number.isClosedAtom_of_ofText? (numbers value same))
  | boolean value =>
    refine .inr ?_
    cases value <;> exact ⟨⟨by decide, rfl⟩, rfl⟩
  | string inner =>
    rw [same] at spelled
    cases spelled with
    | loneQuote => exact .inr ⟨⟨by decide, rfl⟩, rfl⟩
    | quoted => exact .inl rfl
  | symbol name =>
    rw [same] at spelled
    cases spelled
    exact .inl rfl

end Atom
end EagerLisp
