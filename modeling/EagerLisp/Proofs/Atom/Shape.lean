import EagerLisp.Proofs.Atom.Spelling
import EagerLisp.Proofs.Number.Grammar
import EagerLisp.Proofs.Token.Place

namespace EagerLisp

open Token

/-- Cuts a text behind its first bytes, if they are whole characters of it. -/
def cutAt? : Nat → List Char → Option (List Char × List Char)
  | 0, text => some ([], text)
  | _ + 1, [] => none
  | count + 1, c :: rest =>
    if c.utf8Size ≤ count + 1 then
      (cutAt? (count + 1 - c.utf8Size) rest).map fun (front, back) => (c :: front, back)
    else none

/-- A cut falls between characters wherever there is a place for it. -/
theorem cutAt?_append (front back : List Char) :
    cutAt? (byteLength front) (front ++ back) = some (front, back) := by
  induction front with
  | nil => rw [byteLength_nil, List.nil_append, cutAt?]
  | cons c rest ih =>
    have wide := c.utf8Size_pos
    obtain ⟨count, whole⟩ : ∃ count, byteLength (c :: rest) = count + 1 :=
      Nat.exists_eq_add_one.mpr (by rw [byteLength_cons]; omega)
    have further : count + 1 - c.utf8Size = byteLength rest := by
      rw [← whole, byteLength_cons, Nat.add_sub_cancel_left]
    have fits : c.utf8Size ≤ count + 1 := by
      rw [← whole, byteLength_cons]
      exact Nat.le_add_right _ _
    rw [whole, List.cons_append, cutAt?, if_pos fits, further, ih, Option.map_some]

private theorem append_of_cutAt? {count : Nat} {text front back : List Char}
    (cut : cutAt? count text = some (front, back)) : text = front ++ back := by
  fun_induction cutAt? count text generalizing front back with
  | case1 =>
    cases cut
    rfl
  | case2 => cases cut
  | case3 count c rest fits ih =>
    obtain ⟨⟨others, behind⟩, further, same⟩ := Option.map_eq_some_iff.mp cut
    cases same
    rw [ih further, List.cons_append]
  | case4 => cases cut

namespace Number

/-- The base that the first two characters of a literal ask for. -/
def radix? : List Char → Option Nat
  | ['0', 'x'] | ['0', 'X'] => some 16
  | ['0', 'o'] | ['0', 'O'] => some 8
  | ['0', 'b'] | ['0', 'B'] => some 2
  | _ => none

/-- Reads a signed literal; a text with a character that no decimal has is turned away before it is
read as one. -/
def filtered? (text : List Char) : Option Literal :=
  let (negative, unsigned) := splitSign text
  if unsigned = "Infinity".toList then some (.infinite negative)
  else if unsigned.isEmpty || !unsigned.all isDecimal then none
  else decimal? negative unsigned

/-- Reads a literal by cutting its text behind two bytes. The text may be too short or have no
character that ends there, but what follows a marker has to begin there. -/
def cut? (text : List Char) : Option (Option Literal) :=
  match (cutAt? 2 text).bind fun (front, _) => radix? front with
  | some radix => (cutAt? 2 text).map fun (_, digits) => based? radix digits
  | none => some (filtered? text)

private theorem radix?_eq_some {front : List Char} {radix : Nat}
    (same : radix? front = some radix) :
    ∃ marker, front = ['0', marker] ∧ Marker marker radix := by
  unfold radix? at same
  split at same
  case h_1 => cases same; exact ⟨_, rfl, .lowerHexadecimal⟩
  case h_2 => cases same; exact ⟨_, rfl, .upperHexadecimal⟩
  case h_3 => cases same; exact ⟨_, rfl, .lowerOctal⟩
  case h_4 => cases same; exact ⟨_, rfl, .upperOctal⟩
  case h_5 => cases same; exact ⟨_, rfl, .lowerBinary⟩
  case h_6 => cases same; exact ⟨_, rfl, .upperBinary⟩
  case h_7 => cases same

private theorem Marker.radix? {marker : Char} {radix : Nat} (marked : Marker marker radix) :
    Number.radix? ['0', marker] = some radix := by
  cases marked <;> rfl

private theorem Marker.cutAt? {marker : Char} {radix : Nat} (marked : Marker marker radix)
    (rest : List Char) : cutAt? 2 ('0' :: marker :: rest) = some (['0', marker], rest) := by
  have cut := cutAt?_append ['0', marker] rest
  cases marked <;> exact cut

private theorem filtered?_eq_signed? (text : List Char) : filtered? text = signed? text := by
  simp only [filtered?, signed?]
  split
  case isTrue => rfl
  case isFalse =>
    split
    case isFalse => rfl
    case isTrue refused =>
      symm
      rw [← Option.not_isSome_iff_eq_none, isSome_decimal?_iff]
      rintro ⟨front, back, split, mantissa, exponent⟩
      have plain : (splitSign text).2.all isDecimal = true := by
        rw [split, List.all_append, Bool.and_eq_true, List.all_eq_true, List.all_eq_true]
        exact ⟨mantissa.isDecimal, exponent.isDecimal⟩
      obtain ⟨c, rest, rfl, _⟩ := mantissa.head
      rw [plain, split] at refused
      simp at refused

/-- Cutting a literal succeeds on every text and reads the same as looking at its characters. -/
theorem cut?_eq (text : List Char) : cut? text = some (literal? text) := by
  rw [cut?]
  cases marked : (cutAt? 2 text).bind fun (front, _) => radix? front with
  | some radix =>
    obtain ⟨⟨front, rest⟩, cut, asked⟩ := Option.bind_eq_some_iff.mp marked
    obtain ⟨marker, rfl, marks⟩ := radix?_eq_some asked
    obtain rfl := append_of_cutAt? cut
    simp only [cut, Option.map_some]
    rw [List.cons_append, List.cons_append, List.nil_append, literal?_of_marker marks]
  | none =>
    have other {marker : Char} {radix : Nat} (marks : Marker marker radix) (rest : List Char)
        (same : text = '0' :: marker :: rest) : False := by
      rw [same, marks.cutAt?, Option.bind_some] at marked
      exact absurd (marks.radix?.symm.trans marked) (by simp)
    have signed : literal? text = signed? text := by
      unfold literal?
      split
      case h_1 => exact (other .lowerHexadecimal _ rfl).elim
      case h_2 => exact (other .upperHexadecimal _ rfl).elim
      case h_3 => exact (other .lowerOctal _ rfl).elim
      case h_4 => exact (other .upperOctal _ rfl).elim
      case h_5 => exact (other .lowerBinary _ rfl).elim
      case h_6 => exact (other .upperBinary _ rfl).elim
      case h_7 => rfl
    simp only [filtered?_eq_signed?, signed]

end Number

namespace Atom

/-- A lone double quote, or a text of at least two bytes that begins and ends with one. -/
def IsQuoted (text : String) : Prop :=
  text = "\"" ∨
    2 ≤ text.utf8ByteSize ∧ text.toList.head? = some '"' ∧ text.toList.getLast? = some '"'

instance (text : String) : Decidable (IsQuoted text) :=
  inferInstanceAs (Decidable (_ ∨ _))

/-- What stands between the first byte of a text and its last one, if both are characters. -/
def inside? (text : List Char) : Option (List Char) :=
  (cutAt? (byteLength text - 1) text).bind fun (front, _) =>
    (cutAt? 1 front).map fun (_, inner) => inner

/-- Reads an atom by its first and last character, cutting the text at bytes. -/
def cut? (text : String) : Option Atom :=
  if text = "\"" then some (.string "")
  else if IsQuoted text then (inside? text.toList).map fun inner => .string (String.ofList inner)
  else (Number.cut? text.toList).map fun
    | some literal => .number literal.value
    | none =>
      match boolean? text with
      | some value => .boolean value
      | none => .symbol text

private theorem inside?_quoted (inner : List Char) :
    inside? ('"' :: inner ++ ['"']) = some inner := by
  have last := cutAt?_append ('"' :: inner) ['"']
  have first := cutAt?_append ['"'] inner
  have length : byteLength ('"' :: inner ++ ['"']) - 1 = byteLength ('"' :: inner) := by
    rw [byteLength_append]
    rfl
  rw [inside?, length, last, Option.bind_some]
  exact congrArg (Option.map _) first

theorem isQuoted_iff (text : String) :
    IsQuoted text ↔ text = "\"" ∨ ∃ inner, text = "\"" ++ inner ++ "\"" := by
  refine or_congr_right ⟨?_, ?_⟩
  · rintro ⟨size, first, last⟩
    obtain ⟨front, whole⟩ := List.getLast?_eq_some_iff.mp last
    cases front with
    | nil =>
      have lone : text = "\"" := String.toList_inj.mp whole
      rw [lone] at size
      exact absurd size (by decide)
    | cons c inner =>
      rw [whole] at first
      obtain rfl : c = '"' := Option.some.inj first
      refine ⟨String.ofList inner, ?_⟩
      rw [← String.toList_inj, whole]
      simp
  · rintro ⟨inner, rfl⟩
    have quote : "\"".utf8ByteSize = 1 := rfl
    refine ⟨?_, by simp, ?_⟩
    · rw [String.utf8ByteSize_append, String.utf8ByteSize_append]
      omega
    · rw [String.toList_append]
      exact List.getLast?_concat

private theorem isQuoted_of_unquoted? {text : String} {inner : List Char}
    (same : unquoted? text.toList = some inner) : IsQuoted text := by
  rw [isQuoted_iff]
  rcases unquoted?_eq_some same with ⟨lone, _⟩ | enclosed
  · exact .inl (String.toList_inj.mp lone)
  · refine .inr ⟨String.ofList inner, ?_⟩
    rw [← String.toList_inj, enclosed]
    simp

theorem unquoted?_of_not_isQuoted {text : String} (bare : ¬IsQuoted text) :
    unquoted? text.toList = none :=
  Option.eq_none_iff_forall_ne_some.mpr fun _ same => bare (isQuoted_of_unquoted? same)

/-- The words for a truth value. -/
def words : Bool → List String
  | true => ["t", "true"]
  | false => ["nil", "false"]

theorem boolean?_eq_some_iff (text : String) (value : Bool) :
    boolean? text = some value ↔ text ∈ words value := by
  cases value <;> simp [boolean?, words] <;> grind

/-- Why a text is read as an atom: it has the shape for that kind and none of the other shapes. -/
inductive Shape (text : String) : Atom → Prop where
  | string {inner : String}
      (quoted : text = "\"" ∧ inner = "" ∨ text = "\"" ++ inner ++ "\"")
      (unread : Number.ofText? text = none) (unspoken : boolean? text = none) :
      Shape text (.string inner)
  | number {value : Float} (bare : ¬IsQuoted text) (read : Number.ofText? text = some value)
      (unspoken : boolean? text = none) : Shape text (.number value)
  | boolean {value : Bool} (bare : ¬IsQuoted text) (unread : Number.ofText? text = none)
      (word : boolean? text = some value) : Shape text (.boolean value)
  | symbol (bare : ¬IsQuoted text) (unread : Number.ofText? text = none)
      (unspoken : boolean? text = none) : Shape text (.symbol text)

theorem bare_of_boolean? {text : String} {value : Bool} (word : boolean? text = some value) :
    ¬IsQuoted text ∧ Number.ofText? text = none := by
  rw [boolean?_eq_some_iff] at word
  cases value
  all_goals
    rcases List.mem_cons.mp word with rfl | word
    · exact ⟨by decide, rfl⟩
    · obtain rfl := List.mem_singleton.mp word
      exact ⟨by decide, rfl⟩

theorem isQuoted_iff_ofText (text : String) :
    IsQuoted text ↔ ∃ inner, ofText text = .string inner := by
  constructor
  · intro quoted
    rcases (isQuoted_iff text).mp quoted with rfl | ⟨inner, rfl⟩
    · exact ⟨"", rfl⟩
    · exact ⟨inner, ofText_quoted inner⟩
  · rintro ⟨inner, same⟩
    have spelled := spells_ofText text
    rw [same] at spelled
    rw [isQuoted_iff]
    cases spelled with
    | loneQuote => exact .inl rfl
    | quoted => exact .inr ⟨inner, rfl⟩

private theorem not_isQuoted_of_number {text : String} {value : Float}
    (read : Number.ofText? text = some value) : ¬IsQuoted text := by
  rw [isQuoted_iff_ofText, ofText_of_number read]
  simp

theorem shape_ofText (text : String) : Shape text (ofText text) := by
  have unspoken (other : IsQuoted text ∨ ∃ value, Number.ofText? text = some value) :
      boolean? text = none := by
    refine Option.eq_none_iff_forall_ne_some.mpr fun value word => ?_
    obtain ⟨bare, unread⟩ := bare_of_boolean? word
    rcases other with quoted | ⟨value, read⟩
    · exact bare quoted
    · rw [unread] at read
      cases read
  by_cases quoted : IsQuoted text
  · obtain ⟨inner, same⟩ := (isQuoted_iff_ofText text).mp quoted
    have spelled := spells_ofText text
    rw [same] at spelled ⊢
    refine .string ?_ ?_ (unspoken (.inl quoted))
    · cases spelled with
      | loneQuote => exact .inl ⟨rfl, rfl⟩
      | quoted => exact .inr rfl
    · exact Option.eq_none_iff_forall_ne_some.mpr fun _ read => not_isQuoted_of_number read quoted
  · rw [ofText, unquoted?_of_not_isQuoted quoted]
    cases read : Number.ofText? text with
    | some value => exact .number quoted read (unspoken (.inr ⟨value, read⟩))
    | none =>
      cases word : boolean? text with
      | some value => exact .boolean quoted read word
      | none => exact .symbol quoted read word

section OfText

variable {text : String}

theorem Shape.of_ofText {atom : Atom} (same : ofText text = atom) : Shape text atom := by
  rw [← same]
  exact shape_ofText text

theorem ofText_eq_number_iff (value : Float) :
    ofText text = .number value ↔ Number.ofText? text = some value := by
  refine ⟨fun same => ?_, ofText_of_number⟩
  cases Shape.of_ofText same with
  | number bare read unspoken => exact read

theorem ofText_eq_string_iff (inner : String) :
    ofText text = .string inner ↔ text = "\"" ∧ inner = "" ∨ text = "\"" ++ inner ++ "\"" := by
  constructor
  · intro same
    cases Shape.of_ofText same with
    | string quoted unread unspoken => exact quoted
  · rintro (⟨rfl, rfl⟩ | rfl)
    · rfl
    · exact ofText_quoted inner

theorem ofText_eq_boolean_iff (value : Bool) :
    ofText text = .boolean value ↔ text ∈ words value := by
  rw [← boolean?_eq_some_iff]
  constructor
  · intro same
    cases Shape.of_ofText same with
    | boolean bare unread word => exact word
  · intro word
    obtain ⟨bare, unread⟩ := bare_of_boolean? word
    rw [ofText, unquoted?_of_not_isQuoted bare, unread, word]

theorem isSome_ofText?_iff :
    (Number.ofText? text).isSome = true ↔ Number.Numeral text.toList := by
  rw [Number.ofText?, Option.isSome_map, Number.isSome_literal?_iff]

theorem ofText_eq_symbol_iff (name : String) :
    ofText text = .symbol name ↔
      name = text ∧ ¬Number.Numeral text.toList ∧ ¬IsQuoted text ∧ ∀ value, text ∉ words value := by
  simp only [← isSome_ofText?_iff, ← boolean?_eq_some_iff]
  constructor
  · intro same
    cases Shape.of_ofText same with
    | symbol bare unread unspoken => simp [bare, unread, unspoken]
  · rintro ⟨rfl, unread, bare, unspoken⟩
    rw [ofText, unquoted?_of_not_isQuoted bare, Option.not_isSome_iff_eq_none.mp unread,
      Option.eq_none_iff_forall_ne_some.mpr unspoken]

end OfText

/-- The cuts of an atom and of a literal in it succeed on every text, and what they read is the
atom. -/
theorem cut?_eq (text : String) : cut? text = some (ofText text) := by
  rw [cut?]
  split
  case isTrue lone =>
    rw [lone]
    rfl
  case isFalse wide =>
    split
    case isTrue quoted =>
      obtain ⟨inner, rfl⟩ := ((isQuoted_iff text).mp quoted).resolve_left wide
      have enclosed : inside? ("\"" ++ inner ++ "\"").toList = some inner.toList := by
        simpa using inside?_quoted inner.toList
      rw [enclosed, ofText_quoted, Option.map_some, String.ofList_toList]
    case isFalse bare =>
      rw [Number.cut?_eq, Option.map_some, ofText, unquoted?_of_not_isQuoted bare, Number.ofText?]
      cases Number.literal? text.toList with
      | some literal => rfl
      | none => cases boolean? text <;> rfl

/-- What the text of an atom looks like, for each kind of atom, and that cutting the text at bytes
finds it. -/
structure ReadByShape (text : String) : Prop where
  numeral : (Number.ofText? text).isSome = true ↔ Number.Numeral text.toList
  number (value : Float) : ofText text = .number value ↔ Number.ofText? text = some value
  quoted : (∃ inner, ofText text = .string inner) ↔ IsQuoted text
  string (inner : String) : ofText text = .string inner ↔
    text = "\"" ∧ inner = "" ∨ text = "\"" ++ inner ++ "\""
  boolean (value : Bool) : ofText text = .boolean value ↔ text ∈ words value
  symbol (name : String) : ofText text = .symbol name ↔
    name = text ∧ ¬Number.Numeral text.toList ∧ ¬IsQuoted text ∧ ∀ value, text ∉ words value
  cutLiteral : Number.cut? text.toList = some (Number.literal? text.toList)
  cut : cut? text = some (ofText text)

theorem ofText_by_shape (text : String) : ReadByShape text where
  numeral := isSome_ofText?_iff
  number := ofText_eq_number_iff
  quoted := (isQuoted_iff_ofText text).symm
  string := ofText_eq_string_iff
  boolean := ofText_eq_boolean_iff
  symbol := ofText_eq_symbol_iff
  cutLiteral := Number.cut?_eq text.toList
  cut := cut?_eq text

end Atom
end EagerLisp
