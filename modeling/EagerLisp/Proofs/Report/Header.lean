import EagerLisp.Interpreter
import EagerLisp.Report
import EagerLisp.Proofs.Node.Place
import EagerLisp.Proofs.Report.Lines

/-! The place that a report names. A report takes the ends of a stretch, which are counted in bytes,
for counts of characters. So it names the line and the column of the character that the error stands
at exactly if every character before that one is a single byte, and it names a place at all only if
the stretch does not end too far behind the last character. -/
namespace EagerLisp

namespace Report

/-- The row that names a line and a column, indented by so many spaces. -/
def headerRow (indent : Nat) (name : String) (line column : Nat) : String :=
  run indent ' ' ++ "╭─[ " ++ name ++ ":" ++ toString line ++ ":" ++ toString column ++ " ]"

/-- The report names this line and this column under its headline. -/
def Locates (name source : String) (error : Error) (line column : Nat) : Prop :=
  ∃ (indent : Nat) (rest : String), render name source error =
    "Error: " ++ (texts error).1 ++ "\n" ++ (headerRow indent name line column ++ "\n" ++ rest)

/-- Where two texts are alike that begin with characters of one kind and go on with another kind,
they have the same characters of the first kind. -/
theorem split_unique_of_kind {kind : Char → Prop} {first second rest other : List Char}
    {c d : Char} (left : ∀ x ∈ first, kind x) (right : ∀ x ∈ second, kind x) (ends : ¬kind c)
    (stops : ¬kind d) (same : first ++ c :: rest = second ++ d :: other) :
    first = second ∧ rest = other := by
  rcases split_cases same with ⟨equal, _, behind⟩ | ⟨between, rfl, _⟩ | ⟨between, rfl, _⟩
  · exact ⟨equal, behind⟩
  · exact absurd (right c (by simp)) ends
  · exact absurd (left d (by simp)) stops

private theorem toList_toString (number : Nat) :
    (toString number).toList = Nat.toDigits 10 number :=
  String.toList_ofList

private theorem numeral_unique {number twin : Nat} {c d : Char} {rest other : List Char}
    (ends : c.isDigit = false) (stops : d.isDigit = false)
    (same : (toString number).toList ++ c :: rest = (toString twin).toList ++ d :: other) :
    number = twin ∧ rest = other := by
  have digits (number : Nat) : ∀ c ∈ Nat.toDigits 10 number, c.isDigit = true :=
    fun c member => Nat.isDigit_of_mem_toDigits (by decide) (by decide) member
  rw [toList_toString, toList_toString] at same
  obtain ⟨equal, behind⟩ := split_unique_of_kind (digits number) (digits twin) (by simp [ends])
    (by simp [stops]) same
  refine ⟨?_, behind⟩
  rw [← Nat.ofDigitChars_toDigits (n := number) (by decide) (Nat.le_refl 10), equal,
    Nat.ofDigitChars_toDigits (by decide) (Nat.le_refl 10)]

/-- The line and the column that a row names are known from the text that it begins. -/
theorem headerRow_unique {indent indentTwin : Nat} {name rest other : String}
    {line column lineTwin columnTwin : Nat}
    (same : headerRow indent name line column ++ "\n" ++ rest =
      headerRow indentTwin name lineTwin columnTwin ++ "\n" ++ other) :
    line = lineTwin ∧ column = columnTwin := by
  have listed := congrArg String.toList same
  simp only [headerRow, run, String.toList_append, String.toList_ofList, List.append_assoc]
    at listed
  have spaces (count : Nat) : ∀ c ∈ List.replicate count ' ', c = ' ' :=
    fun c member => List.eq_of_mem_replicate member
  obtain ⟨_, behind⟩ := split_unique_of_kind (spaces indent) (spaces indentTwin)
    (by decide : '╭' ≠ ' ') (by decide : '╭' ≠ ' ') listed
  have named := List.append_cancel_left (List.append_cancel_left behind)
  have numerals := List.append_cancel_left named
  obtain ⟨lines, later⟩ := numeral_unique (by decide) (by decide) numerals
  obtain ⟨columns, _⟩ := numeral_unique (by decide) (by decide) later
  exact ⟨lines, columns⟩

variable {name source label : String} {error : Error} {span : Span} {line column : Nat}

/-- The last character of a stretch, or the only one if the stretch is empty. -/
def lastOf (span : Span) : Nat :=
  max span.start (span.stop - 1)

theorem lineAt?_lastOf (lines : List Line) (span : Span) :
    (if span.start < span.stop then lineAt? lines (span.stop - 1) else lineAt? lines span.start) =
      lineAt? lines (lastOf span) := by
  unfold lastOf
  split
  case isTrue some => rw [Nat.max_eq_right (by omega)]
  case isFalse none => rw [Nat.max_eq_left (by omega)]

theorem rows_eq_cons (name label : String) {lines : List Line} {first last : Line}
    (begun : lineAt? lines span.start = some first)
    (ended : lineAt? lines (lastOf span) = some last) :
    ∃ indent more, rows name lines span label =
      headerRow indent name (first.number + 1) (span.start - first.start + 1) :: more := by
  unfold rows
  rw [lineAt?_lastOf]
  simp only [begun, ended, Frame.header, List.cons_append]
  exact ⟨_, _, rfl⟩

theorem rows_eq_nil {lines : List Line}
    (outside : lineAt? lines span.start = none ∨ lineAt? lines (lastOf span) = none) :
    rows name lines span label = [] := by
  simp only [rows, lineAt?_lastOf]
  rcases outside with none | none
  · rw [none]
  · rw [none]
    cases lineAt? lines span.start <;> rfl

theorem render_eq (name source : String) (error : Error) :
    render name source error = "Error: " ++ (texts error).1 ++ "\n" ++
      String.join ((rows name (linesOf source) (marked source error) (texts error).2).map
        (· ++ "\n")) := by
  simp only [render, List.map_cons, String.join_cons]

theorem not_locates_of_rows_eq_nil
    (none : rows name (linesOf source) (marked source error) (texts error).2 = []) :
    ¬Locates name source error line column := by
  rintro ⟨indent, rest, same⟩
  rw [render_eq, none] at same
  have empty := congrArg String.toList ((String.append_right_inj _).mp same)
  simp [headerRow] at empty

/-- A report names the line in which the character with the number of the first byte stands, and the
column that this number comes to there, if both ends of the stretch are found when they are taken
for numbers of characters. -/
theorem locates_iff :
    Locates name source error line column ↔ ∃ first last,
      lineAt? (linesOf source) (marked source error).start = some first ∧
        lineAt? (linesOf source) (lastOf (marked source error)) = some last ∧
          line = first.number + 1 ∧ column = (marked source error).start - first.start + 1 := by
  constructor
  · intro located
    cases begun : lineAt? (linesOf source) (marked source error).start with
    | none => exact absurd located (not_locates_of_rows_eq_nil (rows_eq_nil (.inl begun)))
    | some first =>
      cases ended : lineAt? (linesOf source) (lastOf (marked source error)) with
      | none => exact absurd located (not_locates_of_rows_eq_nil (rows_eq_nil (.inr ended)))
      | some last =>
        obtain ⟨indent, rest, same⟩ := located
        obtain ⟨margin, more, rows⟩ := rows_eq_cons name (texts error).2 begun ended
        rw [render_eq, rows, List.map_cons, String.join_cons] at same
        obtain ⟨lines, columns⟩ := headerRow_unique ((String.append_right_inj _).mp same)
        exact ⟨first, last, rfl, rfl, lines.symm, columns.symm⟩
  · rintro ⟨first, last, begun, ended, rfl, rfl⟩
    obtain ⟨margin, more, same⟩ := rows_eq_cons name (texts error).2 begun ended
    refine ⟨margin, String.join (more.map (· ++ "\n")), ?_⟩
    rw [render_eq, same, List.map_cons, String.join_cons]

/-- The character that the error's stretch begins with is the one that the report names exactly if
no character before it takes more than one byte, and if the stretch, counted in bytes, ends at most
one behind the number of characters in the text. -/
theorem locates_iff_of_standsAt {front back : List Char} {c : Char}
    (placed : error.span? = some span) (split : source.toList = front ++ c :: back)
    (begins : Token.byteLength front = span.start)
    (stands : StandsAt source.toList front.length line column) :
    Locates name source error line column ↔
      (∀ other ∈ front, other.utf8Size = 1) ∧ span.stop ≤ source.length + 1 := by
  have same : marked source error = span := by rw [marked, placed, Option.getD_some]
  have counted : source.toList.length = source.length := source.length_toList
  have inside : front.length < source.length := by
    rw [← counted, split, List.length_append, List.length_cons]
    omega
  have found (character : Nat) :
      (∃ line, lineAt? (linesOf source) character = some line) ↔ character ≤ source.length := by
    rw [exists_lineAt?_iff, counted]
  rw [locates_iff, same, ← Token.byteLength_eq_length_iff, begins]
  constructor
  · rintro ⟨first, last, begun, ended, rfl, across⟩
    have closes := (found _).mp ⟨last, ended⟩
    exact ⟨stands.eq_of_lineAt? begun across, by unfold lastOf at closes; omega⟩
  · rintro ⟨narrow, bounded⟩
    obtain ⟨earlier, before, d, behind, later, whole, index, rfl, rfl⟩ := stands
    have within : before.length < (before ++ d :: behind).length := by
      rw [List.length_append, List.length_cons]
      omega
    have begun := lineAt?_of_pieces whole within
    rw [← index, ← narrow] at begun
    obtain ⟨last, ended⟩ := (found (lastOf span)).mpr (by unfold lastOf; omega)
    refine ⟨_, last, begun, ended, rfl, ?_⟩
    simp only
    omega

end Report
end EagerLisp
