import Mathlib.Data.List.TakeWhile
import Mathlib.Tactic.SplitIfs
import EagerLisp.Report

namespace EagerLisp.Report

/-- The lines that a text is cut into, each with its terminator. -/
abbrev pieces (text : List Char) : List (List Char) :=
  cutLines [] [] text

/-- The character at this index stands in the line and the column, both counted from one: so many
whole lines come before it, and so many characters of its own line. -/
def StandsAt (text : List Char) (index line column : Nat) : Prop :=
  ∃ earlier inside c behind later, pieces text = earlier ++ (inside ++ c :: behind) :: later ∧
    index = earlier.flatten.length + inside.length ∧
    line = earlier.length + 1 ∧ column = inside.length + 1

private theorem flatten_cutLines (lines : List (List Char)) (current text : List Char) :
    (cutLines lines current text).flatten = lines.reverse.flatten ++ current.reverse ++ text := by
  fun_induction cutLines lines current text with
  | case1 lines current ended =>
    obtain ⟨rfl, _⟩ : current = [] ∧ lines ≠ [] := by simpa using ended
    simp
  | case2 => simp
  | case3 lines current rest ih =>
    rw [ih]
    simp
  | case4 lines current c rest _ ends ih =>
    rw [ih]
    simp
  | case5 lines current c rest _ goes ih =>
    rw [ih]
    simp

theorem flatten_pieces (text : List Char) : (pieces text).flatten = text := by
  rw [pieces, flatten_cutLines]
  rfl

theorem cutLines_ne_nil (lines : List (List Char)) (current text : List Char) :
    cutLines lines current text ≠ [] := by
  fun_induction cutLines lines current text with
  | case1 lines current ended =>
    obtain ⟨_, some⟩ : current = [] ∧ lines ≠ [] := by simpa using ended
    simpa using some
  | case2 => simp
  | case3 lines current rest ih => exact ih
  | case4 lines current c rest _ ends ih => exact ih
  | case5 lines current c rest _ goes ih => exact ih

section Placing

variable {number start : Nat} {cut : List (List Char)} {line : Line}

private theorem placeLines_found (found : List Line) (number start : Nat) (cut : List (List Char)) :
    placeLines found number start cut = found.reverse ++ placeLines [] number start cut := by
  induction cut generalizing found number start with
  | nil => simp [placeLines]
  | cons characters rest ih =>
    rw [placeLines, ih, placeLines, ih [_]]
    simp

theorem placeLines_cons (number start : Nat) (characters : List Char) (rest : List (List Char)) :
    placeLines [] number start (characters :: rest) =
      ⟨number, start, characters⟩ ::
        placeLines [] (number + 1) (start + characters.length) rest := by
  rw [placeLines, placeLines_found]
  rfl

theorem placeLines_append (number start : Nat) (first second : List (List Char)) :
    placeLines [] number start (first ++ second) =
      placeLines [] number start first ++
        placeLines [] (number + first.length) (start + first.flatten.length) second := by
  induction first generalizing number start with
  | nil => simp [placeLines]
  | cons characters rest ih =>
    rw [List.cons_append, placeLines_cons, placeLines_cons, ih]
    simp [Nat.add_assoc, Nat.add_comm 1]

/-- The number of a line counts the lines before it, and its start their characters. -/
theorem mem_placeLines (member : line ∈ placeLines [] number start cut) :
    ∃ earlier current later, cut = earlier ++ current :: later ∧
      line = ⟨number + earlier.length, start + earlier.flatten.length, current⟩ := by
  induction cut generalizing number start with
  | nil => simp [placeLines] at member
  | cons characters rest ih =>
    rw [placeLines_cons] at member
    rcases List.mem_cons.mp member with rfl | member
    · exact ⟨[], characters, rest, rfl, rfl⟩
    · obtain ⟨earlier, current, later, rfl, rfl⟩ := ih member
      refine ⟨characters :: earlier, current, later, rfl, ?_⟩
      simp [Nat.add_assoc, Nat.add_comm 1]

end Placing

section Finding

variable {text : String} {character : Nat} {line : Line}

theorem getLast?_linesOf (text : String) : ∃ last, (linesOf text).getLast? = some last ∧
    last.start + last.length = text.toList.length := by
  have some := cutLines_ne_nil [] [] text.toList
  have whole := flatten_pieces text.toList
  rw [pieces, ← List.dropLast_concat_getLast some] at whole
  rw [linesOf, ← List.dropLast_concat_getLast some, placeLines_append, placeLines_cons]
  refine ⟨_, List.getLast?_concat .., ?_⟩
  rw [← congrArg List.length whole]
  simp [Line.length]

theorem linesOf_eq_cons (text : String) : ∃ characters rest,
    linesOf text = ⟨0, 0, characters⟩ :: rest := by
  rw [linesOf]
  cases same : cutLines [] [] text.toList with
  | nil => exact absurd same (cutLines_ne_nil _ _ _)
  | cons characters rest => exact ⟨characters, _, placeLines_cons 0 0 characters rest⟩

/-- A line is found for every character and for the end of the text. -/
theorem exists_lineAt?_iff :
    (∃ line, lineAt? (linesOf text) character = some line) ↔ character ≤ text.toList.length := by
  obtain ⟨last, same, ends⟩ := getLast?_linesOf text
  obtain ⟨characters, rest, first⟩ := linesOf_eq_cons text
  have begun : ((linesOf text).takeWhile (·.start ≤ character)).getLast?.isSome := by
    rw [first, List.takeWhile_cons_of_pos (by simp), List.getLast?_isSome]
    simp
  simp only [lineAt?, same, ends]
  split_ifs with within
  · simpa [within] using Option.isSome_iff_exists.mp begun
  · simp [within]

private theorem mem_of_lineAt? (found : lineAt? (linesOf text) character = some line) :
    line ∈ linesOf text ∧ line.start ≤ character := by
  obtain ⟨last, same, _⟩ := getLast?_linesOf text
  simp only [lineAt?, same] at found
  split_ifs at found
  have member := List.mem_of_getLast? found
  exact ⟨(List.takeWhile_sublist _).mem member, by simpa using List.mem_takeWhile_imp member⟩

/-- The line that is found for a character is the one that the character stands in. -/
theorem lineAt?_of_pieces {earlier later : List (List Char)} {current : List Char}
    (whole : pieces text.toList = earlier ++ current :: later) {inside : Nat}
    (within : inside < current.length) :
    lineAt? (linesOf text) (earlier.flatten.length + inside) =
      some ⟨earlier.length, earlier.flatten.length, current⟩ := by
  obtain ⟨last, same, ends⟩ := getLast?_linesOf text
  have bounded : earlier.flatten.length + inside ≤ last.start + last.length := by
    rw [ends, ← flatten_pieces text.toList, whole]
    simp only [List.flatten_append, List.flatten_cons, List.length_append]
    omega
  have before : ∀ line ∈ placeLines [] 0 0 earlier,
      decide (line.start ≤ earlier.flatten.length + inside) = true := by
    intro line member
    obtain ⟨front, piece, back, rfl, rfl⟩ := mem_placeLines member
    simp only [List.flatten_append, List.flatten_cons, List.length_append, decide_eq_true_eq]
    omega
  have behind : (placeLines [] (earlier.length + 1) (earlier.flatten.length + current.length)
      later).takeWhile (·.start ≤ earlier.flatten.length + inside) = [] := by
    cases later with
    | nil => rfl
    | cons next others =>
      rw [placeLines_cons, List.takeWhile_cons_of_neg]
      simpa using within
  have placed := placeLines_append 0 0 earlier (current :: later)
  rw [placeLines_cons, Nat.zero_add, Nat.zero_add] at placed
  simp only [lineAt?, same, if_pos bounded]
  rw [linesOf, ← pieces, whole, placed, List.takeWhile_append_of_pos before,
    List.takeWhile_cons_of_pos (by simp), behind, List.getLast?_concat]

theorem StandsAt.eq_of_lineAt? {index column : Nat} (stands : StandsAt text.toList index
    (line.number + 1) column) (found : lineAt? (linesOf text) character = some line)
    (same : column = character - line.start + 1) : character = index := by
  obtain ⟨earlier, inside, c, behind, later, whole, rfl, number, rfl⟩ := stands
  obtain ⟨member, begun⟩ := mem_of_lineAt? found
  obtain ⟨front, piece, back, split, rfl⟩ := mem_placeLines member
  have apart : front = earlier ∧ piece :: back = (inside ++ c :: behind) :: later := by
    refine List.append_inj (split.symm.trans whole) ?_
    simpa using number
  obtain ⟨rfl, _⟩ := apart
  simp only [Nat.zero_add] at begun same
  omega

end Finding

end EagerLisp.Report
