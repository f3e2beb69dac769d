import EagerLisp.Text
import Mathlib.Data.List.Induction

namespace EagerLisp

/-- Code in which every comment and every quoted stretch has been closed. -/
inductive Settled : List Char → Prop where
  | nil : Settled []
  | code {front : List Char} {c : Char} (settled : Settled front) (noComment : c ≠ ';')
      (noQuote : c ≠ '"') : Settled (front ++ [c])
  | comment {front inside : List Char} (settled : Settled front) (unclosed : '\n' ∉ inside) :
      Settled (front ++ ';' :: inside ++ ['\n'])
  | quoted {front inside : List Char} (settled : Settled front) (unclosed : '"' ∉ inside) :
      Settled (front ++ '"' :: inside ++ ['"'])

/-- The text ends in a stretch that a mark has opened in code and that its closing mark has not
closed yet. -/
def EndsInside (opening closing : Char) (text : List Char) : Prop :=
  ∃ front inside, text = front ++ opening :: inside ∧ Settled front ∧ closing ∉ inside

/-- The character behind `front` belongs to a comment: it opens one, or one is open before it. -/
def InComment (front : List Char) (c : Char) : Prop :=
  Settled front ∧ c = ';' ∨ EndsInside ';' '\n' front

/-- The character behind `front` belongs to a quoted stretch: it opens one, or one is open before
it. -/
def InQuotes (front : List Char) (c : Char) : Prop :=
  Settled front ∧ c = '"' ∨ EndsInside '"' '"' front

namespace Region

/-- The region behind a text. -/
abbrev behind (text : List Char) : Region :=
  text.foldl after .code

theorem behind_append (front back : List Char) :
    behind (front ++ back) = back.foldl after (behind front) :=
  List.foldl_append

theorem comment_after {c : Char} (inside : c ≠ '\n') : Region.comment.after c = .comment :=
  if_neg inside

theorem quoted_after {c : Char} (inside : c ≠ '"') : Region.quoted.after c = .quoted :=
  if_neg inside

section Closing

variable {region : Region} {opening closing : Char}
  (stays : ∀ {c : Char}, c ≠ closing → region.after c = region)

include stays

/-- A region goes on as long as the mark that closes it does not come. -/
private theorem foldl_after {inside : List Char} (unclosed : closing ∉ inside) :
    inside.foldl after region = region := by
  induction inside with
  | nil => rfl
  | cons c rest ih =>
    obtain ⟨different, later⟩ := List.ne_and_not_mem_of_not_mem_cons unclosed
    rw [List.foldl_cons, stays different.symm]
    exact ih later

private theorem behind_unclosed {front inside : List Char} (code : behind front = .code)
    (opens : Region.code.after opening = region) (unclosed : closing ∉ inside) :
    behind (front ++ opening :: inside) = region := by
  rw [behind_append, code, List.foldl_cons, opens]
  exact foldl_after stays unclosed

end Closing

theorem behind_of_settled {text : List Char} (settled : Settled text) : behind text = .code := by
  induction settled with
  | nil => rfl
  | code settled noComment noQuote ih =>
    rw [behind_append, ih, List.foldl_cons, after, if_neg noQuote, if_neg noComment]
    rfl
  | comment settled unclosed ih =>
    rw [behind_append, behind_unclosed comment_after ih rfl unclosed]
    rfl
  | quoted settled unclosed ih =>
    rw [behind_append, behind_unclosed quoted_after ih rfl unclosed]
    rfl

private theorem behind_of_endsInside {region : Region} {opening closing : Char}
    (stays : ∀ {c : Char}, c ≠ closing → region.after c = region)
    (opens : Region.code.after opening = region) {text : List Char}
    (ends : EndsInside opening closing text) : behind text = region := by
  obtain ⟨front, inside, rfl, settled, unclosed⟩ := ends
  exact behind_unclosed stays (behind_of_settled settled) opens unclosed

/-- What a text that ends in a region looks like. -/
def Describes (text : List Char) : Region → Prop
  | .code => Settled text
  | .quoted => EndsInside '"' '"' text
  | .comment => EndsInside ';' '\n' text

private theorem EndsInside.snoc {opening closing c : Char} {text : List Char}
    (ends : EndsInside opening closing text) (different : c ≠ closing) :
    EndsInside opening closing (text ++ [c]) := by
  obtain ⟨front, inside, rfl, settled, unclosed⟩ := ends
  refine ⟨front, inside ++ [c], by simp, settled, fun member => ?_⟩
  rcases List.mem_append.mp member with early | last
  · exact unclosed early
  · exact different (List.mem_singleton.mp last).symm

/-- One more character leads from one description to the next. -/
theorem describes_after {text : List Char} {region : Region} (described : Describes text region)
    (c : Char) : Describes (text ++ [c]) (region.after c) := by
  cases region with
  | code =>
    rw [after]
    split_ifs with quote comment
    · exact ⟨text, [], by rw [quote], described, List.not_mem_nil⟩
    · exact ⟨text, [], by rw [comment], described, List.not_mem_nil⟩
    · exact .code described comment quote
  | quoted =>
    rw [after]
    split_ifs with quote
    · obtain ⟨front, inside, rfl, settled, unclosed⟩ := described
      subst quote
      exact .quoted settled unclosed
    · exact EndsInside.snoc described quote
  | comment =>
    rw [after]
    split_ifs with newline
    · obtain ⟨front, inside, rfl, settled, unclosed⟩ := described
      subst newline
      exact .comment settled unclosed
    · exact EndsInside.snoc described newline

theorem describes_behind (text : List Char) : Describes text (behind text) := by
  induction text using List.reverseRecOn with
  | nil => exact .nil
  | append_singleton front c ih =>
    rw [behind_append]
    exact describes_after ih c

theorem behind_eq_code {text : List Char} : behind text = .code ↔ Settled text := by
  refine ⟨fun code => ?_, behind_of_settled⟩
  have described := describes_behind text
  rwa [code] at described

theorem behind_eq_comment {text : List Char} :
    behind text = .comment ↔ EndsInside ';' '\n' text := by
  refine ⟨fun comment => ?_, behind_of_endsInside comment_after rfl⟩
  have described := describes_behind text
  rwa [comment] at described

theorem behind_eq_quoted {text : List Char} :
    behind text = .quoted ↔ EndsInside '"' '"' text := by
  refine ⟨fun quoted => ?_, behind_of_endsInside quoted_after rfl⟩
  have described := describes_behind text
  rwa [quoted] at described

theorem holding_eq_comment {front : List Char} {c : Char} :
    (behind front).holding c = .comment ↔ InComment front c := by
  rw [InComment, ← behind_eq_code, ← behind_eq_comment]
  cases behind front with
  | code =>
    simp only [holding, after]
    split_ifs with quote comment
    · simp [quote]
    · simp [comment]
    · simp [comment]
  | quoted => simp [holding]
  | comment => simp [holding]

theorem holding_eq_quoted {front : List Char} {c : Char} :
    (behind front).holding c = .quoted ↔ InQuotes front c := by
  rw [InQuotes, ← behind_eq_code, ← behind_eq_quoted]
  cases behind front with
  | code =>
    simp only [holding, after]
    split_ifs with quote comment
    · simp [quote]
    · simp [quote]
    · simp [quote]
  | quoted => simp [holding]
  | comment => simp [holding]

end Region
end EagerLisp
