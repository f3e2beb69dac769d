import Mathlib.Tactic.SplitIfs
import EagerLisp.Proofs.Token.OnePass

namespace EagerLisp

/-- The byte at this offset begins a character of the text, or the text ends there. -/
def Edge (text : List Char) (offset : Nat) : Prop :=
  ∃ front back, text = front ++ back ∧ Token.byteLength front = offset

/-- A stretch of whole characters of the text. -/
structure Span.FitsIn (span : Span) (text : List Char) : Prop where
  ordered : span.start ≤ span.stop
  starts : Edge text span.start
  stops : Edge text span.stop

theorem split_cases {α : Type} {front back before behind : List α} {item other : α}
    (same : front ++ item :: back = before ++ other :: behind) :
    (front = before ∧ item = other ∧ back = behind) ∨
      (∃ between, before = front ++ item :: between ∧ back = between ++ other :: behind) ∨
      ∃ between, front = before ++ other :: between ∧ behind = between ++ item :: back := by
  rcases List.append_eq_append_iff.mp same with ⟨between, rfl, rest⟩ | ⟨between, rfl, rest⟩
  · cases between with
    | nil => cases rest; exact .inl ⟨by simp, rfl, rfl⟩
    | cons first between => cases rest; exact .inr (.inl ⟨between, rfl, rfl⟩)
  · cases between with
    | nil => cases rest; exact .inl ⟨by simp, rfl, rfl⟩
    | cons first between => cases rest; exact .inr (.inr ⟨between, rfl, rfl⟩)

theorem split_snoc_cases {α : Type} {list front back : List α} {last item : α}
    (same : list ++ [last] = front ++ item :: back) :
    (list = front ∧ last = item ∧ back = []) ∨
      ∃ between, list = front ++ item :: between ∧ back = between ++ [last] := by
  rcases split_cases same with ⟨whole, equal, rest⟩ | ⟨between, _, rest⟩ | ⟨between, whole, rest⟩
  · exact .inl ⟨whole, equal, rest.symm⟩
  · simp at rest
  · exact .inr ⟨between, whole, rest⟩

namespace Token

theorem byteLength_append (first second : List Char) :
    byteLength (first ++ second) = byteLength first + byteLength second := by
  induction first with
  | nil => simp
  | cons c rest ih => simp [ih, Nat.add_assoc]

theorem split_unique_of_byteLength {front back before behind : List Char} {c other : Char}
    (same : front ++ c :: back = before ++ other :: behind)
    (length : byteLength front = byteLength before) :
    front = before ∧ c = other ∧ back = behind := by
  rcases split_cases same with equal | ⟨between, rfl, _⟩ | ⟨between, rfl, _⟩
  · exact equal
  · have wide := c.utf8Size_pos
    rw [byteLength_append, byteLength_cons] at length
    omega
  · have wide := other.utf8Size_pos
    rw [byteLength_append, byteLength_cons] at length
    omega

theorem byteLength_take_lt {text : List Char} {index other : Nat} (lt : index < other)
    (within : other ≤ text.length) :
    byteLength (text.take index) < byteLength (text.take other) := by
  have split := List.take_append_drop index (text.take other)
  rw [List.take_take, Nat.min_eq_left (Nat.le_of_lt lt)] at split
  rw [← split, byteLength_append]
  cases rest : (text.take other).drop index with
  | nil =>
    have short := List.drop_eq_nil_iff.mp rest
    rw [List.length_take_of_le within] at short
    omega
  | cons c rest =>
    have wide := c.utf8Size_pos
    rw [byteLength_cons]
    omega

theorem byteLength_lt_of_length_lt {text front back before behind : List Char}
    (whole : text = front ++ back) (split : text = before ++ behind)
    (lt : front.length < before.length) : byteLength front < byteLength before := by
  have bound : before.length ≤ text.length := by simp [split]
  have less := byteLength_take_lt lt bound
  have first : text.take front.length = front := by rw [whole, List.take_left]
  have second : text.take before.length = before := by rw [split, List.take_left]
  rwa [first, second] at less

private theorem length_le_byteLength (text : List Char) : text.length ≤ byteLength text := by
  induction text with
  | nil => exact Nat.le_refl _
  | cons c rest ih =>
    have wide := c.utf8Size_pos
    rw [byteLength_cons, List.length_cons]
    omega

/-- A text has equally many bytes and characters only if each of them is a single byte. -/
theorem byteLength_eq_length_iff {text : List Char} :
    byteLength text = text.length ↔ ∀ c ∈ text, c.utf8Size = 1 := by
  induction text with
  | nil => simp
  | cons c rest ih =>
    have wide := c.utf8Size_pos
    have further := length_le_byteLength rest
    rw [List.forall_mem_cons, ← ih, byteLength_cons, List.length_cons]
    omega

theorem byteLength_eq_utf8ByteSize (text : List Char) :
    byteLength text = (String.ofList text).utf8ByteSize := by
  induction text with
  | nil => rfl
  | cons c rest ih =>
    have split : String.ofList (c :: rest) = String.singleton c ++ String.ofList rest := by
      rw [String.singleton_eq_ofList, ← String.ofList_append]
      rfl
    rw [split, String.utf8ByteSize_append, String.utf8ByteSize_singleton, byteLength_cons, ih]

end Token

open Token

theorem Edge.append {text : List Char} {offset : Nat} (edge : Edge text offset)
    (more : List Char) : Edge (text ++ more) offset := by
  obtain ⟨front, back, whole, length⟩ := edge
  exact ⟨front, back ++ more, by rw [whole, List.append_assoc], length⟩

theorem Edge.last (text : List Char) : Edge text (byteLength text) :=
  ⟨text, [], by simp, rfl⟩

theorem Edge.le {text : List Char} {offset : Nat} (edge : Edge text offset) :
    offset ≤ byteLength text := by
  obtain ⟨front, back, whole, length⟩ := edge
  rw [whole, byteLength_append]
  omega

/-- Edges are the valid positions of the text as a string. -/
theorem Edge.isValid {source : String} {offset : Nat} (edge : Edge source.toList offset) :
    String.Pos.Raw.IsValid source ⟨offset⟩ := by
  obtain ⟨front, back, whole, length⟩ := edge
  refine String.Pos.Raw.isValid_iff_exists_append.mpr
    ⟨String.ofList front, String.ofList back, ?_, ?_⟩
  · rw [← String.ofList_append, ← whole, String.ofList_toList]
  · rw [String.Pos.Raw.ext_iff, String.byteIdx_rawEndPos, ← byteLength_eq_utf8ByteSize, length]

private theorem Span.FitsIn.append {span : Span} {text : List Char} (fits : span.FitsIn text)
    (more : List Char) : span.FitsIn (text ++ more) :=
  ⟨fits.ordered, fits.starts.append more, fits.stops.append more⟩

theorem Span.FitsIn.hull {first second : Span} {text : List Char} (left : first.FitsIn text)
    (right : second.FitsIn text) : (first.hull second).FitsIn text := by
  have ordered := left.ordered
  have ordered' := right.ordered
  refine ⟨by simp only [Span.hull]; omega, ?_, ?_⟩
  · simp only [Span.hull, Nat.min_def]
    split
    · exact left.starts
    · exact right.starts
  · simp only [Span.hull, Nat.max_def]
    split
    · exact right.stops
    · exact left.stops

namespace Token.Pass

/-- A pass that has read the text: it has come to its end, and everything found or begun stands in
it. -/
structure Sound (text : List Char) (pass : Pass) : Prop where
  place : pass.place = byteLength text
  pending : ∀ pending, pass.pending? = some pending → Edge text pending.start
  found : ∀ token ∈ pass.found, token.span.FitsIn text

variable {text : List Char} {pass : Pass}

theorem Sound.start : Sound [] start :=
  ⟨rfl, by simp [Pass.start], by simp [Pass.start]⟩

theorem Sound.flush (sound : Sound text pass) : Sound text pass.flush := by
  unfold Pass.flush
  split
  case h_1 => exact sound
  case h_2 start kept pending =>
    have begun := sound.pending _ pending
    have ends : Edge text pass.place := by
      rw [sound.place]
      exact .last text
    refine ⟨sound.place, by simp, fun token member => ?_⟩
    rcases List.mem_cons.mp member with rfl | earlier
    · have bound := begun.le
      rw [← sound.place] at bound
      exact ⟨bound, begun, ends⟩
    · exact sound.found token earlier

private theorem Sound.keep (sound : Sound text pass) (c : Char) : Sound text (pass.keep c) := by
  refine ⟨sound.place, fun pending same => ?_, sound.found⟩
  cases same
  cases before : pass.pending? with
  | none =>
    simp only [Option.getD_none, sound.place]
    exact .last text
  | some begun => exact sound.pending begun before

theorem Sound.move (sound : Sound text pass) (c : Char) :
    Sound (text ++ [c]) { pass with place := pass.place + c.utf8Size } := by
  refine ⟨?_, fun pending same => (sound.pending pending same).append [c],
    fun token member => (sound.found token member).append [c]⟩
  simp [sound.place, byteLength_append]

private theorem Sound.emit (sound : Sound text pass) {c : Char} (narrow : c.utf8Size = 1)
    (lexeme : Lexeme) :
    Sound (text ++ [c]) { pass.emit lexeme with place := pass.place + c.utf8Size } := by
  have moved := sound.move c
  refine ⟨moved.place, moved.pending, fun token member => ?_⟩
  rcases List.mem_cons.mp member with rfl | earlier
  · have ends := Edge.last (text ++ [c])
    rw [byteLength_append, byteLength_cons, byteLength_nil, narrow, ← sound.place] at ends
    have starts : Edge text pass.place := by
      rw [sound.place]
      exact .last text
    exact ⟨by simp, starts.append [c], ends⟩
  · exact moved.found token earlier

theorem flush_place (pass : Pass) : pass.flush.place = pass.place := by
  unfold Pass.flush
  split <;> rfl

private theorem Sound.step (sound : Sound text pass) (c : Char) :
    Sound (text ++ [c]) (pass.step c) := by
  have kept := (sound.keep c).move c
  have plain := sound.move c
  have flushed := sound.flush.move c
  rw [flush_place] at flushed
  simp only [Pass.step, Pass.take]
  split
  case h_1 => exact ⟨plain.place, plain.pending, plain.found⟩
  case h_2 => exact ⟨kept.place, kept.pending, kept.found⟩
  case h_3 =>
    split_ifs with opening closing blank comment quote
    · subst opening
      have emitted := sound.flush.emit (c := '(') (by decide) .openParen
      rwa [flush_place] at emitted
    · subst closing
      have emitted := sound.flush.emit (c := ')') (by decide) .closeParen
      rwa [flush_place] at emitted
    · exact flushed
    · exact ⟨plain.place, plain.pending, plain.found⟩
    · exact ⟨kept.place, kept.pending, kept.found⟩
    · exact kept

theorem Sound.foldl_step (sound : Sound text pass) (rest : List Char) :
    Sound (text ++ rest) (rest.foldl Pass.step pass) := by
  induction rest generalizing text pass with
  | nil => simpa using sound
  | cons c rest ih =>
    have further := ih (sound.step c)
    rwa [List.append_assoc, List.singleton_append] at further

end Token.Pass

theorem Token.fitsIn_of_mem {source : String} {token : Token}
    (member : token ∈ Token.ofString source) : token.span.FitsIn source.toList := by
  have finish := (Pass.Sound.start.foldl_step source.toList).flush
  rw [Token.ofString, Pass.scan_eq_foldl_step, Pass.tokens, List.mem_reverse] at member
  exact finish.found token member

end EagerLisp
