import EagerLisp.Proofs.Text.Stretch
import EagerLisp.Proofs.Token.Depth
import EagerLisp.Proofs.Token.Place

namespace EagerLisp

/-- The token that a character in code is by itself. -/
def Lexeme.ofParen? : Char → Option Lexeme
  | '(' => some .openParen
  | ')' => some .closeParen
  | _ => none

/-- The byte behind a text. -/
def Token.byteBehind (front : List Char) : Span :=
  ⟨Token.byteLength front, Token.byteLength front + 1⟩

namespace Token.Pass

variable {pass : Pass} {c : Char} {stack : List Span} {span : Span}

@[simp] theorem flush_region (pass : Pass) : pass.flush.region = pass.region := by
  unfold flush
  split <;> rfl

theorem step_region (pass : Pass) (c : Char) : (pass.step c).region = pass.region.after c := by
  simp only [step, take]
  split
  case h_1 comment => simp [comment, Region.after]
  case h_2 quoted => simp [quoted, Region.after]
  case h_3 code =>
    split_ifs with opening closing blank comment quote
    · simp [opening, emit, code, Region.after]
    · simp [closing, emit, code, Region.after]
    · rcases blank with rfl | rfl | rfl | rfl <;> simp [code, Region.after]
    · simp [comment, code, Region.after]
    · simp [quote, code, Region.after]
    · simp [keep, comment, quote, code, Region.after]

theorem foldl_step_region (text : List Char) (pass : Pass) :
    (text.foldl step pass).region = text.foldl Region.after pass.region := by
  induction text generalizing pass with
  | nil => rfl
  | cons c rest ih => rw [List.foldl_cons, ih, step_region, List.foldl_cons]

theorem step_open (code : pass.region = .code) :
    (pass.step '(').found =
      ⟨.openParen, ⟨pass.place, pass.place + 1⟩⟩ :: pass.flush.found := by
  simp [step, take, code, emit, flush_place]

theorem step_close (code : pass.region = .code) :
    (pass.step ')').found =
      ⟨.closeParen, ⟨pass.place, pass.place + 1⟩⟩ :: pass.flush.found := by
  simp [step, take, code, emit, flush_place]

theorem step_other (other : pass.region = .code → c ≠ '(' ∧ c ≠ ')') :
    (pass.step c).found = pass.found ∨ (pass.step c).found = pass.flush.found := by
  simp only [step, take]
  split
  case h_1 => exact .inl rfl
  case h_2 => exact .inl rfl
  case h_3 code =>
    obtain ⟨notOpen, notClose⟩ := other code
    rw [if_neg notOpen, if_neg notClose]
    split_ifs
    · exact .inr rfl
    · exact .inl rfl
    · exact .inl rfl
    · exact .inl rfl

theorem found_suffix_flush (pass : Pass) : pass.found <:+ pass.flush.found := by
  unfold flush
  split
  · exact List.suffix_refl _
  · exact List.suffix_cons _ _

private theorem found_suffix_step (pass : Pass) (c : Char) :
    pass.found <:+ (pass.step c).found := by
  have flushed := found_suffix_flush pass
  by_cases paren : pass.region = .code ∧ (c = '(' ∨ c = ')')
  · obtain ⟨code, rfl | rfl⟩ := paren
    · rw [step_open code]
      exact flushed.trans (List.suffix_cons _ _)
    · rw [step_close code]
      exact flushed.trans (List.suffix_cons _ _)
  · have other (code : pass.region = .code) : c ≠ '(' ∧ c ≠ ')' := by simp_all
    rcases step_other other with same | same
    · exact same ▸ List.suffix_refl pass.found
    · exact same ▸ flushed

theorem found_prefix_tokens (text : List Char) (pass : Pass) :
    pass.found.reverse <+: (text.foldl step pass).tokens := by
  induction text generalizing pass with
  | nil => exact List.reverse_prefix.mpr (found_suffix_flush pass)
  | cons c rest ih => exact (List.reverse_prefix.mpr (found_suffix_step pass c)).trans (ih _)

theorem leavesOpen_flush (leaves : LeavesOpen pass.found.reverse stack) :
    LeavesOpen pass.flush.found.reverse stack := by
  unfold flush
  split
  · exact leaves
  · rw [List.reverse_cons]
    exact leaves.append (.atom _ _)

theorem leavesOpen_step_open (leaves : LeavesOpen pass.found.reverse stack)
    (code : pass.region = .code) :
    LeavesOpen (pass.step '(').found.reverse (⟨pass.place, pass.place + 1⟩ :: stack) := by
  rw [step_open code, List.reverse_cons]
  exact (leavesOpen_flush leaves).opening _

theorem leavesOpen_step_close (leaves : LeavesOpen pass.found.reverse (span :: stack))
    (code : pass.region = .code) : LeavesOpen (pass.step ')').found.reverse stack := by
  rw [step_close code, List.reverse_cons]
  exact (leavesOpen_flush leaves).closing _

theorem leavesOpen_step_other (leaves : LeavesOpen pass.found.reverse stack)
    (other : pass.region = .code → c ≠ '(' ∧ c ≠ ')') :
    LeavesOpen (pass.step c).found.reverse stack := by
  rcases step_other other with same | same
  · rw [same]
    exact leaves
  · rw [same]
    exact leavesOpen_flush leaves

/-- The pass that has read a text. -/
abbrev ofText (front : List Char) : Pass :=
  front.foldl step start

theorem ofText_snoc (front : List Char) (c : Char) :
    ofText (front ++ [c]) = (ofText front).step c := by
  rw [ofText, List.foldl_append]
  rfl

theorem ofText_region (front : List Char) : (ofText front).region = Region.behind front :=
  foldl_step_region front start

theorem ofText_place (front : List Char) : (ofText front).place = byteLength front :=
  (Sound.start.foldl_step front).place

section Members

variable {lexeme : Lexeme} (paren : ∀ text, lexeme ≠ .atom text)

include paren

theorem mem_flush_iff :
    (⟨lexeme, span⟩ : Token) ∈ pass.flush.found ↔ ⟨lexeme, span⟩ ∈ pass.found := by
  unfold flush
  split
  · rfl
  · rw [List.mem_cons, or_iff_right]
    intro same
    cases same
    exact paren _ rfl

/-- A character finds the parenthesis that it is, if it stands in code, and no other. -/
theorem mem_step_iff (c : Char) :
    (⟨lexeme, span⟩ : Token) ∈ (pass.step c).found ↔ ⟨lexeme, span⟩ ∈ pass.found ∨
      pass.region = .code ∧ Lexeme.ofParen? c = some lexeme ∧
        span = ⟨pass.place, pass.place + 1⟩ := by
  by_cases standing : pass.region = .code ∧ (c = '(' ∨ c = ')')
  · obtain ⟨code, rfl | rfl⟩ := standing
    · rw [step_open code, List.mem_cons, mem_flush_iff paren, or_comm]
      simp [code, Lexeme.ofParen?, eq_comm]
    · rw [step_close code, List.mem_cons, mem_flush_iff paren, or_comm]
      simp [code, Lexeme.ofParen?, eq_comm]
  · have other (code : pass.region = .code) : c ≠ '(' ∧ c ≠ ')' := by simp_all
    have none : ¬(pass.region = .code ∧ Lexeme.ofParen? c = some lexeme ∧
        span = ⟨pass.place, pass.place + 1⟩) := by
      rintro ⟨code, named, _⟩
      obtain ⟨notOpen, notClose⟩ := other code
      unfold Lexeme.ofParen? at named
      split at named <;> simp_all
    rw [or_iff_left none]
    rcases step_other other with same | same
    · rw [same]
    · rw [same, mem_flush_iff paren]

theorem mem_found_iff (text : List Char) :
    (⟨lexeme, span⟩ : Token) ∈ (ofText text).found ↔
      ∃ front c back, text = front ++ c :: back ∧ Region.behind front = .code ∧
        Lexeme.ofParen? c = some lexeme ∧ span = byteBehind front := by
  induction text using List.reverseRecOn with
  | nil => simp [start]
  | append_singleton front c ih =>
    rw [ofText_snoc, mem_step_iff paren, ih, ofText_region, ofText_place]
    constructor
    · rintro (⟨before, d, back, rfl, code, named, rfl⟩ | ⟨code, named, rfl⟩)
      · exact ⟨before, d, back ++ [c], by simp, code, named, rfl⟩
      · exact ⟨front, c, [], rfl, code, named, rfl⟩
    · rintro ⟨before, d, back, same, code, named, rfl⟩
      rcases split_snoc_cases same with ⟨rfl, rfl, _⟩ | ⟨between, rfl, _⟩
      · exact .inr ⟨code, named, rfl⟩
      · exact .inl ⟨before, d, between, rfl, code, named, rfl⟩

end Members

theorem not_mem_ofText {lexeme : Lexeme} (paren : ∀ text, lexeme ≠ .atom text)
    (front : List Char) : (⟨lexeme, byteBehind front⟩ : Token) ∉ (ofText front).flush.found := by
  rw [mem_flush_iff paren, mem_found_iff paren]
  rintro ⟨before, c, back, whole, _, _, same⟩
  have length := congrArg byteLength whole
  have starts := congrArg Span.start same
  have wide := c.utf8Size_pos
  rw [byteLength_append, byteLength_cons] at length
  simp only [byteBehind] at starts
  omega

end Token.Pass

/-- The parentheses among the tokens of a text are those that stand in code, each at its byte. -/
theorem Token.mem_ofString_iff {lexeme : Lexeme} (paren : ∀ text, lexeme ≠ .atom text)
    {source : String} {span : Span} :
    (⟨lexeme, span⟩ : Token) ∈ ofString source ↔
      ∃ front c back, source.toList = front ++ c :: back ∧ Region.behind front = .code ∧
        Lexeme.ofParen? c = some lexeme ∧ span = byteBehind front := by
  rw [ofString, Pass.scan_eq_foldl_step, Pass.tokens, List.mem_reverse, Pass.mem_flush_iff paren]
  exact Pass.mem_found_iff paren source.toList

theorem Token.byteBehind_mem_ofString_iff {lexeme : Lexeme} (paren : ∀ text, lexeme ≠ .atom text)
    {source : String} {front back : List Char} {c : Char}
    (whole : source.toList = front ++ c :: back) :
    (⟨lexeme, byteBehind front⟩ : Token) ∈ ofString source ↔
      Region.behind front = .code ∧ Lexeme.ofParen? c = some lexeme := by
  rw [mem_ofString_iff paren]
  constructor
  · rintro ⟨before, other, behind, split, code, named, same⟩
    obtain ⟨rfl, rfl, rfl⟩ :=
      split_unique_of_byteLength (whole.symm.trans split) (congrArg Span.start same)
    exact ⟨code, named⟩
  · rintro ⟨code, named⟩
    exact ⟨front, c, back, whole, code, named, rfl⟩

end EagerLisp
