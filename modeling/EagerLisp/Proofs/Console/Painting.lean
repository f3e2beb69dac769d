import EagerLisp.Console.Highlight
import EagerLisp.Proofs.Console.Balance
import EagerLisp.Proofs.Token.Matching

/-! Painting a line beside reading it. Painting looks at characters and keeps a stack of its own,
and yet its colours are those of the comments, the quoted stretches and the pairs of parentheses
that the tokens of the line have: after every character the parentheses that painting remembers are
those that the tokens found so far leave unclosed. -/
namespace EagerLisp

namespace Highlight

open EagerLisp.Token

/-- One of the two parentheses begins right in front of the cursor. -/
def Near (cursor : Nat) (opening closing : Span) : Prop :=
  cursor = opening.start + 1 ∨ cursor = closing.start + 1

/-- The colour that a character behind `front` has in a line with these tokens. -/
inductive Coloured (cursor : Nat) (tokens : List Token) (front : List Char) :
    Char → Option Colour → Prop where
  | comment {c : Char} (inside : (Region.behind front).holding c = .comment) :
      Coloured cursor tokens front c (some .grey)
  | quoted {c : Char} (inside : (Region.behind front).holding c = .quoted) :
      Coloured cursor tokens front c (some .green)
  | plain {c : Char} (code : (Region.behind front).holding c = .code)
      (noParen : Lexeme.ofParen? c = none) : Coloured cursor tokens front c none
  | unmatched (code : Region.behind front = .code)
      (alone : ∀ opening, ¬Matches tokens opening (byteBehind front)) :
      Coloured cursor tokens front ')' (some .red)
  | closing (code : Region.behind front = .code) {opening : Span}
      (pair : Matches tokens opening (byteBehind front))
      (near : Near cursor opening (byteBehind front)) :
      Coloured cursor tokens front ')' (some .blue)
  | closingAway (code : Region.behind front = .code) {opening : Span}
      (pair : Matches tokens opening (byteBehind front))
      (away : ¬Near cursor opening (byteBehind front)) : Coloured cursor tokens front ')' none
  | opening (code : Region.behind front = .code) {closing : Span}
      (pair : Matches tokens (byteBehind front) closing)
      (near : Near cursor (byteBehind front) closing) :
      Coloured cursor tokens front '(' (some .brightBlue)
  | openingAway (code : Region.behind front = .code)
      (away : ∀ closing, Matches tokens (byteBehind front) closing →
        ¬Near cursor (byteBehind front) closing) : Coloured cursor tokens front '(' none

theorem Coloured.of_same {cursor : Nat} {tokens more : List Token} {front : List Char} {c : Char}
    {colour? : Option Colour} (coloured : Coloured cursor tokens front c colour?)
    (closings : ∀ opening, Matches more opening (byteBehind front) ↔
      Matches tokens opening (byteBehind front))
    (openings : ∀ closing, Matches more (byteBehind front) closing ↔
      Matches tokens (byteBehind front) closing) : Coloured cursor more front c colour? := by
  cases coloured with
  | comment inside => exact .comment inside
  | quoted inside => exact .quoted inside
  | plain code noParen => exact .plain code noParen
  | unmatched code alone =>
    exact .unmatched code fun opening pair => alone opening ((closings opening).mp pair)
  | closing code pair near => exact .closing code ((closings _).mpr pair) near
  | closingAway code pair away => exact .closingAway code ((closings _).mpr pair) away
  | opening code pair near => exact .opening code ((openings _).mpr pair) near
  | openingAway code away =>
    exact .openingAway code fun closing pair => away closing ((openings closing).mp pair)

theorem after_of_holding {region : Region} {c : Char} (code : region.holding c = .code) :
    region = .code ∧ region.after c = .code := by
  cases region with
  | code => exact ⟨rfl, code⟩
  | quoted => cases code
  | comment => cases code

/-- The state of painting between two characters. -/
structure Brush where
  region : Region
  offset : Nat
  openings : List Opening
  painted : List Painted

namespace Brush

def start : Brush := ⟨.code, 0, [], []⟩

/-- Moves on behind a character and paints it. -/
def push (brush : Brush) (c : Char) (colour? : Option Colour) : Brush :=
  { brush with
    region := brush.region.after c
    offset := brush.offset + c.utf8Size
    painted := brush.painted ++ [⟨c, colour?⟩] }

/-- Paints the next character, and the parenthesis that it closes if the cursor is near. -/
def step (cursor : Nat) (brush : Brush) (c : Char) : Brush :=
  match brush.region.holding c, c, brush.openings with
  | .comment, _, _ => brush.push c (some .grey)
  | .quoted, _, _ => brush.push c (some .green)
  | .code, '(', openings =>
    { brush.push '(' none with openings := ⟨brush.offset, brush.painted.length⟩ :: openings }
  | .code, ')', [] => brush.push ')' (some .red)
  | .code, ')', opening :: openings =>
    if touches cursor opening.offset || touches cursor brush.offset then
      { brush with
        openings
        painted := brush.painted.set opening.index ⟨'(', some .brightBlue⟩ }.push ')' (some .blue)
    else { brush with openings }.push ')' none
  | .code, _, _ => brush.push c none

variable {cursor : Nat} {brush : Brush} {c : Char}

theorem step_comment (inside : brush.region.holding c = .comment) :
    brush.step cursor c = brush.push c (some .grey) := by
  simp only [step, inside]

theorem step_quoted (inside : brush.region.holding c = .quoted) :
    brush.step cursor c = brush.push c (some .green) := by
  simp only [step, inside]

theorem step_open (code : brush.region = .code) :
    brush.step cursor '(' = { brush.push '(' none with
      openings := ⟨brush.offset, brush.painted.length⟩ :: brush.openings } := by
  have inside : brush.region.holding '(' = .code := by rw [code]; rfl
  simp only [step, inside]

theorem step_unmatched (code : brush.region = .code) (none : brush.openings = []) :
    brush.step cursor ')' = brush.push ')' (some .red) := by
  have inside : brush.region.holding ')' = .code := by rw [code]; rfl
  simp only [step, inside, none]

theorem step_close (code : brush.region = .code) {opening : Opening} {around : List Opening}
    (open? : brush.openings = opening :: around) :
    brush.step cursor ')' = if touches cursor opening.offset || touches cursor brush.offset then
      { brush with
        openings := around
        painted := brush.painted.set opening.index ⟨'(', some .brightBlue⟩ }.push ')' (some .blue)
      else { brush with openings := around }.push ')' none := by
  have inside : brush.region.holding ')' = .code := by rw [code]; rfl
  simp only [step, inside, open?]

theorem step_plain (code : brush.region.holding c = .code) (noParen : Lexeme.ofParen? c = none) :
    brush.step cursor c = brush.push c none := by
  unfold Lexeme.ofParen? at noParen
  unfold step
  split <;> simp_all

end Brush

private theorem paint_eq_foldl_step (cursor : Nat) (region : Region) (offset : Nat)
    (openings : List Opening) (painted : Array Painted) (text : List Char) :
    (paint cursor region offset openings painted text).toList =
      (text.foldl (Brush.step cursor) ⟨region, offset, openings, painted.toList⟩).painted := by
  induction text generalizing region offset openings painted with
  | nil => rfl
  | cons c rest ih =>
    rw [List.foldl_cons]
    unfold paint
    split
    case h_1 inside =>
      rw [ih, Brush.step_comment inside]
      simp [Brush.push]
    case h_2 inside =>
      rw [ih, Brush.step_quoted inside]
      simp [Brush.push]
    case h_3 inside =>
      obtain ⟨rfl, after⟩ := after_of_holding inside
      rw [ih, Brush.step_open rfl]
      simp [Brush.push, Region.after]
    case h_4 inside =>
      obtain ⟨rfl, after⟩ := after_of_holding inside
      rw [ih, Brush.step_unmatched rfl rfl]
      simp [Brush.push, Region.after]
    case h_5 opening around inside =>
      obtain ⟨rfl, after⟩ := after_of_holding inside
      rw [ih, Brush.step_close rfl rfl]
      split
      · simp [Brush.push, Region.after]
      · simp [Brush.push, Region.after]
    case h_6 letter openings _ _ _ notOpen unmatched matched inside =>
      obtain ⟨rfl, after⟩ := after_of_holding inside
      have noParen : Lexeme.ofParen? letter = none := by
        unfold Lexeme.ofParen?
        split
        · exact (notOpen rfl).elim
        · cases openings with
          | nil => exact (unmatched rfl rfl).elim
          | cons opening around => exact (matched opening around rfl rfl).elim
        · rfl
      rw [ih, Brush.step_plain inside noParen]
      simp [Brush.push, after]

/-- The place of an opening parenthesis among the bytes of the line. -/
def Opening.span (opening : Opening) : Span :=
  ⟨opening.offset, opening.offset + 1⟩

/-- What painting knows once it has read `front` and the lexer has found the tokens in it: it
remembers the parentheses that the tokens leave unclosed, and where each of them stands bare among
the painted characters. -/
structure Follows (cursor : Nat) (front : List Char) (tokens : List Token) (brush : Brush) :
    Prop where
  region : brush.region = Region.behind front
  offset : brush.offset = byteLength front
  characters : brush.painted.map Painted.character = front
  unclosed : Unclosed tokens (brush.openings.map Opening.span)
  bare : ∀ opening ∈ brush.openings, brush.painted[opening.index]? = some ⟨'(', none⟩ ∧
    byteLength (front.take opening.index) = opening.offset
  apart : brush.openings.Pairwise fun inner outer => outer.index < inner.index
  coloured : ∀ index painted, brush.painted[index]? = some painted →
    Coloured cursor tokens (front.take index) painted.character painted.colour?

namespace Follows

variable {cursor : Nat} {front : List Char} {tokens : List Token} {brush : Brush} {c : Char}

private theorem start (cursor : Nat) : Follows cursor [] [] Brush.start := by
  refine ⟨rfl, rfl, rfl, .nil, ?_, .nil, ?_⟩
  · simp [Brush.start]
  · simp [Brush.start]

theorem length (follows : Follows cursor front tokens brush) :
    brush.painted.length = front.length := by
  rw [← follows.characters, List.length_map]

private theorem atom (follows : Follows cursor front tokens brush) (text : String) (span : Span) :
    Follows cursor front (tokens ++ [⟨.atom text, span⟩]) brush := by
  have same (opening closing : Span) :
      Matches (tokens ++ [⟨.atom text, span⟩]) opening closing ↔ Matches tokens opening closing :=
    Matches.snoc_iff_of_ne (by simp)
  refine { follows with unclosed := ?_, coloured := fun index painted present => ?_ }
  · exact follows.unclosed.append (.atom text span)
  · exact (follows.coloured index painted present).of_same (fun opening => same opening _)
      fun closing => same _ closing

private theorem coloured_push {more : List Token} {painted : List Painted}
    (length : painted.length = front.length) (earlier : ∀ index old, painted[index]? = some old →
      Coloured cursor more (front.take index) old.character old.colour?)
    {colour? : Option Colour} (here : Coloured cursor more front c colour?) :
    ∀ index old, (painted ++ [⟨c, colour?⟩])[index]? = some old →
      Coloured cursor more ((front ++ [c]).take index) old.character old.colour? := by
  intro index old present
  by_cases inside : index < front.length
  · rw [List.getElem?_append_left (by omega)] at present
    rw [List.take_append_of_le_length (by omega)]
    exact earlier index old present
  · rw [List.getElem?_append_right (by omega)] at present
    have last := (List.getElem?_eq_some_iff.mp present).1
    rw [List.length_singleton] at last
    obtain rfl : index = front.length := by omega
    rw [length, Nat.sub_self] at present
    cases present
    rw [List.take_left]
    exact here

theorem index_lt (follows : Follows cursor front tokens brush) {opening : Opening}
    (member : opening ∈ brush.openings) : opening.index < front.length := by
  have present := (follows.bare opening member).1
  have bound := (List.getElem?_eq_some_iff.mp present).1
  rwa [follows.length] at bound

/-- Where a parenthesis waits for its partner, it stands bare among the painted characters. -/
theorem splits (follows : Follows cursor front tokens brush) {opening : Opening}
    (member : opening ∈ brush.openings) :
    ∃ earlier later, brush.painted = earlier ++ ⟨'(', none⟩ :: later ∧
      earlier.length = opening.index ∧
      byteLength (earlier.map Painted.character) = opening.offset := by
  obtain ⟨present, length⟩ := follows.bare opening member
  obtain ⟨bound, bare⟩ := List.getElem?_eq_some_iff.mp present
  refine ⟨brush.painted.take opening.index, brush.painted.drop (opening.index + 1), ?_,
    List.length_take_of_le (Nat.le_of_lt bound), ?_⟩
  · rw [← bare, List.getElem_cons_drop, List.take_append_drop]
  · rw [List.map_take, follows.characters, length]

theorem push (follows : Follows cursor front tokens brush) {colour? : Option Colour}
    (here : Coloured cursor tokens front c colour?) :
    Follows cursor (front ++ [c]) tokens (brush.push c colour?) := by
  refine ⟨?_, ?_, ?_, follows.unclosed, fun opening member => ?_, follows.apart, ?_⟩
  · simp [Brush.push, follows.region]
  · simp [Brush.push, follows.offset, byteLength_append]
  · simp [Brush.push, follows.characters]
  · have within := follows.index_lt member
    obtain ⟨present, length⟩ := follows.bare opening member
    constructor
    · exact (List.getElem?_append_left (by rw [follows.length]; exact within)).trans present
    · rw [List.take_append_of_le_length (Nat.le_of_lt within)]
      exact length
  · exact coloured_push follows.length follows.coloured here

private theorem remember (follows : Follows cursor front tokens brush) (opening : Opening)
    (present : brush.painted[opening.index]? = some ⟨'(', none⟩)
    (length : byteLength (front.take opening.index) = opening.offset)
    (last : ∀ outer ∈ brush.openings, outer.index < opening.index) :
    Follows cursor front (tokens ++ [⟨.openParen, opening.span⟩])
      { brush with openings := opening :: brush.openings } := by
  have same (first second : Span) :
      Matches (tokens ++ [⟨.openParen, opening.span⟩]) first second ↔ Matches tokens first second :=
    Matches.snoc_iff_of_ne (by simp)
  refine { follows with unclosed := ?_, bare := ?_, apart := ?_, coloured := ?_ }
  · exact follows.unclosed.opening opening.span
  · intro other member
    rcases List.mem_cons.mp member with rfl | earlier
    · exact ⟨present, length⟩
    · exact follows.bare other earlier
  · exact List.pairwise_cons.mpr ⟨last, follows.apart⟩
  · intro index painted found
    exact (follows.coloured index painted found).of_same (fun first => same first _)
      fun second => same _ second

section Closing

variable {opening : Opening} {around : List Opening}

theorem awaits_iff (follows : Follows cursor front tokens brush)
    (open? : brush.openings = opening :: around) {index : Nat} (within : index < front.length) :
    Awaits tokens (byteBehind (front.take index)) ↔ index = opening.index := by
  have unclosed := follows.unclosed
  rw [open?] at unclosed
  have awaited : Awaits tokens opening.span := unclosed.awaits
  have member : opening ∈ brush.openings := by simp [open?]
  have length := (follows.bare opening member).2
  have bound := follows.index_lt member
  constructor
  · intro awaits
    have same := congrArg Span.start (awaits.unique awaited)
    simp only [byteBehind, Opening.span, ← length] at same
    rcases Nat.lt_trichotomy index opening.index with lt | eq | gt
    · have less := byteLength_take_lt lt (Nat.le_of_lt bound)
      omega
    · exact eq
    · have less := byteLength_take_lt gt (Nat.le_of_lt within)
      omega
  · rintro rfl
    rw [byteBehind, length]
    exact awaited

theorem closings_same {index : Nat} (within : index < front.length) (first : Span) :
    Matches (tokens ++ [⟨.closeParen, byteBehind front⟩]) first (byteBehind (front.take index)) ↔
      Matches tokens first (byteBehind (front.take index)) := by
  rw [Matches.snoc_iff, or_iff_left]
  rintro ⟨same, _⟩
  have less := byteLength_take_lt within (Nat.le_refl _)
  rw [List.take_length] at less
  have starts := congrArg (fun token : Token => token.span.start) same
  simp only [byteBehind] at starts
  omega

private theorem openings_same (follows : Follows cursor front tokens brush)
    (open? : brush.openings = opening :: around) {index : Nat} (within : index < front.length)
    (other : index ≠ opening.index) (second : Span) :
    Matches (tokens ++ [⟨.closeParen, byteBehind front⟩]) (byteBehind (front.take index)) second ↔
      Matches tokens (byteBehind (front.take index)) second := by
  rw [Matches.snoc_iff, or_iff_left]
  rintro ⟨_, awaits⟩
  exact other ((follows.awaits_iff open? within).mp awaits)

private theorem pair (follows : Follows cursor front tokens brush)
    (open? : brush.openings = opening :: around) :
    Matches (tokens ++ [⟨.closeParen, byteBehind front⟩]) opening.span (byteBehind front) := by
  have unclosed := follows.unclosed
  rw [open?] at unclosed
  exact Matches.snoc_iff.mpr (.inr ⟨rfl, unclosed.awaits⟩)

/-- A parenthesis that waits for its partner stands in code, away from the cursor so far. -/
theorem waiting (follows : Follows cursor front tokens brush)
    (member : opening ∈ brush.openings) :
    Region.behind (front.take opening.index) = .code ∧
      ∀ closing, Matches tokens (byteBehind (front.take opening.index)) closing →
        ¬Near cursor (byteBehind (front.take opening.index)) closing := by
  have coloured := follows.coloured _ _ (follows.bare opening member).1
  cases coloured with
  | plain code noParen => cases noParen
  | openingAway code away => exact ⟨code, away⟩

/-- The innermost parenthesis is closed by the one behind `front` and painted anew. -/
theorem close (follows : Follows cursor front tokens brush)
    (open? : brush.openings = opening :: around) {colour? : Option Colour}
    (here : Coloured cursor (tokens ++ [⟨.closeParen, byteBehind front⟩])
      (front.take opening.index) '(' colour?) :
    Follows cursor front (tokens ++ [⟨.closeParen, byteBehind front⟩])
      { brush with
        openings := around
        painted := brush.painted.set opening.index ⟨'(', colour?⟩ } := by
  have member : opening ∈ brush.openings := by simp [open?]
  have present := (follows.bare opening member).1
  have unclosed := follows.unclosed
  have apart := follows.apart
  rw [open?] at unclosed apart
  obtain ⟨last, apart⟩ := List.pairwise_cons.mp apart
  refine { follows with characters := ?_, unclosed := ?_, bare := ?_, apart, coloured := ?_ }
  · have unchanged : (brush.painted.map Painted.character)[opening.index]? = some '(' := by
      rw [List.getElem?_map, present]
      rfl
    obtain ⟨_, same⟩ := List.getElem?_eq_some_iff.mp unchanged
    rw [List.map_set, ← same, List.set_getElem_self]
    exact follows.characters
  · exact unclosed.closing _
  · intro other inside
    have different : opening.index ≠ other.index := Nat.ne_of_gt (last other inside)
    rw [List.getElem?_set_ne different]
    exact follows.bare other (by simp [open?, inside])
  · intro index painted found
    by_cases same : index = opening.index
    · subst same
      rw [List.getElem?_set_self (List.getElem?_eq_some_iff.mp present).1] at found
      cases found
      exact here
    · rw [List.getElem?_set_ne (Ne.symm same)] at found
      have within := (List.getElem?_eq_some_iff.mp found).1
      rw [follows.length] at within
      exact (follows.coloured index painted found).of_same (closings_same within)
        (follows.openings_same open? within same)

private theorem closeNone (follows : Follows cursor front tokens brush)
    (none : brush.openings = []) :
    Follows cursor front (tokens ++ [⟨.closeParen, byteBehind front⟩]) brush := by
  have unclosed := follows.unclosed
  rw [none] at unclosed
  refine { follows with unclosed := ?_, coloured := fun index painted present => ?_ }
  · rw [none]
    exact unclosed.unmatched _
  · have within := (List.getElem?_eq_some_iff.mp present).1
    rw [follows.length] at within
    have coloured := follows.coloured index painted present
    refine coloured.of_same (closings_same within) fun second => ?_
    rw [Matches.snoc_iff, or_iff_left]
    rintro ⟨_, awaits⟩
    exact unclosed.not_awaits _ awaits

end Closing

theorem flush {pass : Pass} (follows : Follows cursor front pass.found.reverse brush) :
    Follows cursor front pass.flush.found.reverse brush := by
  unfold Pass.flush
  split
  · exact follows
  · rw [List.reverse_cons]
    exact follows.atom _ _

section Step

variable (follows : Follows cursor front (Pass.ofText front).found.reverse brush)

include follows

private theorem step_open (code : Region.behind front = .code) :
    Follows cursor (front ++ ['(']) ((Pass.ofText front).step '(').found.reverse
      (brush.step cursor '(') := by
  have away : Coloured cursor (Pass.ofText front).flush.found.reverse front '(' none :=
    .openingAway code fun closing pair =>
      absurd (List.mem_reverse.mp pair.opening_mem) (Pass.not_mem_ofText (by simp) front)
  have pushed := follows.flush.push away
  rw [Brush.step_open (follows.region.trans code),
    Pass.step_open ((Pass.ofText_region front).trans code), List.reverse_cons, Pass.ofText_place,
    ← follows.offset]
  refine pushed.remember ⟨brush.offset, brush.painted.length⟩ ?_ ?_ ?_
  · simp [Brush.push]
  · rw [follows.length, List.take_left, follows.offset]
  · intro outer member
    rw [follows.length]
    exact follows.index_lt member

private theorem step_unmatched (code : Region.behind front = .code) (none : brush.openings = []) :
    Follows cursor (front ++ [')']) ((Pass.ofText front).step ')').found.reverse
      (brush.step cursor ')') := by
  have flushed := follows.flush
  have unclosed := flushed.unclosed
  rw [none] at unclosed
  have alone (opening : Span) :
      ¬Matches ((Pass.ofText front).flush.found.reverse ++ [⟨.closeParen, byteBehind front⟩])
        opening (byteBehind front) := by
    rw [Matches.snoc_iff]
    rintro (pair | ⟨_, awaits⟩)
    · exact Pass.not_mem_ofText (by simp) front (List.mem_reverse.mp pair.closing_mem)
    · exact unclosed.not_awaits opening awaits
  rw [Brush.step_unmatched (follows.region.trans code) none,
    Pass.step_close ((Pass.ofText_region front).trans code), List.reverse_cons, Pass.ofText_place]
  exact (flushed.closeNone none).push (.unmatched code alone)

private theorem step_close (code : Region.behind front = .code) {opening : Opening}
    {around : List Opening} (open? : brush.openings = opening :: around) :
    Follows cursor (front ++ [')']) ((Pass.ofText front).step ')').found.reverse
      (brush.step cursor ')') := by
  have flushed := follows.flush
  have member : opening ∈ brush.openings := by simp [open?]
  obtain ⟨present, length⟩ := flushed.bare opening member
  obtain ⟨openCode, away⟩ := flushed.waiting member
  have here : byteBehind (front.take opening.index) = opening.span := by
    rw [byteBehind, length]
    rfl
  have pair := flushed.pair open?
  rw [← here] at pair
  have touching : (touches cursor opening.offset || touches cursor brush.offset) = true ↔
      Near cursor (byteBehind (front.take opening.index)) (byteBehind front) := by
    simp [touches, Near, byteBehind, length, follows.offset]
  rw [Brush.step_close (follows.region.trans code) open?,
    Pass.step_close ((Pass.ofText_region front).trans code), List.reverse_cons, Pass.ofText_place]
  by_cases near : Near cursor (byteBehind (front.take opening.index)) (byteBehind front)
  · rw [if_pos (touching.mpr near)]
    exact (flushed.close open? (.opening openCode pair near)).push (.closing code pair near)
  · rw [if_neg (mt touching.mp near)]
    have unchanged : brush.painted.set opening.index ⟨'(', none⟩ = brush.painted := by
      obtain ⟨_, bare⟩ := List.getElem?_eq_some_iff.mp present
      rw [← bare, List.set_getElem_self]
    have closed := flushed.close open? (.openingAway openCode fun closing closed => ?_)
    · rw [unchanged] at closed
      exact closed.push (.closingAway code pair near)
    · rcases Matches.snoc_iff.mp closed with earlier | ⟨last, _⟩
      · exact away closing earlier
      · cases last
        exact near

private theorem step (c : Char) :
    Follows cursor (front ++ [c]) ((Pass.ofText front).step c).found.reverse
      (brush.step cursor c) := by
  by_cases paren : Region.behind front = .code ∧ (c = '(' ∨ c = ')')
  · obtain ⟨code, rfl | rfl⟩ := paren
    · exact follows.step_open code
    · cases open? : brush.openings with
      | nil => exact follows.step_unmatched code open?
      | cons opening around => exact follows.step_close code open?
  · have other (inCode : (Pass.ofText front).region = .code) : c ≠ '(' ∧ c ≠ ')' := by
      rw [Pass.ofText_region] at inCode
      simp_all
    have flat (colour? : Option Colour)
        (here : ∀ tokens, Coloured cursor tokens front c colour?) :
        Follows cursor (front ++ [c]) ((Pass.ofText front).step c).found.reverse
          (brush.push c colour?) := by
      rcases Pass.step_other other with same | same
      · rw [same]
        exact follows.push (here _)
      · rw [same]
        exact follows.flush.push (here _)
    cases inside : (Region.behind front).holding c with
    | comment =>
      rw [Brush.step_comment (follows.region ▸ inside)]
      exact flat _ fun tokens => .comment inside
    | quoted =>
      rw [Brush.step_quoted (follows.region ▸ inside)]
      exact flat _ fun tokens => .quoted inside
    | code =>
      obtain ⟨notOpen, notClose⟩ :=
        other ((Pass.ofText_region front).trans (after_of_holding inside).1)
      have noParen : Lexeme.ofParen? c = none := by
        unfold Lexeme.ofParen?
        split <;> simp_all
      rw [Brush.step_plain (follows.region ▸ inside) noParen]
      exact flat _ fun tokens => .plain inside noParen

end Step

/-- Painting a text follows the lexer over it. -/
theorem foldl_step (cursor : Nat) (text : List Char) :
    Follows cursor text (Pass.ofText text).found.reverse
      (text.foldl (Brush.step cursor) Brush.start) := by
  induction text using List.reverseRecOn with
  | nil => exact start cursor
  | append_singleton front c ih =>
    rw [Pass.ofText_snoc, List.foldl_append]
    exact ih.step c

end Follows

theorem ofString_eq_foldl_step (line : String) (cursor : Nat) :
    ofString line cursor = (line.toList.foldl (Brush.step cursor) Brush.start).painted :=
  paint_eq_foldl_step cursor .code 0 [] #[] line.toList

/-- Painting a line follows the lexer over all of it. -/
theorem Follows.ofString (line : String) (cursor : Nat) :
    Follows cursor line.toList (Token.ofString line)
      (line.toList.foldl (Brush.step cursor) Brush.start) := by
  rw [Token.ofString, Pass.scan_eq_foldl_step]
  exact (foldl_step cursor line.toList).flush

theorem ofString_characters (line : String) (cursor : Nat) :
    (ofString line cursor).map Painted.character = line.toList := by
  rw [ofString_eq_foldl_step]
  exact (Follows.ofString line cursor).characters

/-- Every character of a line has the colour that the tokens of the line give it. -/
theorem ofString_coloured {line : String} (cursor : Nat) {front back : List Char} {c : Char}
    (whole : line.toList = front ++ c :: back) :
    ∃ colour?, (ofString line cursor)[front.length]? = some ⟨c, colour?⟩ ∧
      Coloured cursor (Token.ofString line) front c colour? := by
  have character := congrArg (·[front.length]?) (ofString_characters line cursor)
  simp only [List.getElem?_map, whole, List.getElem?_append_right (Nat.le_refl _), Nat.sub_self,
    List.getElem?_cons_zero, Option.map_eq_some_iff] at character
  obtain ⟨⟨_, colour?⟩, present, rfl⟩ := character
  refine ⟨colour?, present, ?_⟩
  rw [ofString_eq_foldl_step] at present
  have coloured := (Follows.ofString line cursor).coloured _ _ present
  rwa [whole, List.take_left] at coloured

end Highlight
end EagerLisp
