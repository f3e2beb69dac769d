import EagerLisp.Text

/-! Tokens and the stretches of text that they are read from. An atom is delimited first, quoted
stretches and inner comments included, and its inner comments are dropped afterwards. Every text
has tokens: an unclosed quoted stretch or comment runs to the end of the text. -/
namespace EagerLisp

/-- A stretch of a text runs from the byte at `start` up to, not including, the byte at `stop`. -/
structure Span where
  start : Nat
  stop : Nat
deriving DecidableEq

namespace Span

def hull (first second : Span) : Span :=
  ⟨min first.start second.start, max first.stop second.stop⟩

def text (span : Span) : String :=
  toString span.start ++ ".." ++ toString span.stop

@[simp] theorem hull_start (first second : Span) :
    (first.hull second).start = min first.start second.start := rfl

@[simp] theorem hull_stop (first second : Span) :
    (first.hull second).stop = max first.stop second.stop := rfl

theorem hull_of_ordered {first second : Span} (starts : first.start ≤ second.start)
    (stops : first.stop ≤ second.stop) : first.hull second = ⟨first.start, second.stop⟩ := by
  simp [hull, Nat.min_eq_left starts, Nat.max_eq_right stops]

end Span

/-- What a token stands for; an atom carries its text without the comments inside it. -/
inductive Lexeme where
  | openParen
  | closeParen
  | atom (text : String)
deriving DecidableEq

def Lexeme.text : Lexeme → String
  | .openParen => "("
  | .closeParen => ")"
  | .atom text => text

structure Token where
  lexeme : Lexeme
  span : Span
deriving DecidableEq

namespace Token

/-- Space, tab, carriage return and newline separate tokens; no other character does. -/
def isBlank (c : Char) : Bool :=
  c = ' ' || c = '\t' || c = '\r' || c = '\n'

def endsAtom (c : Char) : Bool :=
  isBlank c || c = '(' || c = ')'

/-- The bytes that the characters take in UTF-8. -/
def byteLength (text : List Char) : Nat :=
  text.foldl (fun total c => total + c.utf8Size) 0

theorem foldl_byteLength (text : List Char) (total : Nat) :
    text.foldl (fun total c => total + c.utf8Size) total = total + byteLength text := by
  induction text generalizing total with
  | nil => rfl
  | cons c rest ih =>
    have whole : byteLength (c :: rest) =
        rest.foldl (fun total c => total + c.utf8Size) (0 + c.utf8Size) := rfl
    rw [List.foldl_cons, whole, ih, ih]
    omega

@[simp] theorem byteLength_nil : byteLength [] = 0 := rfl

@[simp] theorem byteLength_cons (c : Char) (text : List Char) :
    byteLength (c :: text) = c.utf8Size + byteLength text := by
  have whole := foldl_byteLength text (0 + c.utf8Size)
  rw [byteLength, List.foldl_cons, whole, Nat.zero_add]

/-- Drops the comments of a text, newlines that close them included. -/
def dropComments (text : List Char) : List Char :=
  walk .code [] text
where
  walk : Region → List Char → List Char → List Char
    | _, kept, [] => kept.reverse
    | region, kept, c :: rest =>
      let next := region.after c
      if region = .comment || next = .comment then walk next kept rest
      else walk next (c :: kept) rest

/-- The tokens of a text whose first character stands at byte `offset`, after those already
`found`, newest first. -/
def scan (offset : Nat) (found : List Token) : List Char → List Token
  | [] => found.reverse
  | c :: rest =>
    if c = '(' then
      scan (offset + 1) (⟨.openParen, ⟨offset, offset + 1⟩⟩ :: found) rest
    else if c = ')' then
      scan (offset + 1) (⟨.closeParen, ⟨offset, offset + 1⟩⟩ :: found) rest
    else if isBlank c then
      scan (offset + 1) found rest
    else
      let piece := Region.splitAt (if c = ';' then fun _ => true else endsAtom)
        (Region.code.after c) rest
      let stop := offset + c.utf8Size + byteLength piece.1
      if c = ';' then
        scan stop found piece.2
      else
        scan stop (⟨.atom (String.ofList (dropComments (c :: piece.1))), ⟨offset, stop⟩⟩ :: found)
          piece.2
termination_by text => text.length
decreasing_by
  all_goals simp only [List.length_cons]
  all_goals first
    | omega
    | exact Nat.lt_succ_of_le (Region.splitAt_rest_length_le _ _)

def ofString (source : String) : List Token :=
  scan 0 [] source.toList

end Token

end EagerLisp
