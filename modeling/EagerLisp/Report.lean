import EagerLisp.Error
import EagerLisp.Text
import EagerLisp.Token

/-! Reports: an error shown against the source text it arose in, with a headline and a label at
the stretch where it stands. Lines and columns are counted in characters, and so are the ends of
the stretch. -/
namespace EagerLisp.Report

def endsLine (c : Char) : Bool :=
  [0xA, 0xB, 0xC, 0xD, 0x85, 0x2028, 0x2029].contains c.toNat

/-- Cuts a text behind its line terminators; `lines` and the `current` line are kept newest
first. -/
def cutLines (lines : List (List Char)) (current : List Char) : List Char → List (List Char)
  | [] =>
    if current.isEmpty && !lines.isEmpty then lines.reverse
    else (current.reverse :: lines).reverse
  | '\r' :: '\n' :: rest => cutLines (('\n' :: '\r' :: current).reverse :: lines) [] rest
  | c :: rest =>
    if endsLine c then cutLines ((c :: current).reverse :: lines) [] rest
    else cutLines lines (c :: current) rest

/-- A line of a source text: its number from zero, how many characters stand before it, and its
characters. -/
structure Line where
  number : Nat
  start : Nat
  characters : List Char

namespace Line

def length (line : Line) : Nat :=
  line.characters.length

def shown (line : Line) : List Char :=
  trimEnd line.characters

/-- A character as it is shown in a column: a tab reaches up to the next multiple of four, and
other white space is a space. -/
def display (c : Char) (column : Nat) : List Char :=
  if c = '\t' then List.replicate (4 - column % 4) ' '
  else if isWhiteSpace c then [' ']
  else [c]

def text (line : Line) : String :=
  String.ofList (line.shown.zipIdx.flatMap fun (c, column) => display c column)

/-- How wide the first `count` columns are; columns behind the shown text have width one. -/
def widths (line : Line) (count : Nat) : List Nat :=
  let shown := line.shown.zipIdx.map fun (c, column) => (display c column).length
  (shown ++ List.replicate count 1).take count

end Line

/-- Numbers consecutive lines and finds their starts; `found` is kept newest first. -/
def placeLines (found : List Line) (number start : Nat) : List (List Char) → List Line
  | [] => found.reverse
  | characters :: rest =>
    placeLines (⟨number, start, characters⟩ :: found) (number + 1) (start + characters.length)
      rest

def linesOf (text : String) : List Line :=
  placeLines [] 0 0 (cutLines [] [] text.toList)

/-- The last line that begins at or before a character; no line has a character behind the end
of the text. -/
def lineAt? (lines : List Line) (character : Nat) : Option Line :=
  match lines.getLast? with
  | some last =>
    if character ≤ last.start + last.length then
      (lines.takeWhile (·.start ≤ character)).getLast?
    else none
  | none => none

def run (count : Nat) (c : Char) : String :=
  String.ofList (List.replicate count c)

/-- What the left edge of a report needs: how many digits its line numbers have. -/
structure Frame where
  digits : Nat

namespace Frame

def around (last : Line) : Frame :=
  ⟨(toString (last.number + 1)).length⟩

def margin (frame : Frame) : String :=
  run (frame.digits + 2) ' ' ++ "│ "

def numbered (frame : Frame) (line : Line) : String :=
  let number := toString (line.number + 1)
  run (frame.digits + 1 - number.length) ' ' ++ number ++ " │ "

def omission (frame : Frame) : String :=
  run (frame.digits + 2) ' ' ++ "┆ ┆   "

/-- The row that names the place where the stretch begins, and the empty row under it. -/
def header (frame : Frame) (name : String) (first : Line) (span : Span) : List String :=
  [run (frame.digits + 2) ' ' ++ "╭─[ " ++ name ++ ":" ++ toString (first.number + 1) ++ ":"
      ++ toString (span.start - first.start + 1) ++ " ]",
    run (frame.digits + 2) ' ' ++ "│"]

def footer (frame : Frame) : String :=
  run (frame.digits + 2) '─' ++ "╯"

end Frame

/-- Draws columns of the given widths: each begins with one character and is filled up with
another, both chosen by the column. -/
def draw (widths : List Nat) (choose : Nat → Char × Char) : String :=
  String.ofList (widths.zipIdx.flatMap fun (width, column) =>
    (choose column).1 :: List.replicate (width - 1) (choose column).2)

/-- The character under which the label hangs. -/
def middle (span : Span) : Nat :=
  (span.start + span.stop) / 2

def underline (span : Span) (place : Nat) : Char × Char :=
  let inside := span.start ≤ place && place < span.stop
  if place = middle span then if inside then ('┬', '─') else ('│', ' ')
  else if inside then ('─', '─')
  else (' ', ' ')

def leader (span : Span) (place : Nat) : Char × Char :=
  if place < middle span then (' ', ' ')
  else if place = middle span then ('╰', '─')
  else ('─', '─')

def oneLine (frame : Frame) (line : Line) (span : Span) (label : String) : List String :=
  if line.start + line.length < span.stop then [frame.margin]
  else
    let widths := line.widths (span.stop + 2 - line.start)
    [frame.numbered line ++ line.text,
      frame.margin ++ draw widths (fun column => underline span (line.start + column)),
      frame.margin ++ draw widths (fun column => leader span (line.start + column)) ++ " "
        ++ label]

def manyLines (frame : Frame) (first last : Line) (span : Span) (label : String) : List String :=
  let width := (last.widths (last.length + 2)).foldl (· + ·) 0
  let opening := frame.numbered first ++ "╭─▶ " ++ first.text
  let left := if 1 < last.number - first.number then [frame.omission] else []
  let closing :=
    if span.stop - 1 < last.start + last.length then
      [frame.numbered last ++ "├─▶ " ++ last.text,
        frame.margin ++ "│   " ++ run width ' ',
        frame.margin ++ "╰───" ++ run width '─' ++ " " ++ label]
    else if last.number - first.number = 1 then [frame.omission]
    else []
  opening :: left ++ closing

/-- The rows of a report under its headline: none if the stretch begins or ends behind the
text. -/
def rows (name : String) (lines : List Line) (span : Span) (label : String) : List String :=
  let stop? := if span.start < span.stop then lineAt? lines (span.stop - 1)
    else lineAt? lines span.start
  match lineAt? lines span.start, stop? with
  | some first, some last =>
    let frame := Frame.around last
    let body := if first.number = last.number then oneLine frame first span label
      else manyLines frame first last span label
    frame.header name first span ++ body ++ [frame.footer]
  | _, _ => []

def syntaxTexts : SyntaxError → String × String
  | .unexpectedEnd => ("Unexpected end of input", "Expected an expression")
  | .unclosed _ => ("Unmatched opening parenthesis", "This '(' is never closed")
  | .unopened _ => ("Unexpected closing parenthesis", "No '(' matches this")
  | .tooDeep limit _ =>
    ("Lists nested deeper than " ++ toString limit, "This list is one level too deep")
  | .invalidToken _ => ("Lexer Error", "Invalid Token")

def causeTexts : EvalCause → String × String
  | .undefinedSymbol name =>
    ("Undefined symbol `" ++ name ++ "`", "This symbol has no binding")
  | .notCallable expression =>
    ("Not a function: " ++ expression, "This expression cannot be called as a function")
  | .invalidArguments fault => ("Invalid arguments:", fault.message)
  | .invalidForm fault =>
    ("Invalid special form: " ++ fault.message, "This special form is malformed or incomplete")
  | .tooDeep limit =>
    ("Evaluation nested deeper than " ++ toString limit, "Limit reached while evaluating this")

/-- The headline of a report on an error, and the label in it. -/
def texts : Error → String × String
  | .reading error => syntaxTexts error
  | .running error => causeTexts error.cause

/-- The stretch that a report marks: that of the error, or the end of the text. -/
def marked (source : String) (error : Error) : Span :=
  error.span?.getD ⟨source.utf8ByteSize, source.utf8ByteSize⟩

def render (name source : String) (error : Error) : String :=
  let (headline, label) := texts error
  let all := ("Error: " ++ headline) :: rows name (linesOf source) (marked source error) label
  String.join (all.map (· ++ "\n"))

end EagerLisp.Report
