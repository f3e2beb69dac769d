import EagerLisp.Node
import EagerLisp.Error
import EagerLisp.Token

/-! Reads expressions off the front of a token sequence. Lists that wait for their closing
parenthesis are kept on a stack of at most `nestingLimit`; a list one level deeper is skipped up
to its own closing parenthesis, so what follows it can still be read. -/
namespace EagerLisp.Reader

def nestingLimit : Nat := 512

/-- A list whose closing parenthesis has not been read: its opening one, and its elements so
far, newest first. -/
structure OpenList where
  opening : Span
  elements : List Node

abbrev Reading (α : Type) := Except SyntaxError α × List Token

/-- Passes over the rest of a list that was opened too deep at `opening`, given the innermost
parenthesis still open in it and the ones around that. -/
def skip (opening innermost : Span) (around : List Span) : List Token → SyntaxError × List Token
  | [] => (.unclosed innermost, [])
  | ⟨.openParen, span⟩ :: rest => skip opening span (innermost :: around) rest
  | ⟨.closeParen, _⟩ :: rest =>
    match around with
    | [] => (.tooDeep nestingLimit opening, rest)
    | next :: others => skip opening next others rest
  | ⟨.atom _, _⟩ :: rest => skip opening innermost around rest

/-- A finished expression either joins the innermost open list or is the one asked for. -/
def deliver (node : Node) : List OpenList → Except Node (List OpenList)
  | [] => .error node
  | ⟨opening, elements⟩ :: around => .ok (⟨opening, node :: elements⟩ :: around)

/-- Reads on until the outermost of the open lists is finished, or one expression if none is
open. -/
def readInto : List OpenList → List Token → Reading Node
  | [], [] => (.error .unexpectedEnd, [])
  | innermost :: _, [] => (.error (.unclosed innermost.opening), [])
  | stack, ⟨.openParen, span⟩ :: rest =>
    if stack.length = nestingLimit then
      let (error, unread) := skip span span [] rest
      (.error error, unread)
    else readInto (⟨span, []⟩ :: stack) rest
  | stack, ⟨.atom text, span⟩ :: rest =>
    match deliver (.leaf (.ofText text) span) stack with
    | .error node => (.ok node, rest)
    | .ok stack => readInto stack rest
  | [], ⟨.closeParen, span⟩ :: rest => (.error (.unopened span), rest)
  | innermost :: around, ⟨.closeParen, span⟩ :: rest =>
    let node := .list innermost.elements.reverse (innermost.opening.hull span)
    match deliver node around with
    | .error node => (.ok node, rest)
    | .ok stack => readInto stack rest

def read (tokens : List Token) : Reading Node :=
  readInto [] tokens

def hasMore (tokens : List Token) : Bool :=
  !tokens.isEmpty

def next (tokens : List Token) : Option (Except SyntaxError Node) × List Token :=
  if hasMore tokens then
    let (outcome, unread) := read tokens
    (some outcome, unread)
  else (none, tokens)

theorem skip_length_le (opening innermost : Span) (around : List Span) (tokens : List Token) :
    (skip opening innermost around tokens).2.length ≤ tokens.length := by
  fun_induction skip opening innermost around tokens with
  | case1 => simp
  | case2 => simp only [List.length_cons]; omega
  | case3 => simp
  | case4 => simp only [List.length_cons]; omega
  | case5 => simp only [List.length_cons]; omega

theorem readInto_length_lt (stack : List OpenList) (token : Token) (rest : List Token) :
    (readInto stack (token :: rest)).2.length < (token :: rest).length := by
  suffices bound : ∀ tokens stack,
      (readInto stack tokens).2.length ≤ tokens.length ∧
        (tokens ≠ [] → (readInto stack tokens).2.length < tokens.length) from
    (bound (token :: rest) stack).2 (by simp)
  intro tokens
  induction tokens with
  | nil => intro stack; cases stack <;> simp [readInto]
  | cons token rest ih =>
    intro stack
    have shorter : (readInto stack (token :: rest)).2.length ≤ rest.length := by
      obtain ⟨lexeme, span⟩ := token
      cases lexeme with
      | openParen =>
        simp only [readInto]
        split
        · exact skip_length_le span span [] rest
        · exact (ih _).1
      | closeParen =>
        cases stack with
        | nil => simp [readInto]
        | cons innermost around =>
          simp only [readInto]
          split
          · simp
          · exact (ih _).1
      | atom text =>
        simp only [readInto]
        split
        · simp
        · exact (ih _).1
    simp only [List.length_cons]
    exact ⟨by omega, fun _ => by omega⟩

theorem read_length_lt {token : Token} {rest unread : List Token}
    {outcome : Except SyntaxError Node} (same : read (token :: rest) = (outcome, unread)) :
    unread.length < (token :: rest).length := by
  have shorter := readInto_length_lt [] token rest
  rw [← read, same] at shorter
  exact shorter

def readAll (found : List Node) : List Token → Except SyntaxError (List Node)
  | [] => .ok found.reverse
  | token :: rest =>
    match _same : read (token :: rest) with
    | (.ok node, unread) => readAll (node :: found) unread
    | (.error error, _) => .error error
termination_by tokens => tokens.length
decreasing_by exact read_length_lt _same

/-- The outcomes of reading again and again, errors included, until no token is left; `found`
holds the earlier ones, newest first. -/
def attempts (found : List (Except SyntaxError Node)) :
    List Token → List (Except SyntaxError Node)
  | [] => found.reverse
  | token :: rest =>
    match _same : read (token :: rest) with
    | (outcome, unread) => attempts (outcome :: found) unread
termination_by tokens => tokens.length
decreasing_by exact read_length_lt _same

def readProgram (source : String) : Except SyntaxError (List Node) :=
  readAll [] (Token.ofString source)

/-- The first expression of a text. A closing parenthesis right behind it is an error; other
tokens behind it are left alone. -/
def readExpression (source : String) : Except SyntaxError Node :=
  match read (Token.ofString source) with
  | (.error error, _) => .error error
  | (.ok _, ⟨.closeParen, span⟩ :: _) => .error (.unopened span)
  | (.ok node, _) => .ok node

end EagerLisp.Reader
