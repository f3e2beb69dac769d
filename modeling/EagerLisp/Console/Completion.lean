import EagerLisp.Table
import EagerLisp.Text
import EagerLisp.Token

namespace EagerLisp

/-- A text is complete, needs more text, or has a closing parenthesis that nothing opens; its
position is counted in characters. -/
inductive Balance where
  | complete
  | incomplete
  | unmatched (position : Nat)
deriving DecidableEq

namespace Balance

/-- The balance of the rest of a text, given the region and how many parentheses are open. -/
def scan (region : Region) (depth position : Nat) : List Char → Balance
  | [] => if region = .quoted || 0 < depth then .incomplete else .complete
  | c :: rest =>
    if region.holding c = .code && c = '(' then scan .code (depth + 1) (position + 1) rest
    else if region.holding c = .code && c = ')' then
      if depth = 0 then .unmatched position else scan .code (depth - 1) (position + 1) rest
    else scan (region.after c) depth (position + 1) rest

def ofString (text : String) : Balance :=
  scan .code 0 0 text.toList

def complaint? : Balance → Option String
  | .unmatched position => some ("  - Unmatched ')' at position " ++ toString position)
  | _ => none

end Balance

namespace Completion

/-- The characters of a text that lie within its first bytes. -/
def firstBytes (count : Nat) : List Char → List Char
  | [] => []
  | c :: rest => if c.utf8Size ≤ count then c :: firstBytes (count - c.utf8Size) rest else []

/-- The part of a name that the text ends with: its last token, if that is an atom that reaches
up to the end and is no string. -/
def stem? (before : List Char) : Option String :=
  match (Token.scan 0 [] before).getLast? with
  | some ⟨.atom text, span⟩ =>
    if span.stop = Token.byteLength before && text.toList.head? ≠ some '"' then some text
    else none
  | _ => none

def continuation? (stem name : String) : Option String :=
  if stem.toList.isPrefixOf name.toList && stem.length < name.length then
    some (String.ofList (name.toList.drop stem.length))
  else none

/-- What can be written at a cursor behind so many bytes of a line to complete the name there to
one of the identifiers. -/
def candidates (identifiers : List String) (line : String) (cursor : Nat) : List String :=
  match stem? (firstBytes cursor line.toList) with
  | some stem => sortedNames (identifiers.filterMap (continuation? stem))
  | none => []

end Completion

end EagerLisp
