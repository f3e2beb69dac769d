import EagerLisp.Text

namespace EagerLisp.Highlight

inductive Colour where
  | grey
  | green
  | red
  | blue
  | brightBlue
deriving DecidableEq

/-- The parameter of the escape sequence that turns a colour on. -/
def Colour.code : Colour → String
  | .grey => "90"
  | .green => "32"
  | .red => "31"
  | .blue => "34"
  | .brightBlue => "1;34"

structure Painted where
  character : Char
  colour? : Option Colour
deriving DecidableEq

def Painted.text (painted : Painted) : String :=
  match painted.colour? with
  | some colour => "\x1b[" ++ colour.code ++ "m" ++ painted.character.toString ++ "\x1b[0m"
  | none => painted.character.toString

/-- An opening parenthesis that waits for its partner: where it stands in the line, in bytes, and
among the characters painted so far. -/
structure Opening where
  offset : Nat
  index : Nat

def touches (cursor offset : Nat) : Bool :=
  cursor = offset + 1

/-- Paints the rest of a line that begins at byte `offset`, given the parentheses that are open,
innermost first. -/
def paint (cursor : Nat) (region : Region) (offset : Nat) (openings : List Opening)
    (painted : Array Painted) : List Char → Array Painted
  | [] => painted
  | c :: rest =>
    let next := offset + c.utf8Size
    match region.holding c, c, openings with
    | .comment, _, _ =>
      paint cursor (region.after c) next openings (painted.push ⟨c, some .grey⟩) rest
    | .quoted, _, _ =>
      paint cursor (region.after c) next openings (painted.push ⟨c, some .green⟩) rest
    | .code, '(', _ =>
      paint cursor .code next (⟨offset, painted.size⟩ :: openings) (painted.push ⟨c, none⟩) rest
    | .code, ')', [] => paint cursor .code next [] (painted.push ⟨c, some .red⟩) rest
    | .code, ')', opening :: openings =>
      let painted :=
        if touches cursor opening.offset || touches cursor offset then
          (painted.setIfInBounds opening.index ⟨'(', some .brightBlue⟩).push ⟨c, some .blue⟩
        else painted.push ⟨c, none⟩
      paint cursor .code next openings painted rest
    | .code, _, _ => paint cursor .code next openings (painted.push ⟨c, none⟩) rest

def ofString (line : String) (cursor : Nat) : List Painted :=
  (paint cursor .code 0 [] #[] line.toList).toList

def text (line : String) (cursor : Nat) : String :=
  String.join ((ofString line cursor).map Painted.text)

end EagerLisp.Highlight
