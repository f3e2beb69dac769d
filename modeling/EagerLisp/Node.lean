import EagerLisp.Number
import EagerLisp.Token

namespace EagerLisp

inductive Atom where
  | number (value : Float)
  | boolean (value : Bool)
  | string (text : String)
  | symbol (name : String)
deriving DecidableEq

namespace Atom

/-- The text between the quotes of a quoted atom; a lone quote encloses nothing. -/
def unquoted? : List Char → Option (List Char)
  | ['"'] => some []
  | '"' :: rest => if rest.getLast? = some '"' then some rest.dropLast else none
  | _ => none

def boolean? (word : String) : Option Bool :=
  if word = "t" || word = "true" then some true
  else if word = "nil" || word = "false" then some false
  else none

/-- The atom that a text spells: a quoted text is a string even if it looks like a number, a
numeral is a number, and four words are booleans. Every other text is a symbol. -/
def ofText (text : String) : Atom :=
  match unquoted? text.toList, Number.ofText? text, boolean? text with
  | some inner, _, _ => .string (String.ofList inner)
  | none, some value, _ => .number value
  | none, none, some value => .boolean value
  | none, none, none => .symbol text

def kind : Atom → String
  | .number _ => "number"
  | .boolean _ => "boolean"
  | .string _ => "string"
  | .symbol _ => "symbol"

def booleanText (value : Bool) : String :=
  if value then "t" else "nil"

def text : Atom → String
  | .number value => Number.text value
  | .boolean value => booleanText value
  | .string text => "\"" ++ text ++ "\""
  | .symbol name => name

end Atom

inductive Node where
  | leaf (atom : Atom) (span : Span)
  | list (elements : List Node) (span : Span)

namespace Node

/-- Where the expression stands; a list reaches from its `(` to its `)`. -/
def span : Node → Span
  | .leaf _ span => span
  | .list _ span => span

def symbol? : Node → Option String
  | .leaf (.symbol name) _ => some name
  | _ => none

def kind : Node → String
  | .leaf atom _ => atom.kind
  | .list _ _ => "list"

mutual
def text : Node → String
  | .leaf atom _ => atom.text
  | .list elements _ => "(" ++ " ".intercalate (texts elements) ++ ")"

def texts : List Node → List String
  | [] => []
  | node :: rest => text node :: texts rest
end

theorem texts_eq_map (nodes : List Node) : texts nodes = nodes.map text := by
  induction nodes with
  | nil => simp [texts]
  | cons node rest ih => simp [texts, ih]

end Node

end EagerLisp
