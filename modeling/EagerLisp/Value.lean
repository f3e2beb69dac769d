import EagerLisp.Node

namespace EagerLisp

inductive Builtin where
  | add
  | subtract
  | multiply
  | divide
  | equal
  | less
  | lessOrEqual
  | greater
  | greaterOrEqual
  | list
  | car
  | cdr
  | cons
  | length
  | choose
  | cond
  | and
  | or
  | not
deriving DecidableEq

namespace Builtin

def name : Builtin → String
  | .add => "+"
  | .subtract => "-"
  | .multiply => "*"
  | .divide => "/"
  | .equal => "="
  | .less => "<"
  | .lessOrEqual => "<="
  | .greater => ">"
  | .greaterOrEqual => ">="
  | .list => "list"
  | .car => "car"
  | .cdr => "cdr"
  | .cons => "cons"
  | .length => "length"
  | .choose => "if"
  | .cond => "cond"
  | .and => "and"
  | .or => "or"
  | .not => "not"

def all : List Builtin :=
  [.add, .subtract, .multiply, .divide, .equal, .less, .lessOrEqual, .greater, .greaterOrEqual,
    .list, .car, .cdr, .cons, .length, .choose, .cond, .and, .or, .not]

end Builtin

/-- What runs when a native is called: a builtin, or the host's procedure with this number. -/
inductive NativeAction where
  | builtin (builtin : Builtin)
  | host (index : Nat)
deriving DecidableEq

structure Native where
  name : String
  action : NativeAction
deriving DecidableEq

/-- The mark that tells one closure from every other: how many were made before it, by evaluation
or by the host. -/
inductive ClosureMark where
  | made (index : Nat)
  | given (index : Nat)
deriving DecidableEq

/-- A procedure written in the language, and the source text that its body belongs to. -/
structure Closure where
  mark : ClosureMark
  name? : Option String
  parameters : List String
  body : List Node
  source : Nat

inductive Procedure where
  | native (native : Native)
  | closure (closure : Closure)

inductive Value where
  | nil
  | number (value : Float)
  | boolean (value : Bool)
  | string (text : String)
  | list (items : List Value)
  | procedure (procedure : Procedure)

instance : Inhabited Value := ⟨.nil⟩

/-- Procedures are equal if they are one and the same. The number of a host's procedure stands for
one allocation. Every registration allocates anew, so a host that registers one procedure twice has
two numbers for it; two registrations of one number count as one native here. -/
def Procedure.same : Procedure → Procedure → Bool
  | .native first, .native second => first.action = second.action
  | .closure first, .closure second => first.mark = second.mark
  | _, _ => false

namespace Value

def kind : Value → String
  | .nil => "nil"
  | .number _ => "number"
  | .boolean _ => "boolean"
  | .string _ => "string"
  | .list _ => "list"
  | .procedure _ => "procedure"

/-- Nil, false, both zeros, the value that is not a number and the empty string are false; every
other value is true, the empty list included. -/
def isTrue : Value → Bool
  | .nil => false
  | .number value => value != 0 && value == value
  | .boolean value => value
  | .string text => !text.isEmpty
  | .list _ => true
  | .procedure _ => true

def number? : Value → Option Float
  | .number value => some value
  | _ => none

def string? : Value → Option String
  | .string text => some text
  | _ => none

def list? : Value → Option (List Value)
  | .list items => some items
  | _ => none

mutual
/-- Values are equal if they are of one kind and have equal content; numbers compare as doubles,
so what is not a number differs from itself. -/
def same : Value → Value → Bool
  | .nil, .nil => true
  | .number first, .number second => first == second
  | .boolean first, .boolean second => first == second
  | .string first, .string second => first == second
  | .list first, .list second => sameItems first second
  | .procedure first, .procedure second => first.same second
  | _, _ => false

def sameItems : List Value → List Value → Bool
  | [], [] => true
  | first :: firsts, second :: seconds => same first second && sameItems firsts seconds
  | _, _ => false
end

/-- The value of an atom as data; symbols become strings. -/
def ofAtom : Atom → Value
  | .number value => .number value
  | .boolean value => .boolean value
  | .string text => .string text
  | .symbol name => .string name

mutual
def ofNode : Node → Value
  | .leaf atom _ => ofAtom atom
  | .list elements _ => .list (ofNodes elements)

def ofNodes : List Node → List Value
  | [] => []
  | node :: rest => ofNode node :: ofNodes rest
end

theorem ofNodes_eq_map (nodes : List Node) : ofNodes nodes = nodes.map ofNode := by
  induction nodes with
  | nil => simp [ofNodes]
  | cons node rest ih => simp [ofNodes, ih]

end Value

def escaped : Char → List Char
  | '"' => ['\\', '"']
  | '\n' => ['\\', 'n']
  | '\r' => ['\\', 'r']
  | '\t' => ['\\', 't']
  | c => [c]

/-- A string between quotes, as values show it. Quotes and the three control characters get a
backslash; a backslash gets none. -/
def quotedText (text : String) : String :=
  String.ofList ('"' :: text.toList.flatMap escaped ++ ['"'])

def Procedure.text : Procedure → String
  | .native callee => "#<native:" ++ callee.name ++ ">"
  | .closure callee =>
    match callee.name? with
    | some name => "#<lambda:" ++ name ++ ">"
    | none => "#<lambda>"

namespace Value

mutual
def text : Value → String
  | .nil => "nil"
  | .number value => Number.text value
  | .boolean value => Atom.booleanText value
  | .string text => quotedText text
  | .list items => "(" ++ " ".intercalate (texts items) ++ ")"
  | .procedure callee => callee.text

def texts : List Value → List String
  | [] => []
  | value :: rest => text value :: texts rest
end

theorem texts_eq_map (values : List Value) : texts values = values.map text := by
  induction values with
  | nil => simp [texts]
  | cons value rest ih => simp [texts, ih]

end Value

end EagerLisp
