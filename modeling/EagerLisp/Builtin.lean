import EagerLisp.Error
import EagerLisp.Value

/-! What the builtins answer. Their arguments have been evaluated, those of `if`, `cond`, `and`
and `or` too: these only pick among values. Missing arguments of the builtins that take a fixed
number count as nil, except in arithmetic and comparison, and surplus ones are ignored. -/
namespace EagerLisp.Builtin

abbrev Answer := Except ArgumentFault Value

/-- Folds numbers from the left. `position` is the place of the first one among the arguments. -/
def foldNumbers (operator : String) (combine : Float → Float → Float) (total : Float)
    (position : Nat) : List Value → Answer
  | [] => .ok (.number total)
  | .number value :: rest =>
    foldNumbers operator combine (combine total value) (position + 1) rest
  | other :: _ => .error (.notNumber operator position other.kind)

/-- Folds the numbers behind the first one onto it; a single number is answered as it is. -/
def foldOntoFirst (operator : String) (combine : Float → Float → Float) : List Value → Answer
  | [] => .error (.tooFew operator 1 0)
  | .number first :: rest => foldNumbers operator combine first 2 rest
  | other :: _ => .error (.notNumber operator 1 other.kind)

def compareNumbers (operator : String) (test : Float → Float → Bool) : List Value → Answer
  | .number first :: .number second :: _ => .ok (.boolean (test first second))
  | .number _ :: other :: _ => .error (.notNumber operator 2 other.kind)
  | other :: _ :: _ => .error (.notNumber operator 1 other.kind)
  | arguments => .error (.tooFew operator 2 arguments.length)

def compareValues : List Value → Answer
  | first :: second :: _ => .ok (.boolean (first.same second))
  | arguments => .error (.tooFew "=" 2 arguments.length)

/-- The items that an argument stands for: nil, false and no argument at all stand for none. -/
def items? : Option Value → Except Value (List Value)
  | none => .ok []
  | some .nil => .ok []
  | some (.boolean false) => .ok []
  | some (.list items) => .ok items
  | some other => .error other

def onItems (native expected : String) (argument : Option Value) (use : List Value → Value) :
    Answer :=
  match items? argument with
  | .ok items => .ok (use items)
  | .error other => .error (.wrongKind native expected other.kind)

def lengthOf : Option Value → Answer
  | some (.string text) => .ok (.number text.length.toFloat)
  | argument =>
    onItems "length" "a list or string" argument fun items => .number items.length.toFloat

def argument (arguments : List Value) (place : Nat) : Value :=
  arguments[place]?.getD .nil

/-- The second item of the first clause whose first item is true. A clause is a list of at least
two items; other arguments are passed over. -/
def firstTrueClause : List Value → Value
  | [] => .nil
  | .list (test :: value :: _) :: rest => if test.isTrue then value else firstTrueClause rest
  | _ :: rest => firstTrueClause rest

def answer (builtin : Builtin) (arguments : List Value) : Answer :=
  match builtin with
  | .add => foldNumbers "+" (· + ·) 0 1 arguments
  | .subtract => foldOntoFirst "-" (· - ·) arguments
  | .multiply => foldNumbers "*" (· * ·) 1 1 arguments
  | .divide => foldOntoFirst "/" (· / ·) arguments
  | .equal => compareValues arguments
  | .less => compareNumbers "<" (fun first second => decide (first < second)) arguments
  | .lessOrEqual => compareNumbers "<=" (fun first second => decide (first ≤ second)) arguments
  | .greater => compareNumbers ">" (fun first second => decide (second < first)) arguments
  | .greaterOrEqual => compareNumbers ">=" (fun first second => decide (second ≤ first)) arguments
  | .list => .ok (.list arguments)
  | .car => onItems "car" "a list" arguments.head? fun items => argument items 0
  | .cdr => onItems "cdr" "a list" arguments.head? fun items => .list items.tail
  | .cons => onItems "cons" "a list as argument 2" arguments[1]? fun items =>
      .list (argument arguments 0 :: items)
  | .length => lengthOf arguments.head?
  | .choose =>
    .ok (if (argument arguments 0).isTrue then argument arguments 1 else argument arguments 2)
  | .cond => .ok (firstTrueClause arguments)
  | .and => .ok (.boolean (arguments.all Value.isTrue))
  | .or => .ok (.boolean (arguments.any Value.isTrue))
  | .not => .ok (.boolean !(argument arguments 0).isTrue)

def call (builtin : Builtin) (arguments : List Value) (span : Span) : Except EvalError Value :=
  match builtin.answer arguments with
  | .ok value => .ok value
  | .error fault => .error ⟨.invalidArguments fault, span⟩

end EagerLisp.Builtin
