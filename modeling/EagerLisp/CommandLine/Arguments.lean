namespace EagerLisp.CommandLine

inductive Refusal where
  | missingValue
  | badChoice
  | badNumber
  | repeated
  | unknown
  | surplusValue
  | help
  | version
deriving DecidableEq

/-- The exit code of a command that refuses its arguments; help and version are no failures. -/
def Refusal.code : Refusal → Nat
  | .help => 0
  | .version => 0
  | _ => 2

inductive ValueRule where
  | anything
  | path
  | count
  | choice (words : List String)

/-- The whole number that a text spells: an optional plus and digits, at most 64 bits. -/
def readCount? (text : String) : Option Nat :=
  let digits := match text.toList with
    | '+' :: rest => rest
    | all => all
  if digits.isEmpty || !digits.all Char.isDigit then none
  else
    let count := digits.foldl (fun total c => 10 * total + (c.toNat - '0'.toNat)) 0
    if count < Nat.pow 2 64 then some count else none

def ValueRule.complaint? (rule : ValueRule) (value : String) : Option Refusal :=
  match rule with
  | .anything => none
  | .path => if value.isEmpty then some .missingValue else none
  | .count => if (readCount? value).isSome then none else some .badNumber
  | .choice words => if words.contains value then none else some .badChoice

structure Setting where
  long : String
  short? : Option Char
  repeatable : Bool
  rule : ValueRule

/-- The options of a command, and what its operands have to be if it takes any. -/
structure Grammar where
  settings : List Setting
  operands? : Option ValueRule

/-- What has been begun and not been checked: nothing, an option with or without its value, or
operands, newest first. -/
inductive Pending where
  | nothing
  | setting (setting : Setting) (value? : Option String)
  | operands (rule : ValueRule) (values : List String)

structure Progress where
  values : List (String × String)
  operands : List String
  pending : Pending

abbrev Step := Except Refusal Progress

namespace Progress

def start : Progress :=
  ⟨[], [], .nothing⟩

def accept (progress : Progress) (setting : Setting) (value : String) : Step :=
  if !setting.repeatable && (progress.values.lookup setting.long).isSome then .error .repeated
  else
    match setting.rule.complaint? value with
    | some refusal => .error refusal
    | none => .ok { progress with values := (setting.long, value) :: progress.values }

def settle (progress : Progress) : Step :=
  match progress.pending with
  | .nothing => .ok progress
  | .setting _ none => .error .missingValue
  | .setting setting (some value) => accept { progress with pending := .nothing } setting value
  | .operands rule values =>
    match values.reverse.findSome? rule.complaint? with
    | some refusal => .error refusal
    | none =>
      .ok { progress with operands := values ++ progress.operands, pending := .nothing }

/-- Begins an option whose value is the next argument, or accepts the one joined to it. -/
def giveSetting (progress : Progress) (setting : Setting) (joined? : Option String) : Step := do
  let settled ← progress.settle
  match joined? with
  | some value => settled.accept setting value
  | none => .ok { settled with pending := .setting setting none }

def giveFlag (progress : Progress) (flag : Refusal) : Step := do
  let _ ← progress.settle
  .error flag

def giveOperand (grammar : Grammar) (progress : Progress) (value : String) : Step :=
  match grammar.operands?, progress.pending with
  | none, _ => .error .unknown
  | some _, .operands rule values =>
    .ok { progress with pending := .operands rule (value :: values) }
  | some rule, _ => do
    let settled ← progress.settle
    .ok { settled with pending := .operands rule [value] }

/-- Takes an argument that is no option: the value of the option before it, or an operand. -/
def giveValue (grammar : Grammar) (progress : Progress) (value : String) : Step :=
  match progress.pending with
  | .setting setting none =>
    .ok { progress with pending := .setting setting (some value) }
  | _ => progress.giveOperand grammar value

end Progress

/-- An argument as it looks: the end of the options, a long option with the text behind its
equals sign, a short option with the text behind its letter, or none of these. -/
inductive Shape where
  | options
  | long (name : List Char) (joined? : Option String)
  | short (letter : Char) (rest : List Char)
  | plain

def Shape.of (argument : String) : Shape :=
  match argument.toList with
  | ['-', '-'] => .options
  | '-' :: '-' :: text =>
    match text.dropWhile (· ≠ '=') with
    | _ :: value => .long (text.takeWhile (· ≠ '=')) (some (String.ofList value))
    | [] => .long text none
  | '-' :: letter :: rest => .short letter rest
  | _ => .plain

/-- The value joined to a short option: what follows its letter, without an equals sign in
front. -/
def joinedToLetter? : List Char → Option String
  | [] => none
  | '=' :: value => some (String.ofList value)
  | value => some (String.ofList value)

def giveLong (grammar : Grammar) (progress : Progress) (name : String)
    (joined? : Option String) : Step :=
  let flag (refusal : Refusal) : Step :=
    if joined?.isSome then .error .surplusValue else progress.giveFlag refusal
  if name = "help" then flag .help
  else if name = "version" then flag .version
  else
    match grammar.settings.find? (·.long = name) with
    | some setting => progress.giveSetting setting joined?
    | none => .error .unknown

def giveShort (grammar : Grammar) (progress : Progress) (letter : Char) (rest : List Char) :
    Step :=
  if letter = 'h' then progress.giveFlag .help
  else if letter = 'V' then progress.giveFlag .version
  else
    match grammar.settings.find? (·.short? = some letter) with
    | some setting => progress.giveSetting setting (joinedToLetter? rest)
    | none => .error .unknown

/-- Reads arguments in order; behind the end of the options all are operands. -/
def readArguments (grammar : Grammar) (progress : Progress) (operandsOnly : Bool) :
    List String → Step
  | [] => progress.settle
  | argument :: rest =>
    if operandsOnly then do
      readArguments grammar (← progress.giveOperand grammar argument) true rest
    else
      match Shape.of argument with
      | .options => readArguments grammar progress true rest
      | .long name joined? => do
        readArguments grammar (← giveLong grammar progress (String.ofList name) joined?) false
          rest
      | .short letter letters => do
        readArguments grammar (← giveShort grammar progress letter letters) false rest
      | .plain => do
        readArguments grammar (← progress.giveValue grammar argument) false rest

def read (grammar : Grammar) (arguments : List String) : Step :=
  readArguments grammar .start false arguments

def Progress.valuesOf (progress : Progress) (long : String) : List String :=
  (progress.values.filter (·.1 = long)).reverse.map Prod.snd

end EagerLisp.CommandLine
