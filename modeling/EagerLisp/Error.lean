import EagerLisp.Token

namespace EagerLisp

/-- The causes that keep a text from being read. The lexer refuses no text, so `invalidToken` comes
up only where an error is made by hand. -/
inductive SyntaxError where
  | unexpectedEnd
  | unclosed (span : Span)
  | unopened (span : Span)
  | tooDeep (limit : Nat) (span : Span)
  | invalidToken (span : Span)
deriving DecidableEq

namespace SyntaxError

def span? : SyntaxError → Option Span
  | .unexpectedEnd => none
  | .unclosed span => some span
  | .unopened span => some span
  | .tooDeep _ span => some span
  | .invalidToken span => some span

def located (span : Span) (what : String) : String :=
  "Syntax Error [at " ++ span.text ++ "]: " ++ what

def message : SyntaxError → String
  | .unexpectedEnd => "Syntax Error: Unexpected end of input"
  | .unclosed span => located span "Unmatched opening parenthesis"
  | .unopened span => located span "Unexpected closing parenthesis"
  | .tooDeep limit span => located span ("Lists nested deeper than " ++ toString limit)
  | .invalidToken _ => "Lexer Error during parse: Invalid Token"

end SyntaxError

/-- The rules that do not evaluate every operand. -/
inductive SpecialForm where
  | quote
  | assign
  | define
  | closure
  | bind
deriving DecidableEq

namespace SpecialForm

def names : List String :=
  ["quote", "setq", "set", "defun", "lambda", "let"]

def ofName? : String → Option SpecialForm
  | "quote" => some .quote
  | "setq" => some .assign
  | "set" => some .assign
  | "defun" => some .define
  | "lambda" => some .closure
  | "let" => some .bind
  | _ => none

/-- The name that a special form goes by in messages. -/
def name : SpecialForm → String
  | .quote => "quote"
  | .assign => "setq"
  | .define => "defun"
  | .closure => "lambda"
  | .bind => "let"

def expectation : SpecialForm → String
  | .quote => "exactly one argument"
  | .assign => "a symbol and a value"
  | .define => "a name, a parameter list and a body"
  | .closure => "a parameter list and a body"
  | .bind => "a binding list and a body"

end SpecialForm

/-- What a native finds wrong with its arguments. -/
inductive ArgumentFault where
  | tooFew (native : String) (least given : Nat)
  | notNumber (native : String) (position : Nat) (kind : String)
  | wrongKind (native expected kind : String)
  | stated (reason : String)
deriving DecidableEq

def ArgumentFault.message : ArgumentFault → String
  | .tooFew name least given =>
    "Primitive '" ++ name ++ "' expects at least " ++ toString least ++ " arguments, got "
      ++ toString given
  | .notNumber name position kind =>
    "Primitive '" ++ name ++ "' expects a number for argument " ++ toString position
      ++ ", got " ++ kind
  | .wrongKind name expected kind =>
    "Primitive '" ++ name ++ "' expects " ++ expected ++ ", got " ++ kind
  | .stated reason => reason

inductive FormFault where
  | operands (form : SpecialForm)
  | notSymbol (form : SpecialForm) (kind : String)
  | notParameters (form : SpecialForm) (kind : String)
  | notBindings (kind : String)
  | notBinding (text : String)
  | stated (reason : String)
deriving DecidableEq

def FormFault.message : FormFault → String
  | .operands form => form.name ++ " expects " ++ form.expectation
  | .notSymbol form kind => form.name ++ " expects a symbol, got " ++ kind
  | .notParameters form kind => form.name ++ " expects a parameter list, got " ++ kind
  | .notBindings kind => "let expects a list of bindings, got " ++ kind
  | .notBinding text => "let binding must be (symbol value), got " ++ text
  | .stated reason => reason

inductive EvalCause where
  | undefinedSymbol (name : String)
  | notCallable (expression : String)
  | invalidArguments (fault : ArgumentFault)
  | invalidForm (fault : FormFault)
  | tooDeep (limit : Nat)
deriving DecidableEq

def EvalCause.message : EvalCause → String
  | .undefinedSymbol name => "Undefined symbol: " ++ name
  | .notCallable expression => expression ++ " is not a function"
  | .invalidArguments fault => "Invalid arguments - " ++ fault.message
  | .invalidForm fault => "Invalid special form - " ++ fault.message
  | .tooDeep limit => "Maximum evaluation depth of " ++ toString limit ++ " exceeded"

/-- A failed evaluation: why it failed and where. -/
structure EvalError where
  cause : EvalCause
  span : Span
deriving DecidableEq

namespace EvalError

def message (error : EvalError) : String :=
  error.cause.message

def relocate (error : EvalError) (span : Span) : EvalError :=
  { error with span }

@[simp] theorem relocate_cause (error : EvalError) (span : Span) :
    (error.relocate span).cause = error.cause := rfl

@[simp] theorem relocate_span (error : EvalError) (span : Span) :
    (error.relocate span).span = span := rfl

end EvalError

inductive Error where
  | reading (error : SyntaxError)
  | running (error : EvalError)
deriving DecidableEq

namespace Error

def message : Error → String
  | .reading error => error.message
  | .running error => error.message

def span? : Error → Option Span
  | .reading error => error.span?
  | .running error => some error.span

def isSyntaxError : Error → Bool
  | .reading _ => true
  | .running _ => false

def isUndefinedSymbol : Error → Bool
  | .running ⟨.undefinedSymbol _, _⟩ => true
  | _ => false

def isNotCallable : Error → Bool
  | .running ⟨.notCallable _, _⟩ => true
  | _ => false

end Error

end EagerLisp
