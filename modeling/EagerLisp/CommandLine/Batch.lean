import EagerLisp.CommandLine.Arguments
import EagerLisp.FileTree
import EagerLisp.Interpreter
import EagerLisp.Report

/-! The batch runner: all expressions and then all files are evaluated by one interpreter, and
the value of the last source text is printed, nil if that text holds no expression. Every file is
read before anything is evaluated, and the first error ends the run. -/
namespace EagerLisp.CommandLine

def limitSetting : Setting :=
  ⟨"max-depth", none, false, .count⟩

def Progress.limit (progress : Progress) : Nat :=
  ((progress.valuesOf "max-depth").head?.bind readCount?).getD defaultLimit

/-- What the batch runner is asked to do: expressions are evaluated before files. -/
structure BatchOptions where
  limit : Nat
  expressions : List String
  files : List String
deriving DecidableEq

def batchGrammar : Grammar :=
  { settings := [limitSetting, ⟨"eval", some 'e', true, .anything⟩]
    operands? := some .path }

def readBatch (arguments : List String) : Except Refusal BatchOptions := do
  let progress ← read batchGrammar arguments
  return ⟨progress.limit, progress.valuesOf "eval", progress.operands.reverse⟩

inductive EditMode where
  | vi
  | emacs
deriving DecidableEq

def EditMode.word : EditMode → String
  | .vi => "vi"
  | .emacs => "emacs"

structure SessionOptions where
  limit : Nat
  editMode : EditMode
  history : String
deriving DecidableEq

def sessionGrammar : Grammar :=
  { settings := [limitSetting,
      ⟨"edit-mode", none, false, .choice [EditMode.vi.word, EditMode.emacs.word]⟩,
      ⟨"history", some 'H', false, .path⟩]
    operands? := none }

def readSession (arguments : List String) : Except Refusal SessionOptions := do
  let progress ← read sessionGrammar arguments
  let editMode := if (progress.valuesOf "edit-mode").head? = some EditMode.emacs.word
    then EditMode.emacs else EditMode.vi
  return ⟨progress.limit, editMode, (progress.valuesOf "history").head?.getD
    "edlisp_history.txt"⟩

structure Source where
  name : String
  text : String
deriving DecidableEq

/-- The expressions of a command line as source texts, numbered from one. -/
def expressionSources (expressions : List String) : List Source :=
  expressions.zipIdx.map fun (text, index) =>
    ⟨"<eval " ++ toString (index + 1) ++ ">", text⟩

/-- The files as source texts, or the message about the first one that cannot be read. -/
def fileSources (readFile : String → Except FileFault String) :
    List String → Except String (List Source)
  | [] => .ok []
  | name :: rest => do
    match readFile name with
    | .ok text => return ⟨name, text⟩ :: (← fileSources readFile rest)
    | .error fault => .error ("Cannot read " ++ name ++ ": " ++ fault.message ++ "\n")

/-- Evaluates source texts in order; the answer is the value of the last one, or the report on
the first error. -/
def runSources (interpreter : Interpreter Unit) (last : Value) :
    List Source → Except String Value
  | [] => .ok last
  | source :: rest =>
    match interpreter.evaluate Host.none source.text with
    | (.ok value, interpreter) => runSources interpreter value rest
    | (.error error, _) => .error (Report.render source.name source.text error)

def failure (message : String) : Outcome :=
  ⟨1, "", message⟩

def runBatch (options : BatchOptions) (readFile : String → Except FileFault String) :
    Outcome :=
  match fileSources readFile options.files with
  | .error message => failure message
  | .ok files =>
    let sources := expressionSources options.expressions ++ files
    match runSources (.new () options.limit) .nil sources with
    | .error message => failure message
    | .ok last => ⟨0, if sources.isEmpty then "" else last.text ++ "\n", ""⟩

end EagerLisp.CommandLine
