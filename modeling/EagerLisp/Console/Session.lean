import EagerLisp.Console.Completion
import EagerLisp.FileTree
import EagerLisp.Interpreter
import EagerLisp.Report
import EagerLisp.Text

namespace EagerLisp

/-- A session: its interpreter, the lines of the entry at hand and the earlier entries, newest
first. -/
structure Session where
  interpreter : Interpreter Unit
  pending : List Char
  history : List String

structure Reply where
  output : String
  errors : String
  finished : Bool
deriving DecidableEq

namespace Reply

def silent : Reply := ⟨"", "", false⟩

def shown (text : String) : Reply := ⟨text ++ "\n", "", false⟩

def complained (text : String) : Reply := ⟨"", text, false⟩

def farewell (text : String) : Reply := ⟨text, "", true⟩

end Reply

namespace Session

def new (limit : Nat) : Session :=
  ⟨.new () limit, [], []⟩

def greeting (historyFound : Bool) : String :=
  "edlisp REPL v0.1.0\nType 'exit' or press Ctrl-D to quit.\n"
    ++ if historyFound then "" else "No previous history.\n"

/-- Takes the line ending off the end of a text; the second part is what was taken. -/
def splitEnding (text : List Char) : List Char × List Char :=
  match text.reverse with
  | '\n' :: '\r' :: rest => (rest.reverse, ['\r', '\n'])
  | '\n' :: rest => (rest.reverse, ['\n'])
  | _ => (text, [])

/-- Keeps an entry for the history, unless it is empty or the same as the one before. -/
def remember (entry : String) (history : List String) : List String :=
  if entry.isEmpty || history.head? = some entry then history else entry :: history

def isExit (text : String) : Bool :=
  text.map Char.toLower = "exit"

def evaluate (session : Session) (source : String) : Session × Reply :=
  match session.interpreter.evaluate Host.none source with
  | (.ok value, interpreter) => ({ session with interpreter }, .shown value.text)
  | (.error error, interpreter) =>
    ({ session with interpreter }, .complained (Report.render "REPL" source error))

/-- Takes in a finished entry. White space around it is left out; an entry of nothing else is
passed over. -/
def enter (session : Session) (entry : String) : Session × Reply :=
  let session :=
    { session with pending := [], history := remember entry session.history }
  let source := String.ofList (trim entry.toList)
  if source.isEmpty then (session, .silent)
  else if isExit source then (session, .farewell "")
  else session.evaluate source

def feed (session : Session) (line : List Char) : Session × Reply :=
  let (text, ending) := splitEnding (session.pending ++ line)
  match Balance.ofString (String.ofList text) with
  | .complete => session.enter (String.ofList text)
  | .incomplete => ({ session with pending := text ++ ending }, .silent)
  | .unmatched position =>
    ({ session with pending := text },
      .complained ((Balance.unmatched position).complaint?.getD ""))

def closing : Reply :=
  .farewell "\nExiting.\n"

def cutLines (lines : List (List Char)) (current : List Char) : List Char → List (List Char)
  | [] => if current.isEmpty then lines.reverse else (current.reverse :: lines).reverse
  | c :: rest =>
    if c = '\n' then cutLines ((c :: current).reverse :: lines) [] rest
    else cutLines lines (c :: current) rest

/-- Feeds lines until the session is over; `said` holds the replies so far, newest first. -/
def runLines (session : Session) (said : List Reply) : List (List Char) → Session × List Reply
  | [] => (session, (closing :: said).reverse)
  | line :: rest =>
    match session.feed line with
    | (session, reply) =>
      if reply.finished then (session, (reply :: said).reverse)
      else runLines session (reply :: said) rest

/-- A character of an entry in a kept history: an entry has one line there. -/
def historyCharacter : Char → List Char
  | '\\' => ['\\', '\\']
  | '\n' => ['\\', 'n']
  | c => [c]

def historyText (earlier : String) (entries : List String) : String :=
  let lines := entries.map fun entry => String.ofList (entry.toList.flatMap historyCharacter)
  (if earlier.isEmpty then "#V2\n" else earlier) ++ String.join (lines.map (· ++ "\n"))

def historyLost (fault : FileFault) : String :=
  "Error: Io(" ++ fault.record ++ ")\n"

/-- The fault that ends a session in failure: that of its history, if there are entries to keep. -/
def lost? (session : Session) (historyFault? : Option FileFault) : Option FileFault :=
  if session.history.isEmpty then none else historyFault?

/-- A whole session over an input; `historyFault?` is what keeps its history from being written. -/
def run (limit : Nat) (historyFound : Bool) (historyFault? : Option FileFault) (input : String) :
    Outcome :=
  let (session, replies) := runLines (.new limit) [] (cutLines [] [] input.toList)
  let lost := session.lost? historyFault?
  { code := if lost.isSome then 1 else 0
    output := greeting historyFound ++ String.join (replies.map Reply.output)
    errors := String.join (replies.map Reply.errors) ++ (lost.map historyLost).getD "" }

end Session

end EagerLisp
