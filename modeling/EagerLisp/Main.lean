import EagerLisp.CommandLine.Batch
import EagerLisp.Console.Session

namespace EagerLisp

/-- The number of a fault; some arrive as the negative of their number, in 32 bits. -/
def faultNumber (code : UInt32) : Nat :=
  if code < 0x80000000 then code.toNat else (0 - code).toNat

def fileFault : IO.Error → FileFault
  | .noFileOrDirectory _ code _ => .ofCode (faultNumber code)
  | .inappropriateType _ code _ => .ofCode (faultNumber code)
  | .invalidArgument _ code _ => .ofCode (faultNumber code)
  | .permissionDenied _ code _ => .ofCode (faultNumber code)
  | .otherError code _ => .ofCode (faultNumber code)
  | _ => .other 5

def fileText (name : String) : IO (Except FileFault String) := do
  try
    return .ok (← IO.FS.readFile name)
  catch error =>
    return .error (fileFault error)

def finish (outcome : Outcome) : IO UInt32 := do
  (← IO.getStdout).putStr outcome.output
  (← IO.getStderr).putStr outcome.errors
  return outcome.code.toUInt32

def refuse (refusal : CommandLine.Refusal) : IO UInt32 := do
  match refusal with
  | .help => IO.println "Usage: edlisp [--max-depth N] [-e EXPR]... [FILE]..."
  | .version => IO.println "edlisp 0.1.0"
  | _ => IO.eprintln "error: invalid arguments, try '--help'"
  return refusal.code.toUInt32

def batchMain (arguments : List String) : IO UInt32 := do
  match CommandLine.readBatch arguments with
  | .error refusal => refuse refusal
  | .ok options =>
    let texts ← options.files.mapM fun name => return (name, ← fileText name)
    let readFile (name : String) := (texts.lookup name).getD (.error .absent)
    finish (CommandLine.runBatch options readFile)

/-- Feeds the lines of the standard input to a session until it is over. -/
partial def converse (session : Session) : IO Session := do
  let line ← (← IO.getStdin).getLine
  let (session, reply) := if line.isEmpty then (session, Session.closing)
    else session.feed line.toList
  (← IO.getStdout).putStr reply.output
  (← IO.getStderr).putStr reply.errors
  (← IO.getStdout).flush
  if reply.finished then return session else converse session

def sessionMain (arguments : List String) : IO UInt32 := do
  match CommandLine.readSession arguments with
  | .error refusal => refuse refusal
  | .ok options =>
    let earlier ← fileText options.history
    (← IO.getStdout).putStr (Session.greeting earlier.isOk)
    let session ← converse (.new options.limit)
    if session.history.isEmpty then return 0
    try
      IO.FS.writeFile options.history
        (Session.historyText (earlier.toOption.getD "") session.history.reverse)
      return 0
    catch error =>
      (← IO.getStderr).putStr (Session.historyLost (fileFault error))
      return 1

end EagerLisp

def main (arguments : List String) : IO UInt32 :=
  match arguments with
  | "repl" :: rest => EagerLisp.sessionMain rest
  | all => EagerLisp.batchMain all
