import EagerLisp.Error
import EagerLisp.Eval
import EagerLisp.Node.Reader

/-! Interpreters: an environment and a native table that live on from one source text to the
next. An expression of a text is read only after the one before it has run, so an error leaves
the effects of everything before it in place. -/
namespace EagerLisp

def defaultLimit : Nat := 128

/-- An interpreter over a host with state `σ`, with the number of source texts seen so far. -/
structure Interpreter (σ : Type) where
  store : Store σ
  natives : NativeTable
  limit : Nat
  sources : Nat

namespace Interpreter

variable {σ : Type}

def new (state : σ) (limit : Nat) : Interpreter σ :=
  { store := { environment := .empty, host := state, closures := 0, events := [] }
    natives := NativeTable.builtins
    limit
    sources := 0 }

def context (interpreter : Interpreter σ) (host : Host σ) : Context σ :=
  ⟨host, interpreter.natives, interpreter.limit⟩

/-- Evaluates one expression of a text, noting its start and its failure. -/
def runNode (context : Context σ) (source : Nat) (node : Node) : Action σ Value :=
  fun store =>
    match Eval.evaluate context source node { store with events := .started node :: store.events }
    with
    | (.ok value, after) => (.ok value, after)
    | (.error error, after) =>
      (.error error, { after with events := .failed error :: after.events })

def runTokens (context : Context σ) (source : Nat) (last : Value) (store : Store σ) :
    List Token → Except Error Value × Store σ
  | [] => (.ok last, store)
  | token :: rest =>
    match _same : Reader.read (token :: rest) with
    | (.error error, _) => (.error (.reading error), store)
    | (.ok node, unread) =>
      match runNode context source node store with
      | (.error error, after) => (.error (.running error), after)
      | (.ok value, after) => runTokens context source value after unread
termination_by tokens => tokens.length
decreasing_by exact Reader.read_length_lt _same

/-- Evaluates a source text; the answer is the value of its last expression, nil if it has none. -/
def evaluate (interpreter : Interpreter σ) (host : Host σ) (source : String) :
    Except Error Value × Interpreter σ :=
  let number := interpreter.sources + 1
  match runTokens (interpreter.context host) number .nil interpreter.store
      (Token.ofString source) with
  | (outcome, store) => (outcome, { interpreter with store, sources := number })

/-- Evaluates an expression that has been read already, as a source text of its own. -/
def evaluateNode (interpreter : Interpreter σ) (host : Host σ) (node : Node) :
    Except EvalError Value × Interpreter σ :=
  let number := interpreter.sources + 1
  match runNode (interpreter.context host) number node interpreter.store with
  | (outcome, store) => (outcome, { interpreter with store, sources := number })

def record (interpreter : Interpreter σ) (event : Event) : Interpreter σ :=
  { interpreter with
    store := { interpreter.store with events := event :: interpreter.store.events } }

/-- Adds the host's procedure of this number under a name, in place of any native of that name. -/
def register (interpreter : Interpreter σ) (name : String) (index : Nat) : Interpreter σ :=
  let known := interpreter.natives.contains name
  let natives := interpreter.natives.insert name ⟨name, .host index⟩
  { interpreter with natives }.record (if known then .replaced name else .registered name)

def setVariable (interpreter : Interpreter σ) (name : String) (value : Value) : Interpreter σ :=
  let noted := interpreter.record (.hostAssigned name value)
  { noted with
    store := { noted.store with environment := noted.store.environment.insert name value } }

def valueOf? (interpreter : Interpreter σ) (name : String) : Option Value :=
  interpreter.store.environment.find? name

def hasNative (interpreter : Interpreter σ) (name : String) : Bool :=
  interpreter.natives.contains name

def identifiers (interpreter : Interpreter σ) : List String :=
  sortedNames (interpreter.store.environment.names ++ interpreter.natives.names
    ++ SpecialForm.names)

end Interpreter

end EagerLisp
