import EagerLisp.Error
import EagerLisp.Table
import EagerLisp.Value

namespace EagerLisp

/-- The variables and their values. -/
abbrev Environment := Table Value

def Environment.same (first second : Environment) : Bool :=
  Table.agree Value.same first second

/-- The natives by name. Only the head of a call is looked up here, and before the variables. -/
abbrev NativeTable := Table Native

def Builtin.native (builtin : Builtin) : Native :=
  ⟨builtin.name, .builtin builtin⟩

def NativeTable.builtins : NativeTable :=
  Table.ofList (Builtin.all.map fun builtin => (builtin.name, builtin.native))

/-- Something that happened; that a native was called is noted in no log. -/
inductive Event where
  | nativeCalled (native : Native) (arguments : List Value) (span : Span)
  | closureCalled (closure : Closure) (arguments : List Value)
  | assigned (name : String) (value : Value)
  | bound (name : String) (value : Value)
  | defined (name : String) (parameters : List String)
  | started (node : Node)
  | failed (error : EvalError)
  | registered (name : String)
  | replaced (name : String)
  | hostAssigned (name : String) (value : Value)

inductive NoteLevel where
  | trace
  | debug
  | warning
deriving DecidableEq

structure Note where
  level : NoteLevel
  text : String
deriving DecidableEq

/-- The note that a log takes of an event, if any. -/
def Event.note? : Event → Option Note
  | .nativeCalled _ _ _ => none
  | .closureCalled closure arguments =>
    some ⟨.trace, "calling " ++ closure.name?.getD "lambda" ++ " with "
      ++ toString arguments.length ++ " argument(s)"⟩
  | .assigned name value => some ⟨.trace, "setq " ++ name ++ " = " ++ value.text⟩
  | .bound name value => some ⟨.trace, "let " ++ name ++ " = " ++ value.text⟩
  | .defined name parameters =>
    some ⟨.debug, "defun " ++ name ++ " (" ++ " ".intercalate parameters ++ ")"⟩
  | .started node => some ⟨.debug, "evaluating " ++ node.text⟩
  | .failed error => some ⟨.debug, "evaluation failed: " ++ error.message⟩
  | .registered name => some ⟨.debug, "native function `" ++ name ++ "` registered"⟩
  | .replaced name => some ⟨.warning, "native function `" ++ name ++ "` replaced"⟩
  | .hostAssigned name value => some ⟨.trace, "host set " ++ name ++ " = " ++ value.text⟩

/-- What evaluation changes: the variables, the host's own state, how many closures were made,
and what has happened, newest first. -/
structure Store (σ : Type) where
  environment : Environment
  host : σ
  closures : Nat
  events : List Event

/-- A step of an evaluation that answers with `α`, over a host with state `σ`. A failure leaves the
store as it was when it came up. -/
def Action (σ α : Type) : Type :=
  Store σ → Except EvalError α × Store σ

namespace Action

variable {σ α β : Type}

@[inline] protected def pure (value : α) : Action σ α :=
  fun store => (.ok value, store)

@[inline] protected def bind (action : Action σ α) (next : α → Action σ β) : Action σ β :=
  fun store =>
    match action store with
    | (.ok value, store) => next value store
    | (.error error, store) => (.error error, store)

@[always_inline]
instance : Monad (Action σ) where
  pure := Action.pure
  bind := Action.bind

theorem bind_of_ok {action : Action σ α} {next : α → Action σ β} {store after : Store σ}
    {value : α} (same : action store = (.ok value, after)) :
    (action >>= next) store = next value after := by
  simp only [bind, Action.bind, same]

theorem bind_of_error {action : Action σ α} {next : α → Action σ β} {store after : Store σ}
    {error : EvalError} (same : action store = (.error error, after)) :
    (action >>= next) store = (.error error, after) := by
  simp only [bind, Action.bind, same]

theorem exists_of_bind {action : Action σ α} {next : α → Action σ β} {store after : Store σ}
    {value : β} (run : (action >>= next) store = (.ok value, after)) :
    ∃ first middle, action store = (.ok first, middle) ∧
      next first middle = (.ok value, after) := by
  rcases same : action store with ⟨outcome, middle⟩
  cases outcome with
  | ok first => exact ⟨first, middle, rfl, (bind_of_ok same).symm.trans run⟩
  | error error =>
    rw [bind_of_error same] at run
    cases run

def fail (cause : EvalCause) (span : Span) : Action σ α :=
  fun store => (.error ⟨cause, span⟩, store)

def ofExcept (outcome : Except EvalError α) : Action σ α :=
  fun store => (outcome, store)

def record (event : Event) : Action σ Unit :=
  fun store => (.ok (), { store with events := event :: store.events })

def lookup (name : String) : Action σ (Option Value) :=
  fun store => (.ok (store.environment.find? name), store)

def define (name : String) (value : Value) : Action σ Unit :=
  fun store => (.ok (), { store with environment := store.environment.insert name value })

def overlay (change : Environment → Environment) : Action σ Unit :=
  fun store => (.ok (), { store with environment := change store.environment })

/-- Makes a closure that differs from every closure made before. -/
def makeClosure (name? : Option String) (parameters : List String) (body : List Node)
    (source : Nat) : Action σ Value :=
  fun store =>
    let closure := ⟨.made store.closures, name?, parameters, body, source⟩
    (.ok (.procedure (.closure closure)), { store with closures := store.closures + 1 })

/-- Runs an action and puts the variables back afterwards, whatever its outcome. -/
def restoring (action : Action σ α) : Action σ α :=
  fun store =>
    match action store with
    | (outcome, after) => (outcome, { after with environment := store.environment })

def relocating (span : Span) (action : Action σ α) : Action σ α :=
  fun store =>
    match action store with
    | (.ok value, after) => (.ok value, after)
    | (.error error, after) => (.error (error.relocate span), after)

end Action

end EagerLisp
