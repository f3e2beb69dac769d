import EagerLisp.Builtin
import EagerLisp.Eval.Action

/-! Evaluation. Every operand of a call is evaluated, from left to right, before the call begins;
only the special forms leave operands alone. The depth of nested evaluations is limited, so
evaluation is a recursion on the depth that remains, around a step that is told how to evaluate
what is inside. -/
namespace EagerLisp

/-- The procedures of a host, by number: each answers its arguments and the place of the call,
and may change the host's state. -/
structure Host (σ : Type) where
  call : Nat → List Value → Span → σ → Except EvalError Value × σ

def Host.none : Host Unit :=
  ⟨fun _ _ _ state => (.ok .nil, state)⟩

namespace Eval

variable {σ : Type}

def callNative (host : Host σ) (native : Native) (arguments : List Value) (span : Span) :
    Action σ Value := do
  Action.record (.nativeCalled native arguments span)
  match native.action with
  | .builtin builtin => Action.ofExcept (builtin.call arguments span)
  | .host index => fun store =>
    match host.call index arguments span store.host with
    | (outcome, state) => (outcome, { store with host := state })

/-- Evaluates expressions from left to right; `done` holds the earlier values, newest first. -/
def evaluateEach (evaluate : Node → Action σ Value) (done : List Value) :
    List Node → Action σ (List Value)
  | [] => pure done.reverse
  | node :: rest => do
    let value ← evaluate node
    evaluateEach evaluate (value :: done) rest

/-- Evaluates expressions from left to right and answers the last value; `last` is the value of
the expression before. -/
def evaluateBody (evaluate : Node → Action σ Value) (last : Value) :
    List Node → Action σ Value
  | [] => pure last
  | node :: rest => do
    let value ← evaluate node
    evaluateBody evaluate value rest

/-- Binds parameters to arguments; missing arguments are nil, surplus ones are dropped. -/
def bindParameters : List String → List Value → Environment → Environment
  | [], _, environment => environment
  | parameter :: parameters, arguments, environment =>
    bindParameters parameters arguments.tail
      (environment.insert parameter (arguments.head?.getD .nil))

def callClosure (evaluate : Nat → Node → Action σ Value) (closure : Closure)
    (arguments : List Value) : Action σ Value := do
  Action.record (.closureCalled closure arguments)
  Action.restoring do
    Action.overlay (bindParameters closure.parameters arguments)
    evaluateBody (evaluate closure.source) .nil closure.body

/-- Calls a procedure from a source text. The failure of a closure that belongs to another text
is placed at the call, since places inside that text mean nothing here. -/
def apply (host : Host σ) (evaluate : Nat → Node → Action σ Value) (source : Nat)
    (procedure : Procedure) (arguments : List Value) (span : Span) : Action σ Value :=
  match procedure with
  | .native native => callNative host native arguments span
  | .closure closure =>
    if source = closure.source then callClosure evaluate closure arguments
    else Action.relocating span (callClosure evaluate closure arguments)

def faulty (fault : FormFault) (span : Span) : EvalError :=
  ⟨.invalidForm fault, span⟩

def symbolIn (form : SpecialForm) (node : Node) : Except EvalError String :=
  match node.symbol? with
  | some name => .ok name
  | none => .error (faulty (.notSymbol form node.kind) node.span)

def parametersIn (form : SpecialForm) (node : Node) : Except EvalError (List String) :=
  match node with
  | .list elements _ => elements.mapM (symbolIn form)
  | .leaf atom span => .error (faulty (.notParameters form atom.kind) span)

/-- Binds one variable of a `let`. Whatever follows the value in a binding is ignored. -/
def bindOne (evaluate : Node → Action σ Value) (binding : Node) : Action σ Unit :=
  match binding with
  | .list (target :: valueNode :: _) _ => do
    let name ← Action.ofExcept (symbolIn .bind target)
    let value ← evaluate valueNode
    Action.record (.bound name value)
    Action.define name value
  | _ => Action.fail (.invalidForm (.notBinding binding.text)) binding.span

/-- Binds the variables of a `let` in order; later values see earlier variables. -/
def bindEach (evaluate : Node → Action σ Value) : List Node → Action σ Unit
  | [] => pure ()
  | binding :: rest => do
    bindOne evaluate binding
    bindEach evaluate rest

def quote (operands : List Node) (span : Span) : Action σ Value :=
  match operands with
  | [node] => pure (.ofNode node)
  | _ => Action.fail (.invalidForm (.operands .quote)) span

def assign (evaluate : Node → Action σ Value) (operands : List Node) (span : Span) :
    Action σ Value :=
  match operands with
  | [target, valueNode] => do
    let name ← Action.ofExcept (symbolIn .assign target)
    let value ← evaluate valueNode
    Action.record (.assigned name value)
    Action.define name value
    pure value
  | _ => Action.fail (.invalidForm (.operands .assign)) span

def define (source : Nat) (operands : List Node) (span : Span) : Action σ Value :=
  match operands with
  | target :: parameterList :: body => do
    let name ← Action.ofExcept (symbolIn .define target)
    let parameters ← Action.ofExcept (parametersIn .define parameterList)
    Action.record (.defined name parameters)
    let value ← Action.makeClosure (some name) parameters body source
    Action.define name value
    pure value
  | _ => Action.fail (.invalidForm (.operands .define)) span

def close (source : Nat) (operands : List Node) (span : Span) : Action σ Value :=
  match operands with
  | parameterList :: body => do
    let parameters ← Action.ofExcept (parametersIn .closure parameterList)
    Action.makeClosure none parameters body source
  | [] => Action.fail (.invalidForm (.operands .closure)) span

def bindLocally (evaluate : Node → Action σ Value) (operands : List Node) (span : Span) :
    Action σ Value :=
  match operands with
  | .list bindings _ :: body => Action.restoring do
    bindEach evaluate bindings
    evaluateBody evaluate .nil body
  | .leaf atom place :: _ => Action.fail (.invalidForm (.notBindings atom.kind)) place
  | [] => Action.fail (.invalidForm (.operands .bind)) span

def special (form : SpecialForm) (evaluate : Node → Action σ Value) (source : Nat)
    (operands : List Node) (span : Span) : Action σ Value :=
  match form with
  | .quote => quote operands span
  | .assign => assign evaluate operands span
  | .define => define source operands span
  | .closure => close source operands span
  | .bind => bindLocally evaluate operands span

end Eval

/-- What an evaluation uses and does not change. -/
structure Context (σ : Type) where
  host : Host σ
  natives : NativeTable
  limit : Nat

namespace Eval

variable {σ : Type}

/-- The procedure that stands at the head of a call: the native of that name, or what the head
evaluates to. -/
def callee (natives : NativeTable) (evaluate : Node → Action σ Value) (head : Node) :
    Action σ Procedure :=
  match head.symbol?.bind natives.find? with
  | some native => pure (.native native)
  | none => do
    match ← evaluate head with
    | .procedure procedure => pure procedure
    | _ => Action.fail (.notCallable head.text) head.span

def call (context : Context σ) (evaluate : Nat → Node → Action σ Value) (source : Nat)
    (head : Node) (operands : List Node) (span : Span) : Action σ Value := do
  let procedure ← callee context.natives (evaluate source) head
  let arguments ← evaluateEach (evaluate source) [] operands
  apply context.host evaluate source procedure arguments span

/-- One level of evaluation. A string reads the variable of that name if there is one. -/
def step (context : Context σ) (evaluate : Nat → Node → Action σ Value) (source : Nat) :
    Node → Action σ Value
  | .leaf (.number value) _ => pure (.number value)
  | .leaf (.boolean value) _ => pure (.boolean value)
  | .leaf (.string text) _ => do
    let value? ← Action.lookup text
    pure (value?.getD (.string text))
  | .leaf (.symbol name) span => do
    match ← Action.lookup name with
    | some value => pure value
    | none => Action.fail (.undefinedSymbol name) span
  | .list [] _ => pure (.list [])
  | .list (head :: operands) span =>
    match head.symbol?.bind SpecialForm.ofName? with
    | some form => special form (evaluate source) source operands span
    | none => call context evaluate source head operands span

/-- Evaluates an expression of a source text where `remaining` more levels are allowed. -/
def evaluateWithin (context : Context σ) : Nat → Nat → Node → Action σ Value
  | 0, _, node => Action.fail (.tooDeep context.limit) node.span
  | remaining + 1, source, node => step context (evaluateWithin context remaining) source node

theorem evaluateWithin_symbol (context : Context σ) (remaining source : Nat) (name : String)
    (span : Span) (store : Store σ) :
    evaluateWithin context (remaining + 1) source (.leaf (.symbol name) span) store =
      match store.environment.find? name with
      | some value => (.ok value, store)
      | none => (.error ⟨.undefinedSymbol name, span⟩, store) := by
  have found : (Action.lookup name : Action σ (Option Value)) store =
      (.ok (store.environment.find? name), store) := rfl
  rw [evaluateWithin, step, Action.bind_of_ok found]
  cases store.environment.find? name <;> rfl

def evaluate (context : Context σ) (source : Nat) (node : Node) : Action σ Value :=
  evaluateWithin context context.limit source node

def applyProcedure (context : Context σ) (source : Nat) (procedure : Procedure)
    (arguments : List Value) (span : Span) : Action σ Value :=
  apply context.host (evaluateWithin context context.limit) source procedure arguments span

end Eval

end EagerLisp
