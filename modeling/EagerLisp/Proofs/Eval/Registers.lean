import EagerLisp.Proofs.Eval.Simulation

namespace EagerLisp

/-- How many evaluations are under way, and the source text that the expression at hand belongs
to. -/
structure Registers where
  depth : Nat
  source : Nat

/-- A store with registers beside the host's own state. -/
def Registers.load {σ : Type} (registers : Registers) (store : Store σ) : Store (Registers × σ) :=
  { environment := store.environment
    host := (registers, store.host)
    closures := store.closures
    events := store.events }

namespace Eval.InPlace

open EagerLisp.Action

variable {σ α β : Type}

/-- The procedures of a host do not see the registers. -/
def beside (host : Host σ) : Host (Registers × σ) where
  call index arguments span state :=
    match host.call index arguments span state.2 with
    | (outcome, after) => (outcome, (state.1, after))

/-- The same context for a host beside registers. -/
def contextBeside (context : Context σ) : Context (Registers × σ) :=
  ⟨beside context.host, context.natives, context.limit⟩

def registers : Action (Registers × σ) Registers :=
  fun store => (.ok store.host.1, store)

def update (change : Registers → Registers) : Action (Registers × σ) Unit :=
  fun store => (.ok (), { store with host := (change store.host.1, store.host.2) })

/-- Runs an action and answers with its outcome, which may be a failure. -/
def attempt (action : Action σ α) : Action σ (Except EvalError α) :=
  fun store =>
    match action store with
    | (outcome, after) => (.ok outcome, after)

/-- Runs an action one level deeper. -/
def deeper (action : Action (Registers × σ) α) : Action (Registers × σ) α := do
  update fun registers => { registers with depth := registers.depth + 1 }
  let outcome ← attempt action
  update fun registers => { registers with depth := registers.depth - 1 }
  ofExcept outcome

/-- Calls a procedure; the body of a closure runs with the source text of the closure. -/
def apply (host : Host σ) (evaluate : Node → Action (Registers × σ) Value)
    (procedure : Procedure) (arguments : List Value) (span : Span) :
    Action (Registers × σ) Value :=
  match procedure with
  | .native native => callNative (beside host) native arguments span
  | .closure closure => do
    let caller := (← registers).source
    update fun registers => { registers with source := closure.source }
    let outcome ← attempt (callClosure (fun _ => evaluate) closure arguments)
    update fun registers => { registers with source := caller }
    if caller = closure.source then ofExcept outcome
    else relocating span (ofExcept outcome)

def call (context : Context σ) (evaluate : Node → Action (Registers × σ) Value) (head : Node)
    (operands : List Node) (span : Span) : Action (Registers × σ) Value := do
  let procedure ← callee context.natives evaluate head
  let arguments ← evaluateEach evaluate [] operands
  apply context.host evaluate procedure arguments span

def step (context : Context σ) (evaluate : Node → Action (Registers × σ) Value) :
    Node → Action (Registers × σ) Value
  | .list (head :: operands) span =>
    match head.symbol?.bind SpecialForm.ofName? with
    | some form => do
      let source := (← registers).source
      special form evaluate source operands span
    | none => call context evaluate head operands span
  | node => Eval.step (contextBeside context) (fun _ => evaluate) 0 node

/-- Evaluates an expression if the depth is below the limit. `room` only bounds the recursion: it
has to reach from the depth to the limit. -/
def evaluateWithin (context : Context σ) : Nat → Node → Action (Registers × σ) Value
  | 0, node => fail (.tooDeep context.limit) node.span
  | room + 1, node => do
    let depth := (← registers).depth
    if context.limit ≤ depth then fail (.tooDeep context.limit) node.span
    else deeper (step context (evaluateWithin context room) node)

/-- Evaluates an expression with the registers as they stand. -/
def evaluate (context : Context σ) (node : Node) : Action (Registers × σ) Value :=
  evaluateWithin context context.limit node

/-- On the registers given, the first action does what the second does and leaves them alone. -/
def Mirrors (registers : Registers) (inPlace : Action (Registers × σ) α) (action : Action σ α) :
    Prop :=
  ∀ store, inPlace (registers.load store) = ((action store).1, registers.load (action store).2)

variable {registers : Registers} {inPlace : Action (Registers × σ) α} {action : Action σ α}

theorem Mirrors.bind {next : α → Action (Registers × σ) β} {other : α → Action σ β}
    (first : Mirrors registers inPlace action)
    (second : ∀ value, Mirrors registers (next value) (other value)) :
    Mirrors registers (inPlace >>= next) (action >>= other) := by
  intro store
  have reached := first store
  cases same : action store with
  | mk outcome after =>
    rw [same] at reached
    cases outcome with
    | ok value =>
      rw [bind_of_ok same, bind_of_ok reached]
      exact second value after
    | error error => rw [bind_of_error same, bind_of_error reached]

private theorem Mirrors.restoring (inner : Mirrors registers inPlace action) :
    Mirrors registers (Action.restoring inPlace) (Action.restoring action) := by
  intro store
  simp only [Action.restoring, inner store]
  rfl

private theorem Mirrors.relocating (inner : Mirrors registers inPlace action) (span : Span) :
    Mirrors registers (Action.relocating span inPlace) (Action.relocating span action) := by
  intro store
  simp only [Action.relocating, inner store]
  cases action store with
  | mk outcome after => cases outcome <;> rfl

/-- Actions that do not touch the registers are mirrored by themselves, and so is everything made
of them. -/
theorem mirrors_simulation (registers : Registers) :
    Simulation fun {α} => (Mirrors registers : Action (Registers × σ) α → Action σ α → Prop) where
  pure _ _ := rfl
  bind := .bind
  fail _ _ _ := rfl
  ofExcept _ _ := rfl
  record _ _ := rfl
  lookup _ _ := rfl
  define _ _ _ := rfl
  overlay _ _ := rfl
  makeClosure _ _ _ _ _ := rfl
  restoring := .restoring
  relocating span inner := inner.relocating span

private theorem Mirrors.callNative (host : Host σ) (native : Native) (arguments : List Value)
    (span : Span) :
    Mirrors registers (Eval.callNative (beside host) native arguments span)
      (Eval.callNative host native arguments span) := by
  refine .bind ((mirrors_simulation registers).record _) fun _ => ?_
  cases native.action with
  | builtin builtin => exact (mirrors_simulation registers).ofExcept _
  | host index => exact fun store => rfl

variable {inner : Node → Action (Registers × σ) Value}

/-- The source text that a call switches to is switched back behind it, also after a failure. -/
theorem Mirrors.apply {evaluate : Nat → Node → Action σ Value} {depth source : Nat}
    (each : ∀ source node, Mirrors ⟨depth, source⟩ (inner node) (evaluate source node))
    (host : Host σ) (procedure : Procedure) (arguments : List Value) (span : Span) :
    Mirrors ⟨depth, source⟩ (InPlace.apply host inner procedure arguments span)
      (Eval.apply host evaluate source procedure arguments span) := by
  cases procedure with
  | native native => exact .callNative host native arguments span
  | closure closure =>
    intro store
    have called : Mirrors ⟨depth, closure.source⟩
        (Eval.callClosure (fun _ => inner) closure arguments)
        (Eval.callClosure evaluate closure arguments) :=
      (mirrors_simulation _).callClosure closure (each closure.source) arguments
    have body := called store
    simp only [Registers.load] at body
    simp only [InPlace.apply, Eval.apply, Bind.bind, Action.bind, registers, update, attempt,
      Registers.load, body]
    by_cases same : source = closure.source
    · simp only [same, ↓reduceIte, Action.ofExcept]
    · simp only [same, ↓reduceIte, Action.ofExcept, Action.relocating]
      cases Eval.callClosure evaluate closure arguments store with
      | mk outcome after => cases outcome <;> rfl

/-- The depth is counted down again behind the action, also after a failure. -/
theorem Mirrors.deeper {depth source : Nat}
    (inner : Mirrors ⟨depth + 1, source⟩ inPlace action) :
    Mirrors ⟨depth, source⟩ (InPlace.deeper inPlace) action := by
  intro store
  have below := inner store
  simp only [Registers.load] at below
  simp only [InPlace.deeper, Bind.bind, Action.bind, update, attempt, Registers.load, below,
    Action.ofExcept, Nat.add_sub_cancel]

private theorem Mirrors.step {evaluate : Nat → Node → Action σ Value} {depth source : Nat}
    (each : ∀ source node, Mirrors ⟨depth, source⟩ (inner node) (evaluate source node))
    (context : Context σ) (node : Node) :
    Mirrors ⟨depth, source⟩ (InPlace.step context inner node)
      (Eval.step context evaluate source node) := by
  have simulation : Simulation fun {α} =>
      (Mirrors ⟨depth, source⟩ : Action (Registers × σ) α → Action σ α → Prop) :=
    mirrors_simulation ⟨depth, source⟩
  have leaf : ∀ node : Node, (∀ head operands span, node ≠ .list (head :: operands) span) →
      Mirrors ⟨depth, source⟩ (Eval.step (contextBeside context) (fun _ => inner) 0 node)
        (Eval.step context evaluate source node) :=
    fun node isLeaf => simulation.step_leaf (contextBeside context) context 0 source isLeaf
  cases node with
  | leaf atom span => exact leaf (.leaf atom span) (by simp)
  | list elements span =>
    cases elements with
    | nil => exact leaf (.list [] span) (by simp)
    | cons head operands =>
      simp only [InPlace.step, Eval.step]
      cases head.symbol?.bind SpecialForm.ofName? with
      | some form =>
        exact fun store => simulation.special (each source) form source operands span store
      | none =>
        refine .bind (simulation.callee (each source) _ head) fun procedure => ?_
        refine .bind (simulation.evaluateEach (each source) [] operands) fun arguments => ?_
        exact .apply each context.host procedure arguments span

private theorem Mirrors.evaluateWithin (context : Context σ) (room : Nat) :
    ∀ (depth source : Nat) (node : Node), context.limit ≤ depth + room →
      Mirrors ⟨depth, source⟩ (InPlace.evaluateWithin context room node)
        (Eval.evaluateWithin context (context.limit - depth) source node) := by
  induction room with
  | zero =>
    intro depth source node enough
    have spent : context.limit - depth = 0 := by omega
    rw [spent]
    exact (mirrors_simulation _).fail _ _
  | succ room ih =>
    intro depth source node enough store
    by_cases full : context.limit ≤ depth
    · have spent : context.limit - depth = 0 := by omega
      rw [spent]
      simp only [InPlace.evaluateWithin, Bind.bind, Action.bind, registers, Registers.load, full,
        ↓reduceIte]
      rfl
    · have left : context.limit - depth = context.limit - (depth + 1) + 1 := by omega
      have inside : Mirrors ⟨depth + 1, source⟩
          (InPlace.step context (InPlace.evaluateWithin context room) node)
          (Eval.step context
            (Eval.evaluateWithin context (context.limit - (depth + 1))) source node) :=
        .step (fun other inner => ih (depth + 1) other inner (by omega)) context node
      have whole := Mirrors.deeper inside store
      rw [left]
      simp only [InPlace.evaluateWithin, Bind.bind, Action.bind, registers, Registers.load, full,
        ↓reduceIte]
      exact whole

/-- Evaluation in place does what evaluation with the depth and the source handed down does, from
any depth on, and puts both registers back. -/
theorem evaluate_mirrors (context : Context σ) (registers : Registers) (node : Node) :
    Mirrors registers (evaluate context node)
      (Eval.evaluateWithin context (context.limit - registers.depth) registers.source node) :=
  Mirrors.evaluateWithin context context.limit registers.depth registers.source node (by omega)

theorem apply_mirrors (context : Context σ) (registers : Registers) (procedure : Procedure)
    (arguments : List Value) (span : Span) :
    Mirrors registers (apply context.host (evaluate context) procedure arguments span)
      (Eval.apply context.host
        (Eval.evaluateWithin context (context.limit - registers.depth)) registers.source
        procedure arguments span) :=
  .apply (fun source node => evaluate_mirrors context ⟨registers.depth, source⟩ node) context.host
    procedure arguments span

end Eval.InPlace
end EagerLisp
