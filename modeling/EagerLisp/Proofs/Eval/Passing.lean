import EagerLisp.Proofs.Eval.Keeping

namespace EagerLisp

variable {σ : Type}

/-- The store in which the body of a closure begins: the call is noted, the parameters are bound. -/
def Store.entering (store : Store σ) (closure : Closure) (arguments : List Value) : Store σ :=
  { store with
    environment := Eval.bindParameters closure.parameters arguments store.environment
    events := .closureCalled closure arguments :: store.events }

namespace Eval

open EagerLisp.Action

/-- A procedure that calls can have: a native of the table, or one that was a good value. -/
def Callable (natives : NativeTable) (good : Value → Prop) (procedure : Procedure) : Prop :=
  good (.procedure procedure) ∨
    ∃ name native, natives.find? name = some native ∧ procedure = .native native

/-- Whatever evaluation does to a store keeps the property as long as the values are good, and it
comes by good values only. -/
structure Invariant (context : Context σ) (kept : Store σ → Prop) (good : Value → Prop) :
    Prop where
  data : ∀ node, good (.ofNode node)
  empty : good .nil
  closure : ∀ closure, good (.procedure (.closure closure))
  held : ∀ store name value, kept store → store.environment.find? name = some value → good value
  noted : RecordKeeps kept good
  changed : ∀ name value store, good value → kept store →
    kept { store with environment := store.environment.insert name value }
  counted : ∀ store, kept store → kept { store with closures := store.closures + 1 }
  back : ∀ store after, kept store → kept after →
    kept { after with environment := store.environment }
  builtin : ∀ (builtin : Builtin) arguments span, (∀ argument ∈ arguments, good argument) →
    Meets good (fun _ => True) (builtin.call arguments span)
  foreign : ∀ native index arguments span store,
    Callable context.natives good (.native native) → native.action = .host index →
      (∀ argument ∈ arguments, good argument) → kept store →
        kept { store with host := (context.host.call index arguments span store.host).2 } ∧
          Meets good (fun _ => True) (context.host.call index arguments span store.host).1

namespace Invariant

variable {context : Context σ} {kept : Store σ → Prop} {good : Value → Prop}
  {evaluate : Nat → Node → Action σ Value}

theorem parameters (invariant : Invariant context kept good) {parameters : List String}
    {arguments : List Value} (given : ∀ argument ∈ arguments, good argument) {store : Store σ}
    (initial : kept store) :
    kept { store with environment := bindParameters parameters arguments store.environment } := by
  induction parameters generalizing arguments store with
  | nil => exact initial
  | cons parameter rest ih =>
    have value : good (arguments.head?.getD .nil) := by
      cases arguments with
      | nil => exact invariant.empty
      | cons first others => exact given first (by simp)
    exact ih (fun argument later => given argument (List.mem_of_mem_tail later))
      (invariant.changed parameter _ store value initial)

theorem entering (invariant : Invariant context kept good) {closure : Closure}
    {arguments : List Value} (given : ∀ argument ∈ arguments, good argument) {store : Store σ}
    (initial : kept store) : kept (store.entering closure arguments) :=
  invariant.parameters given
    (invariant.noted (.closureCalled closure arguments) store given initial)

theorem callee_callable {evaluate : Node → Action σ Value} {head : Node}
    (inner : Keeps kept good (fun _ => True) (evaluate head)) :
    Keeps kept (Callable context.natives good) (fun _ => True)
      (callee context.natives evaluate head) :=
  callee_keeps (fun name native listed => .inr ⟨name, native, listed, rfl⟩) inner
    (fun _ value => .inl value) fun _ _ _ => trivial

private theorem apply_keeps (invariant : Invariant context kept good)
    (inner : ∀ source node, Keeps kept good (fun _ => True) (evaluate source node)) {source : Nat}
    {procedure : Procedure} {arguments : List Value} {span : Span}
    (callable : Callable context.natives good procedure)
    (given : ∀ argument ∈ arguments, good argument) :
    Keeps kept good (fun _ => True)
      (apply context.host evaluate source procedure arguments span) := by
  cases procedure with
  | native native =>
    refine callNative_keeps invariant.noted given ?_ ?_
    · exact fun builtin => invariant.builtin builtin arguments span given
    · exact fun index store same => invariant.foreign native index arguments span store callable
        same given
  | closure closure =>
    have called : Keeps kept good (fun _ => True) (callClosure evaluate closure arguments) :=
      callClosure_keeps (fun node _ => inner closure.source node) invariant.noted given
        (fun _ initial => invariant.parameters given initial) invariant.back invariant.empty
    rw [apply]
    split
    · exact called
    · exact .relocating called fun _ _ => trivial

/-- An invariant holds after every evaluation, and every answer is a good value. -/
theorem evaluateWithin_keeps (invariant : Invariant context kept good) (remaining : Nat) :
    ∀ (source : Nat) (node : Node),
      Keeps kept good (fun _ => True) (evaluateWithin context remaining source node) := by
  induction remaining with
  | zero => exact fun source node => .fail trivial
  | succ remaining ih =>
    intro source node
    have covers (node : Node) : Covers (fun _ => True) node := fun _ _ _ => trivial
    refine step_keeps invariant.data invariant.held (covers node) ?forms ?calls
    case forms =>
      intro head operands span form _ _
      cases form with
      | quote => exact quote_keeps invariant.data fun _ => trivial
      | assign =>
        exact assign_keeps (fun _ valueNode _ => ih source valueNode) invariant.noted
          (fun _ _ name value store _ _ => invariant.changed name value store)
          (fun node _ => covers node) fun _ => trivial
      | define =>
        exact define_keeps invariant.noted invariant.counted
          (fun _ _ _ _ _ _ _ => invariant.closure _)
          (fun _ _ _ name value store _ _ => invariant.changed name value store)
          (fun node _ => covers node) fun _ => trivial
      | closure =>
        exact close_keeps invariant.counted (fun _ _ _ _ _ _ => invariant.closure _)
          (fun node _ => covers node) fun _ => trivial
      | bind =>
        exact bindLocally_keeps (fun node _ => ih source node) invariant.noted invariant.changed
          invariant.back invariant.empty (fun node _ => covers node) fun _ => trivial
    case calls =>
      intro head operands span _ _
      refine .bind (callee_callable (ih source head)) fun procedure callable => ?_
      refine .bind (evaluateEach_keeps (fun node _ => ih source node) (by simp))
        fun arguments given => ?_
      exact invariant.apply_keeps ih callable given

end Invariant

/-- An evaluation that begins: how many levels remain, the text that the expression belongs to, the
expression and the store. -/
structure Task (σ : Type) where
  remaining : Nat
  source : Nat
  node : Node
  store : Store σ

/-- What comes of a task. -/
def Task.run (context : Context σ) (task : Task σ) : Except EvalError Value × Store σ :=
  evaluateWithin context task.remaining task.source task.node task.store

/-- One level of a task begins another one. Every operand begins in the store that the ones before
it leave, every expression of a body in the store that the ones before it leave there. -/
inductive Enters (context : Context σ) : Task σ → Task σ → Prop where
  | head {remaining source : Nat} {head : Node} {operands : List Node} {span : Span}
      {store : Store σ} (ordinary : head.symbol?.bind SpecialForm.ofName? = none)
      (unlisted : head.symbol?.bind context.natives.find? = none) :
      Enters context ⟨remaining + 1, source, .list (head :: operands) span, store⟩
        ⟨remaining, source, head, store⟩
  | operand {remaining source : Nat} {head node : Node} {front back : List Node} {span : Span}
      {store middle begun : Store σ} {procedure : Procedure} {values : List Value}
      (ordinary : head.symbol?.bind SpecialForm.ofName? = none)
      (called : callee context.natives (evaluateWithin context remaining source) head store =
        (.ok procedure, middle))
      (earlier : evaluateEach (evaluateWithin context remaining source) [] front middle =
        (.ok values, begun)) :
      Enters context ⟨remaining + 1, source, .list (head :: (front ++ node :: back)) span, store⟩
        ⟨remaining, source, node, begun⟩
  | body {remaining source : Nat} {head node : Node} {operands front back : List Node}
      {span : Span} {store middle ready begun : Store σ} {closure : Closure}
      {arguments : List Value} {value : Value}
      (ordinary : head.symbol?.bind SpecialForm.ofName? = none)
      (called : callee context.natives (evaluateWithin context remaining source) head store =
        (.ok (.closure closure), middle))
      (given : evaluateEach (evaluateWithin context remaining source) [] operands middle =
        (.ok arguments, ready))
      (split : closure.body = front ++ node :: back)
      (earlier : evaluateBody (evaluateWithin context remaining closure.source) .nil front
        (ready.entering closure arguments) = (.ok value, begun)) :
      Enters context ⟨remaining + 1, source, .list (head :: operands) span, store⟩
        ⟨remaining, closure.source, node, begun⟩
  | assigned {remaining source : Nat} {head target node : Node} {name : String} {span : Span}
      {store : Store σ} (form : head.symbol?.bind SpecialForm.ofName? = some .assign)
      (named : target.symbol? = some name) :
      Enters context ⟨remaining + 1, source, .list [head, target, node] span, store⟩
        ⟨remaining, source, node, store⟩
  | bound {remaining source : Nat} {head target node : Node} {name : String}
      {front back more body : List Node} {place around span : Span} {store begun : Store σ}
      (form : head.symbol?.bind SpecialForm.ofName? = some .bind)
      (named : target.symbol? = some name)
      (earlier : bindEach (evaluateWithin context remaining source) front store =
        (.ok (), begun)) :
      Enters context ⟨remaining + 1, source, .list (head ::
          .list (front ++ .list (target :: node :: more) place :: back) around :: body) span, store⟩
        ⟨remaining, source, node, begun⟩
  | inBody {remaining source : Nat} {head node : Node} {bindings front back : List Node}
      {around span : Span} {store middle begun : Store σ} {value : Value}
      (form : head.symbol?.bind SpecialForm.ofName? = some .bind)
      (bound : bindEach (evaluateWithin context remaining source) bindings store =
        (.ok (), middle))
      (earlier : evaluateBody (evaluateWithin context remaining source) .nil front middle =
        (.ok value, begun)) :
      Enters context ⟨remaining + 1, source,
          .list (head :: .list bindings around :: (front ++ node :: back)) span, store⟩
        ⟨remaining, source, node, begun⟩

/-- The store comes about while the task is carried out: as its first or its last one, with the
parameters of a closure or some variables of a local binding just bound, or in a task that it
begins. Nothing else changes the variables. -/
inductive Passes (context : Context σ) : Task σ → Store σ → Prop where
  | start (task : Task σ) : Passes context task task.store
  | finish (task : Task σ) : Passes context task (task.run context).2
  | parameters {remaining source : Nat} {head : Node} {operands : List Node} {span : Span}
      {store middle ready : Store σ} {closure : Closure} {arguments : List Value}
      (ordinary : head.symbol?.bind SpecialForm.ofName? = none)
      (called : callee context.natives (evaluateWithin context remaining source) head store =
        (.ok (.closure closure), middle))
      (given : evaluateEach (evaluateWithin context remaining source) [] operands middle =
        (.ok arguments, ready)) :
      Passes context ⟨remaining + 1, source, .list (head :: operands) span, store⟩
        (ready.entering closure arguments)
  | extended {remaining source : Nat} {head : Node} {front back body : List Node}
      {around span : Span} {store middle : Store σ}
      (form : head.symbol?.bind SpecialForm.ofName? = some .bind)
      (bound : bindEach (evaluateWithin context remaining source) front store = (.ok (), middle)) :
      Passes context ⟨remaining + 1, source,
        .list (head :: .list (front ++ back) around :: body) span, store⟩ middle
  | inside {task inner : Task σ} {state : Store σ} (enters : Enters context task inner)
      (passes : Passes context inner state) : Passes context task state

namespace Invariant

variable {context : Context σ} {kept : Store σ → Prop} {good : Value → Prop}
  {remaining source : Nat}

theorem callee_ok (invariant : Invariant context kept good) {head : Node} {store middle : Store σ}
    {procedure : Procedure} (initial : kept store)
    (called : callee context.natives (evaluateWithin context remaining source) head store =
      (.ok procedure, middle)) : kept middle := by
  have head := invariant.evaluateWithin_keeps remaining source head
  exact ((callee_callable head).of_ok initial called).1

theorem evaluateEach_ok (invariant : Invariant context kept good) {nodes : List Node}
    {store after : Store σ} {values : List Value} (initial : kept store)
    (run : evaluateEach (evaluateWithin context remaining source) [] nodes store =
      (.ok values, after)) : kept after ∧ ∀ value ∈ values, good value := by
  have each (node : Node) (_ : node ∈ nodes) :=
    invariant.evaluateWithin_keeps remaining source node
  exact (evaluateEach_keeps each (by simp)).of_ok initial run

private theorem evaluateBody_ok (invariant : Invariant context kept good) {nodes : List Node}
    {store after : Store σ} {value : Value} (initial : kept store)
    (run : evaluateBody (evaluateWithin context remaining source) .nil nodes store =
      (.ok value, after)) : kept after := by
  have each (node : Node) (_ : node ∈ nodes) :=
    invariant.evaluateWithin_keeps remaining source node
  exact ((evaluateBody_keeps each invariant.empty).of_ok initial run).1

theorem bindEach_ok (invariant : Invariant context kept good) {bindings : List Node}
    {store after : Store σ} (initial : kept store)
    (run : bindEach (evaluateWithin context remaining source) bindings store =
      (.ok (), after)) : kept after := by
  have each (node : Node) (_ : node.Among bindings) :=
    invariant.evaluateWithin_keeps remaining source node
  have keeps := bindEach_keeps each invariant.noted invariant.changed
    fun _ _ _ _ _ => (trivial : True)
  exact (keeps.of_ok initial run).1

private theorem enters (invariant : Invariant context kept good) {task inner : Task σ}
    (enters : Enters context task inner) (initial : kept task.store) : kept inner.store := by
  cases enters with
  | head => exact initial
  | operand _ called earlier =>
    exact (invariant.evaluateEach_ok (invariant.callee_ok initial called) earlier).1
  | body _ called given _ earlier =>
    obtain ⟨ready, good⟩ := invariant.evaluateEach_ok (invariant.callee_ok initial called) given
    exact invariant.evaluateBody_ok (invariant.entering good ready) earlier
  | assigned => exact initial
  | bound _ _ earlier => exact invariant.bindEach_ok initial earlier
  | inBody _ bound earlier =>
    exact invariant.evaluateBody_ok (invariant.bindEach_ok initial bound) earlier

/-- An invariant holds of every store that is passed. -/
theorem passes (invariant : Invariant context kept good) {task : Task σ} {state : Store σ}
    (passes : Passes context task state) (initial : kept task.store) : kept state := by
  induction passes with
  | start => exact initial
  | finish task =>
    exact (invariant.evaluateWithin_keeps task.remaining task.source task.node _ initial).1
  | parameters _ called given =>
    obtain ⟨ready, good⟩ := invariant.evaluateEach_ok (invariant.callee_ok initial called) given
    exact invariant.entering good ready
  | extended _ bound => exact invariant.bindEach_ok initial bound
  | inside enters _ ih => exact ih (invariant.enters enters initial)

end Invariant

end Eval
end EagerLisp
