import EagerLisp.Proofs.Eval.Nesting
import EagerLisp.Proofs.Eval.Passing
import EagerLisp.Proofs.Value.Path
import Mathlib.Logic.Relation

namespace EagerLisp

variable {σ : Type}

/-- Where a value can be, at some path: in what a variable holds or in what a task answers with. -/
inductive Spot (σ : Type) where
  | inVariable (store : Store σ) (name : String) (path : List Nat)
  | inAnswer (task : Eval.Task σ) (path : List Nat)

/-- The value at the spot. -/
def Spot.value? (context : Context σ) : Spot σ → Option Value
  | .inVariable store name path => (store.environment.find? name).bind (Value.at? path)
  | .inAnswer task path => (task.run context).1.toOption.bind (Value.at? path)

namespace Spot

variable {context : Context σ} {path : List Nat} {value : Value}

private theorem value?_inVariable {store : Store σ} {name : String} :
    (inVariable store name path).value? context = some value ↔
      ∃ whole, store.environment.find? name = some whole ∧ whole.at? path = some value :=
  Option.bind_eq_some_iff

private theorem value?_inAnswer {task : Eval.Task σ} :
    (inAnswer task path).value? context = some value ↔
      ∃ whole after, task.run context = (.ok whole, after) ∧ whole.at? path = some value := by
  rw [value?, Option.bind_eq_some_iff]
  constructor
  · rintro ⟨whole, answered, inside⟩
    rcases run : task.run context with ⟨outcome, after⟩
    rw [run] at answered
    cases outcome with
    | error error => cases answered
    | ok answer =>
      cases answered
      exact ⟨whole, after, rfl, inside⟩
  · rintro ⟨whole, after, run, inside⟩
    exact ⟨whole, by rw [run]; rfl, inside⟩

end Spot

namespace Eval

open EagerLisp.Action

variable {evaluate : Node → Action σ Value}

theorem evaluateBody_append (evaluate : Node → Action σ Value) (last : Value)
    (front back : List Node) :
    evaluateBody evaluate last (front ++ back) =
      evaluateBody evaluate last front >>= fun value => evaluateBody evaluate value back := by
  induction front generalizing last with
  | nil => rfl
  | cons node rest ih => simp only [List.cons_append, evaluateBody, ih, bind_assoc]

theorem evaluateEach_append (evaluate : Node → Action σ Value) (done : List Value)
    (front back : List Node) :
    evaluateEach evaluate done (front ++ back) =
      evaluateEach evaluate done front >>= fun values =>
        evaluateEach evaluate values.reverse back := by
  induction front generalizing done with
  | nil => simp only [List.nil_append, evaluateEach, pure_bind, List.reverse_reverse]
  | cons node rest ih => simp only [List.cons_append, evaluateEach, ih, bind_assoc]

private theorem evaluateEach_values {nodes : List Node} {done values : List Value}
    {store after : Store σ} (run : evaluateEach evaluate done nodes store = (.ok values, after)) :
    ∃ own, values = done.reverse ++ own ∧ own.length = nodes.length := by
  induction nodes generalizing done store with
  | nil =>
    cases run
    exact ⟨[], (List.append_nil _).symm, rfl⟩
  | cons node rest ih =>
    obtain ⟨value, middle, _, run⟩ := exists_of_bind run
    obtain ⟨own, rfl, length⟩ := ih run
    exact ⟨value :: own, by simp, by simp [length]⟩

theorem getElem?_evaluateEach {operands : List Node} {place : Nat} {node : Node}
    {store begun ready : Store σ} {values arguments : List Value}
    (found : operands[place]? = some node)
    (earlier : evaluateEach evaluate [] (operands.take place) store = (.ok values, begun))
    (all : evaluateEach evaluate [] operands store = (.ok arguments, ready)) :
    ∃ value reached, evaluate node begun = (.ok value, reached) ∧
      arguments[place]? = some value := by
  obtain ⟨before, rfl⟩ := List.getElem?_eq_some_iff.mp found
  obtain ⟨own, rfl, length⟩ := evaluateEach_values earlier
  rw [List.length_take, Nat.min_eq_left (Nat.le_of_lt before)] at length
  rw [← List.take_append_drop place operands, List.drop_eq_getElem_cons before,
    evaluateEach_append, bind_of_ok earlier] at all
  obtain ⟨value, reached, run, all⟩ := exists_of_bind all
  obtain ⟨more, rfl, _⟩ := evaluateEach_values all
  refine ⟨value, reached, run, ?_⟩
  simp [← length]

/-- A parameter holds the argument in its place, if no later one has the same name. -/
theorem find?_parameter {parameters : List String} {arguments : List Value}
    {environment : Environment} {place : Nat} {name : String} {value : Value}
    (parameter : parameters[place]? = some name) (last : name ∉ parameters.drop (place + 1))
    (given : arguments[place]? = some value) :
    (bindParameters parameters arguments environment).find? name = some value := by
  induction parameters generalizing arguments environment place with
  | nil => cases parameter
  | cons first rest ih =>
    cases place with
    | zero =>
      cases parameter
      have absent : name ∉ rest := last
      rw [bindParameters, find?_bindParameters_of_not_mem absent, List.head?_eq_getElem?, given]
      exact Table.find?_insert_self environment name value
    | succ place =>
      exact ih parameter last (by rw [List.getElem?_tail, given])

theorem ofExcept_symbolIn {form : SpecialForm} {target : Node} {name : String}
    (named : target.symbol? = some name) (store : Store σ) :
    (Action.ofExcept (symbolIn form target) : Action σ String) store = (.ok name, store) := by
  rw [symbolIn, named]
  rfl

private theorem assign_of_ok {target node : Node} {name : String} (span : Span)
    {store after : Store σ} {value : Value} (named : target.symbol? = some name)
    (run : evaluate node store = (.ok value, after)) :
    assign evaluate [target, node] span store = (.ok value, { after with
      environment := after.environment.insert name value
      events := .assigned name value :: after.events }) := by
  rw [assign, bind_of_ok (ofExcept_symbolIn named store), bind_of_ok run]
  rfl

private theorem exists_of_bindOne {target node : Node} {more : List Node} {place : Span}
    {name : String} {store after : Store σ} (named : target.symbol? = some name)
    (binds : bindOne evaluate (.list (target :: node :: more) place) store = (.ok (), after)) :
    ∃ value reached, evaluate node store = (.ok value, reached) ∧
      after.environment = reached.environment.insert name value := by
  rw [bindOne, bind_of_ok (ofExcept_symbolIn named store)] at binds
  obtain ⟨value, reached, run, binds⟩ := exists_of_bind binds
  cases binds
  exact ⟨value, reached, run, rfl⟩

private theorem find?_of_define {source : Nat} {target : Node} {operands : List Node}
    {name : String}
    {span : Span} {store after : Store σ} {value : Value} (named : target.symbol? = some name)
    (run : define source (target :: operands) span store = (.ok value, after)) :
    after.environment.find? name = some value := by
  cases operands with
  | nil => cases run
  | cons parameterList body =>
    rw [define, bind_of_ok (ofExcept_symbolIn named store)] at run
    obtain ⟨parameters, middle, _, run⟩ := exists_of_bind run
    cases run
    exact Table.find?_insert_self _ name _

/-- A value goes from one spot to another, all else that has to be evaluated on the way having been
answered: reading a variable, assigning, defining and binding one, running the body of a `let` or of
a closure up to its end, handing an argument to a closure or to a builtin that moves it, and, for a
value that stays where it is, evaluating, binding, noting and calling what leaves its variable
alone. -/
inductive Flows (context : Context σ) : Spot σ → Spot σ → Prop where
  | read {remaining source : Nat} {name : String} {span : Span} {store : Store σ}
      {path : List Nat} :
      Flows context (.inVariable store name path)
        (.inAnswer ⟨remaining + 1, source, .leaf (.symbol name) span, store⟩ path)
  | assigned {remaining source : Nat} {head target node : Node} {name : String} {span : Span}
      {store : Store σ} {path : List Nat}
      (form : head.symbol?.bind SpecialForm.ofName? = some .assign)
      (named : target.symbol? = some name) :
      Flows context (.inAnswer ⟨remaining, source, node, store⟩ path)
        (.inAnswer ⟨remaining + 1, source, .list [head, target, node] span, store⟩ path)
  | stored {remaining source : Nat} {head target node : Node} {name : String} {span : Span}
      {store : Store σ} {path : List Nat}
      (form : head.symbol?.bind SpecialForm.ofName? = some .assign)
      (named : target.symbol? = some name) :
      Flows context (.inAnswer ⟨remaining, source, node, store⟩ path)
        (.inVariable (evaluateWithin context (remaining + 1) source
          (.list [head, target, node] span) store).2 name path)
  | defined {remaining source : Nat} {head target : Node} {operands : List Node} {name : String}
      {span : Span} {store : Store σ} {path : List Nat}
      (form : head.symbol?.bind SpecialForm.ofName? = some .define)
      (named : target.symbol? = some name) :
      Flows context
        (.inAnswer ⟨remaining, source, .list (head :: target :: operands) span, store⟩ path)
        (.inVariable (evaluateWithin context remaining source
          (.list (head :: target :: operands) span) store).2 name path)
  | bound {remaining source : Nat} {target node : Node} {name : String} {more : List Node}
      {place : Span} {store after : Store σ} {path : List Nat}
      (named : target.symbol? = some name)
      (binds : bindOne (evaluateWithin context remaining source)
        (.list (target :: node :: more) place) store = (.ok (), after)) :
      Flows context (.inAnswer ⟨remaining, source, node, store⟩ path)
        (.inVariable after name path)
  | letBody {remaining source : Nat} {head last : Node} {bindings front : List Node}
      {around span : Span} {store ready inside : Store σ} {value : Value} {path : List Nat}
      (form : head.symbol?.bind SpecialForm.ofName? = some .bind)
      (bound : bindEach (evaluateWithin context remaining source) bindings store =
        (.ok (), ready))
      (ahead : evaluateBody (evaluateWithin context remaining source) .nil front ready =
        (.ok value, inside)) :
      Flows context (.inAnswer ⟨remaining, source, last, inside⟩ path)
        (.inAnswer ⟨remaining + 1, source,
          .list (head :: .list bindings around :: (front ++ [last])) span, store⟩ path)
  | argument {remaining source place : Nat} {node : Node} {operands : List Node}
      {store begun ready : Store σ} {values arguments : List Value} {closure : Closure}
      {name : String} {path : List Nat} (found : operands[place]? = some node)
      (earlier : evaluateEach (evaluateWithin context remaining source) [] (operands.take place)
        store = (.ok values, begun))
      (all : evaluateEach (evaluateWithin context remaining source) [] operands store =
        (.ok arguments, ready))
      (parameter : closure.parameters[place]? = some name)
      (last : name ∉ closure.parameters.drop (place + 1)) :
      Flows context (.inAnswer ⟨remaining, source, node, begun⟩ path)
        (.inVariable (ready.entering closure arguments) name path)
  | callBody {remaining source : Nat} {head last : Node} {operands front : List Node}
      {span : Span} {store middle ready inside : Store σ} {closure : Closure}
      {arguments : List Value} {value : Value} {path : List Nat}
      (ordinary : head.symbol?.bind SpecialForm.ofName? = none)
      (called : callee context.natives (evaluateWithin context remaining source) head store =
        (.ok (.closure closure), middle))
      (given : evaluateEach (evaluateWithin context remaining source) [] operands middle =
        (.ok arguments, ready))
      (split : closure.body = front ++ [last])
      (ahead : evaluateBody (evaluateWithin context remaining closure.source) .nil front
        (ready.entering closure arguments) = (.ok value, inside)) :
      Flows context (.inAnswer ⟨remaining, closure.source, last, inside⟩ path)
        (.inAnswer ⟨remaining + 1, source, .list (head :: operands) span, store⟩ path)
  | moved {remaining source place : Nat} {head node : Node} {operands : List Node} {span : Span}
      {store middle begun ready : Store σ} {native : Native} {builtin : Builtin}
      {values arguments : List Value} {path way : List Nat}
      (ordinary : head.symbol?.bind SpecialForm.ofName? = none)
      (called : callee context.natives (evaluateWithin context remaining source) head store =
        (.ok (.native native), middle))
      (found : operands[place]? = some node)
      (earlier : evaluateEach (evaluateWithin context remaining source) [] (operands.take place)
        middle = (.ok values, begun))
      (all : evaluateEach (evaluateWithin context remaining source) [] operands middle =
        (.ok arguments, ready))
      (action : native.action = .builtin builtin)
      (fits : builtin = .cons → ∃ items, Builtin.items? arguments[1]? = .ok items)
      (moves : builtin.Moves place path way) :
      Flows context (.inAnswer ⟨remaining, source, node, begun⟩ path)
        (.inAnswer ⟨remaining + 1, source, .list (head :: operands) span, store⟩ way)
  | unassigned {task : Task σ} {name : String} {path : List Nat}
      (alone : name ∉ task.node.targets) :
      Flows context (.inVariable task.store name path)
        (.inVariable (task.run context).2 name path)
  | beside {remaining source : Nat} {target node : Node} {name other : String}
      {more : List Node} {place : Span} {store after : Store σ} {path : List Nat}
      (named : target.symbol? = some other) (different : name ≠ other)
      (alone : name ∉ node.targets)
      (binds : bindOne (evaluateWithin context remaining source)
        (.list (target :: node :: more) place) store = (.ok (), after)) :
      Flows context (.inVariable store name path) (.inVariable after name path)
  | noted {store : Store σ} {event : Event} {name : String} {path : List Nat} :
      Flows context (.inVariable store name path)
        (.inVariable { store with events := event :: store.events } name path)
  | entered {store : Store σ} {closure : Closure} {arguments : List Value} {name : String}
      {path : List Nat} (absent : name ∉ closure.parameters) :
      Flows context (.inVariable store name path)
        (.inVariable (store.entering closure arguments) name path)

variable {context : Context σ} {remaining source : Nat}

private theorem callClosure_apply (evaluate : Nat → Node → Action σ Value) (closure : Closure)
    (arguments : List Value) (store : Store σ) :
    let run := evaluateBody (evaluate closure.source) .nil closure.body
      (store.entering closure arguments)
    callClosure evaluate closure arguments store =
      (run.1, { run.2 with environment := store.environment }) := rfl

private theorem apply_of_ok {host : Host σ} {evaluate : Nat → Node → Action σ Value}
    {closure : Closure}
    {arguments : List Value} {span : Span} {store after : Store σ} {value : Value}
    (run : evaluateBody (evaluate closure.source) .nil closure.body
      (store.entering closure arguments) = (.ok value, after)) :
    apply host evaluate source (.closure closure) arguments span store =
      (.ok value, { after with environment := store.environment }) := by
  have answered : callClosure evaluate closure arguments store =
      (.ok value, { after with environment := store.environment }) := by
    rw [callClosure_apply, run]
  rw [apply]
  split
  · exact answered
  · rw [relocating, answered]

private theorem callNative_of_ok {host : Host σ} {native : Native} {builtin : Builtin}
    {arguments : List Value} {span : Span} {store : Store σ} {value : Value}
    (action : native.action = .builtin builtin)
    (answered : builtin.answer arguments = .ok value) :
    callNative host native arguments span store = (.ok value, { store with
      events := .nativeCalled native arguments span :: store.events }) := by
  have call : builtin.call arguments span = .ok value := by rw [Builtin.call, answered]
  obtain ⟨name, _⟩ := native
  cases action
  exact congrArg (fun outcome => (outcome, { store with
    events := .nativeCalled ⟨name, .builtin builtin⟩ arguments span :: store.events })) call

/-- With a level to spend, a call whose operands are answered is the application of its head. -/
theorem evaluateWithin_call {head : Node} {operands : List Node} {span : Span}
    {store middle ready : Store σ} {procedure : Procedure} {arguments : List Value}
    (ordinary : head.symbol?.bind SpecialForm.ofName? = none)
    (called : callee context.natives (evaluateWithin context remaining source) head store =
      (.ok procedure, middle))
    (given : evaluateEach (evaluateWithin context remaining source) [] operands middle =
      (.ok arguments, ready)) :
    evaluateWithin context (remaining + 1) source (.list (head :: operands) span) store =
      apply context.host (evaluateWithin context remaining) source procedure arguments span
        ready := by
  rw [evaluateWithin, step, ordinary]
  exact (bind_of_ok called).trans (bind_of_ok given)

theorem evaluateWithin_special {head : Node} {operands : List Node} {span : Span}
    {form : SpecialForm} (named : head.symbol?.bind SpecialForm.ofName? = some form) :
    evaluateWithin context (remaining + 1) source (.list (head :: operands) span) =
      special form (evaluateWithin context remaining source) source operands span := by
  rw [evaluateWithin, step, named]

/-- A value stays what it is on its way from one spot to the next. -/
theorem Flows.value? {first second : Spot σ} (flows : Flows context first second) {value : Value}
    (here : first.value? context = some value) : second.value? context = some value := by
  cases flows with
  | @read _ _ _ _ store =>
    obtain ⟨whole, found, inside⟩ := Spot.value?_inVariable.mp here
    refine Spot.value?_inAnswer.mpr ⟨whole, store, ?_, inside⟩
    rw [Task.run, evaluateWithin_symbol, found]
  | @assigned _ _ _ _ _ _ span _ _ form named =>
    obtain ⟨whole, after, run, inside⟩ := Spot.value?_inAnswer.mp here
    have assigned := assign_of_ok span named run
    refine Spot.value?_inAnswer.mpr ⟨whole, _, Eq.trans ?_ assigned, inside⟩
    rw [Task.run, evaluateWithin_special form]
    rfl
  | @stored _ _ _ _ _ _ span _ _ form named =>
    obtain ⟨whole, after, run, inside⟩ := Spot.value?_inAnswer.mp here
    refine Spot.value?_inVariable.mpr ⟨whole, ?_, inside⟩
    rw [evaluateWithin_special form, special, assign_of_ok span named run]
    exact Table.find?_insert_self _ _ whole
  | @defined remaining _ _ _ _ _ _ _ _ form named =>
    obtain ⟨whole, after, run, inside⟩ := Spot.value?_inAnswer.mp here
    rw [Task.run] at run
    refine Spot.value?_inVariable.mpr ⟨whole, ?_, inside⟩
    rw [run]
    cases remaining with
    | zero => cases run
    | succ remaining =>
      rw [evaluateWithin_special form] at run
      exact find?_of_define named run
  | bound named binds =>
    obtain ⟨whole, after, run, inside⟩ := Spot.value?_inAnswer.mp here
    obtain ⟨_, _, ran, changed⟩ := exists_of_bindOne named binds
    cases run.symm.trans ran
    refine Spot.value?_inVariable.mpr ⟨whole, ?_, inside⟩
    rw [changed, Table.find?_insert_self]
  | @letBody _ _ _ _ _ _ _ _ store _ _ _ _ form bound ahead =>
    obtain ⟨whole, after, run, inside⟩ := Spot.value?_inAnswer.mp here
    refine Spot.value?_inAnswer.mpr
      ⟨whole, { after with environment := store.environment }, ?_, inside⟩
    rw [Task.run] at run
    rw [Task.run, evaluateWithin_special form, special, bindLocally, restoring, bind_of_ok bound,
      evaluateBody_append, bind_of_ok ahead, evaluateBody_singleton, run]
  | argument found earlier all parameter last =>
    obtain ⟨whole, after, run, inside⟩ := Spot.value?_inAnswer.mp here
    obtain ⟨_, _, ran, given⟩ := getElem?_evaluateEach found earlier all
    cases run.symm.trans ran
    exact Spot.value?_inVariable.mpr ⟨whole, find?_parameter parameter last given, inside⟩
  | @callBody remaining _ _ _ _ _ _ _ _ ready _ closure arguments _ _ ordinary called given split
      ahead =>
    obtain ⟨whole, after, run, inside⟩ := Spot.value?_inAnswer.mp here
    have body : evaluateBody (evaluateWithin context remaining closure.source) .nil closure.body
        (ready.entering closure arguments) = (.ok whole, after) := by
      rw [split, evaluateBody_append, bind_of_ok ahead, evaluateBody_singleton]
      exact run
    exact Spot.value?_inAnswer.mpr ⟨whole, _,
      (evaluateWithin_call ordinary called given).trans (apply_of_ok body), inside⟩
  | moved ordinary called found earlier all action fits moves =>
    obtain ⟨whole, after, run, inside⟩ := Spot.value?_inAnswer.mp here
    obtain ⟨_, _, ran, given⟩ := getElem?_evaluateEach found earlier all
    cases run.symm.trans ran
    obtain ⟨answer, answered, arrived⟩ := Builtin.exists_answer moves given inside fits
    exact Spot.value?_inAnswer.mpr ⟨answer, _,
      (evaluateWithin_call ordinary called all).trans (callNative_of_ok action answered), arrived⟩
  | @unassigned task name path alone =>
    obtain ⟨whole, found, inside⟩ := Spot.value?_inVariable.mp here
    have kept := evaluateWithin_changedAt context task.remaining task.source task.node task.store
    refine Spot.value?_inVariable.mpr ⟨whole, ?_, inside⟩
    exact (kept.elsewhere name alone).trans found
  | @beside remaining source _ node name _ _ _ store _ _ named different alone binds =>
    obtain ⟨whole, found, inside⟩ := Spot.value?_inVariable.mp here
    obtain ⟨other, reached, ran, changed⟩ := exists_of_bindOne named binds
    have kept := evaluateWithin_changedAt context remaining source node store
    rw [ran] at kept
    refine Spot.value?_inVariable.mpr ⟨whole, ?_, inside⟩
    rw [changed, Table.find?_insert, if_neg different, kept.elsewhere name alone, found]
  | noted => exact here
  | entered absent =>
    obtain ⟨whole, found, inside⟩ := Spot.value?_inVariable.mp here
    refine Spot.value?_inVariable.mpr ⟨whole, ?_, inside⟩
    exact (find?_bindParameters_of_not_mem absent _ _).trans found

/-- However far it goes, a value that is passed on arrives as the value that it was. -/
theorem flows_value? {first second : Spot σ}
    (way : Relation.ReflTransGen (Flows context) first second) {value : Value}
    (here : first.value? context = some value) : second.value? context = some value := by
  induction way with
  | refl => exact here
  | tail _ flows ih => exact flows.value? ih

end Eval
end EagerLisp
