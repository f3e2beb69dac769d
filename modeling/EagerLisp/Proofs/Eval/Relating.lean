import EagerLisp.Eval
import EagerLisp.Proofs.Value.Likeness

/-! Two evaluations of expressions that are alike, from stores that are alike. Unlike a simulation,
which runs one expression twice and has both runs answer with one value, the two runs here have an
expression, an answer and a failure each, and these are related. Evaluation respects every
likeness that the host respects. -/
namespace EagerLisp

/-- The errors have one cause, at corresponding places. -/
structure EvalError.Like (like : Likeness) (error twin : EvalError) : Prop where
  cause : error.cause = twin.cause
  span : like.span error.span twin.span

/-- The same has happened in both evaluations. -/
inductive Event.Like (like : Likeness) : Event → Event → Prop where
  | nativeCalled (native : Native) {arguments twins : List Value} {span spanTwin : Span}
      (each : List.Forall₂ (Value.Like like) arguments twins) (placed : like.span span spanTwin) :
      Event.Like like (.nativeCalled native arguments span) (.nativeCalled native twins spanTwin)
  | closureCalled {closure twin : Closure} {arguments twins : List Value}
      (alike : closure.Like like twin) (each : List.Forall₂ (Value.Like like) arguments twins) :
      Event.Like like (.closureCalled closure arguments) (.closureCalled twin twins)
  | assigned (name : String) {value twin : Value} (alike : value.Like like twin) :
      Event.Like like (.assigned name value) (.assigned name twin)
  | bound (name : String) {value twin : Value} (alike : value.Like like twin) :
      Event.Like like (.bound name value) (.bound name twin)
  | defined (name : String) (parameters : List String) :
      Event.Like like (.defined name parameters) (.defined name parameters)
  | started {node twin : Node} (alike : node.Like like twin) :
      Event.Like like (.started node) (.started twin)
  | failed {error twin : EvalError} (alike : error.Like like twin) :
      Event.Like like (.failed error) (.failed twin)

/-- The environments bind the same of the names that may be mentioned, to values that are alike. -/
def Environment.Like (like : Likeness) (environment twin : Environment) : Prop :=
  ∀ name, like.name name →
    Option.Rel (Value.Like like) (environment.find? name) (twin.find? name)

/-- The stores are alike, the states of the host are related, and the same has happened to both
since their different pasts. -/
structure Store.Like {σ : Type} (like : Likeness) (states : σ → σ → Prop)
    (past pastTwin : List Event) (store twin : Store σ) : Prop where
  environment : store.environment.Like like twin.environment
  host : states store.host twin.host
  closures : like.count store.closures twin.closures
  events : ∃ events eventsTwin, store.events = events ++ past ∧
    twin.events = eventsTwin ++ pastTwin ∧ List.Forall₂ (Event.Like like) events eventsTwin

/-- From related states the hosts answer alike to arguments that are alike, and leave related
states. -/
def Host.Like {σ : Type} (like : Likeness) (states : σ → σ → Prop) (host twin : Host σ) : Prop :=
  ∀ index arguments twins span spanTwin state stateTwin,
    List.Forall₂ (Value.Like like) arguments twins → like.span span spanTwin →
      states state stateTwin →
        Both (Value.Like like) (EvalError.Like like) (host.call index arguments span state).1
          (twin.call index twins spanTwin stateTwin).1 ∧
        states (host.call index arguments span state).2 (twin.call index twins spanTwin stateTwin).2

/-- The contexts differ in nothing that matters: natives matter only under names that may be
mentioned and are no special form. -/
structure Context.Like {σ : Type} (like : Likeness) (states : σ → σ → Prop)
    (context twin : Context σ) : Prop where
  host : context.host.Like like states twin.host
  natives : ∀ name, like.name name → SpecialForm.ofName? name = none →
    context.natives.find? name = twin.natives.find? name
  limit : context.limit = twin.limit

variable {σ : Type} {like : Likeness} {states : σ → σ → Prop} {past pastTwin : List Event}

namespace Environment.Like

variable {environment twin : Environment}

theorem insert (alike : environment.Like like twin) (name : String) {value valueTwin : Value}
    (valued : value.Like like valueTwin) :
    Environment.Like like (environment.insert name value) (twin.insert name valueTwin) := by
  intro other mentioned
  rw [Table.find?_insert, Table.find?_insert]
  split
  · exact .some valued
  · exact alike other mentioned

private theorem bindParameters (alike : environment.Like like twin) (parameters : List String)
    {arguments twins : List Value} (each : List.Forall₂ (Value.Like like) arguments twins) :
    Environment.Like like (Eval.bindParameters parameters arguments environment)
      (Eval.bindParameters parameters twins twin) := by
  induction parameters generalizing arguments twins environment twin with
  | nil => exact alike
  | cons parameter rest ih =>
    refine ih (alike.insert parameter ?_) (Builtin.tail_alike each)
    cases each with
    | nil => exact .nil
    | cons first rest => exact first

end Environment.Like

namespace Store.Like

variable {store twin : Store σ}

theorem record (alike : store.Like like states past pastTwin twin) {event eventTwin : Event}
    (same : event.Like like eventTwin) :
    Store.Like like states past pastTwin { store with events := event :: store.events }
      { twin with events := eventTwin :: twin.events } := by
  obtain ⟨events, eventsTwin, since, sinceTwin, each⟩ := alike.events
  refine ⟨alike.environment, alike.host, alike.closures, event :: events, eventTwin :: eventsTwin,
    ?_, ?_, .cons same each⟩
  · simp [since]
  · simp [sinceTwin]

theorem withEnvironment (alike : store.Like like states past pastTwin twin)
    {environment environmentTwin : Environment}
    (changed : environment.Like like environmentTwin) :
    Store.Like like states past pastTwin { store with environment }
      { twin with environment := environmentTwin } :=
  ⟨changed, alike.host, alike.closures, alike.events⟩

end Store.Like

namespace Action

variable {α β γ δ : Type} {stores : Store σ → Store σ → Prop} {answers : α → β → Prop}
  {results : γ → δ → Prop} {fails : EvalError → EvalError → Prop}

/-- From related stores the actions lead to related stores and to outcomes of one kind, with
related answers or related failures. -/
def Relates (stores : Store σ → Store σ → Prop) (answers : α → β → Prop)
    (fails : EvalError → EvalError → Prop) (left : Action σ α) (right : Action σ β) : Prop :=
  ∀ store twin, stores store twin →
    stores (left store).2 (right twin).2 ∧ Both answers fails (left store).1 (right twin).1

private theorem Relates.run {left : Action σ α} {right : Action σ β} {store twin after : Store σ}
    {outcome : Except EvalError α} (relates : Relates stores answers fails left right)
    (initial : stores store twin) (same : left store = (outcome, after)) :
    ∃ outcomeTwin afterTwin, right twin = (outcomeTwin, afterTwin) ∧
      Both answers fails outcome outcomeTwin ∧ stores after afterTwin := by
  obtain ⟨reached, met⟩ := relates store twin initial
  rw [same] at reached met
  exact ⟨_, _, rfl, met, reached⟩

theorem Relates.of_ok {left : Action σ α} {right : Action σ β} {store twin after : Store σ}
    {value : α} (relates : Relates stores answers fails left right) (initial : stores store twin)
    (same : left store = (.ok value, after)) :
    ∃ valueTwin afterTwin, right twin = (.ok valueTwin, afterTwin) ∧ answers value valueTwin ∧
      stores after afterTwin := by
  obtain ⟨outcomeTwin, afterTwin, other, met, reached⟩ := relates.run initial same
  cases met with
  | answer alike => exact ⟨_, _, other, alike, reached⟩

theorem Relates.of_error {left : Action σ α} {right : Action σ β} {store twin after : Store σ}
    {error : EvalError} (relates : Relates stores answers fails left right)
    (initial : stores store twin) (same : left store = (.error error, after)) :
    ∃ errorTwin afterTwin, right twin = (.error errorTwin, afterTwin) ∧ fails error errorTwin ∧
      stores after afterTwin := by
  obtain ⟨outcomeTwin, afterTwin, other, met, reached⟩ := relates.run initial same
  cases met with
  | failure alike => exact ⟨_, _, other, alike, reached⟩

theorem Relates.pure {value : α} {twin : β} (alike : answers value twin) :
    Relates stores answers fails (Pure.pure value : Action σ α) (Pure.pure twin) :=
  fun _ _ initial => ⟨initial, .answer alike⟩

theorem Relates.bind {left : Action σ α} {right : Action σ β} {next : α → Action σ γ}
    {nextTwin : β → Action σ δ} (first : Relates stores answers fails left right)
    (second : ∀ value twin, answers value twin →
      Relates stores results fails (next value) (nextTwin twin)) :
    Relates stores results fails (left >>= next) (right >>= nextTwin) := by
  intro store twin initial
  cases same : left store with
  | mk outcome after =>
    cases outcome with
    | ok value =>
      obtain ⟨valueTwin, afterTwin, sameTwin, alike, reached⟩ := first.of_ok initial same
      rw [bind_of_ok same, bind_of_ok sameTwin]
      exact second value valueTwin alike after afterTwin reached
    | error error =>
      obtain ⟨errorTwin, afterTwin, sameTwin, alike, reached⟩ := first.of_error initial same
      rw [bind_of_error same, bind_of_error sameTwin]
      exact ⟨reached, .failure alike⟩

theorem Relates.fail {cause causeTwin : EvalCause} {span spanTwin : Span}
    (alike : fails ⟨cause, span⟩ ⟨causeTwin, spanTwin⟩) :
    Relates stores answers fails (Action.fail cause span : Action σ α)
      (Action.fail causeTwin spanTwin) :=
  fun _ _ initial => ⟨initial, .failure alike⟩

theorem Relates.ofExcept {outcome : Except EvalError α} {twin : Except EvalError β}
    (alike : Both answers fails outcome twin) :
    Relates stores answers fails (Action.ofExcept outcome : Action σ α) (Action.ofExcept twin) :=
  fun _ _ initial => ⟨initial, alike⟩

theorem Relates.relocating_left {span : Span} {left : Action σ α} {right : Action σ β}
    {anywhere : EvalError → EvalError → Prop} (inner : Relates stores answers anywhere left right)
    (moved : ∀ error twin, anywhere error twin → fails (error.relocate span) twin) :
    Relates stores answers fails (Action.relocating span left) right := by
  intro store twin initial
  have reached := inner store twin initial
  simp only [Action.relocating]
  cases same : left store with
  | mk outcome after =>
    rw [same] at reached
    obtain ⟨later, met⟩ := reached
    generalize (right twin).1 = outcomeTwin at met ⊢
    cases met with
    | answer alike => exact ⟨later, .answer alike⟩
    | failure alike => exact ⟨later, .failure (moved _ _ alike)⟩

theorem Relates.relocating_right {span : Span} {left : Action σ α} {right : Action σ β}
    {anywhere : EvalError → EvalError → Prop} (inner : Relates stores answers anywhere left right)
    (moved : ∀ error twin, anywhere error twin → fails error (twin.relocate span)) :
    Relates stores answers fails left (Action.relocating span right) := by
  intro store twin initial
  have reached := inner store twin initial
  simp only [Action.relocating]
  cases same : right twin with
  | mk outcome after =>
    rw [same] at reached
    obtain ⟨later, met⟩ := reached
    generalize (left store).1 = outcomeTwin at met ⊢
    cases met with
    | answer alike => exact ⟨later, .answer alike⟩
    | failure alike => exact ⟨later, .failure (moved _ _ alike)⟩

private theorem Relates.relocating {span spanTwin : Span} (placed : like.span span spanTwin)
    {left : Action σ α} {right : Action σ β}
    (inner : Relates stores answers (EvalError.Like like) left right) :
    Relates stores answers (EvalError.Like like) (Action.relocating span left)
      (Action.relocating spanTwin right) := by
  have half : Relates stores answers
      (fun error twin => error.cause = twin.cause ∧ error.span = span)
      (Action.relocating span left) right :=
    inner.relocating_left fun error twin alike => ⟨alike.cause, rfl⟩
  refine half.relocating_right fun error twin moved => ⟨moved.1, ?_⟩
  rw [moved.2]
  exact placed

end Action

namespace Action

variable {α β : Type} {answers : α → β → Prop} {fails : EvalError → EvalError → Prop}

theorem Relates.record {event twin : Event} (alike : event.Like like twin) :
    Relates (Store.Like like states past pastTwin) Eq fails
      (Action.record event : Action σ Unit) (Action.record twin) :=
  fun _ _ initial => ⟨initial.record alike, .answer rfl⟩

private theorem Relates.lookup {name : String} (mentioned : like.name name) :
    Relates (Store.Like like states past pastTwin) (Option.Rel (Value.Like like)) fails
      (Action.lookup name : Action σ (Option Value)) (Action.lookup name) :=
  fun _ _ initial => ⟨initial, .answer (initial.environment name mentioned)⟩

theorem Relates.define (name : String) {value twin : Value} (alike : value.Like like twin) :
    Relates (Store.Like like states past pastTwin) Eq fails
      (Action.define name value : Action σ Unit) (Action.define name twin) :=
  fun _ _ initial => ⟨initial.withEnvironment (initial.environment.insert name alike), .answer rfl⟩

private theorem Relates.overlay (parameters : List String) {arguments twins : List Value}
    (each : List.Forall₂ (Value.Like like) arguments twins) :
    Relates (Store.Like like states past pastTwin) Eq fails
      (Action.overlay (Eval.bindParameters parameters arguments) : Action σ Unit)
      (Action.overlay (Eval.bindParameters parameters twins)) := by
  intro store twin initial
  exact ⟨initial.withEnvironment (initial.environment.bindParameters parameters each), .answer rfl⟩

theorem Relates.makeClosure (name? : Option String) {parameters : List String}
    (mentioned : ∀ name ∈ parameters, like.name name) {body bodyTwin : List Node}
    (each : List.Forall₂ (Node.Like like) body bodyTwin) {source sourceTwin : Nat}
    (texts : like.source source sourceTwin) :
    Relates (Store.Like like states past pastTwin) (Value.Like like) fails
      (Action.makeClosure name? parameters body source : Action σ Value)
      (Action.makeClosure name? parameters bodyTwin sourceTwin) := by
  intro store twin initial
  obtain ⟨marked, counted⟩ := like.made initial.closures
  refine ⟨⟨initial.environment, initial.host, counted, initial.events⟩, .answer ?_⟩
  exact .procedure (.closure ⟨marked, rfl, rfl, mentioned, each, texts⟩)

theorem Relates.restoring {left : Action σ α} {right : Action σ β}
    (inner : Relates (Store.Like like states past pastTwin) answers fails left right) :
    Relates (Store.Like like states past pastTwin) answers fails (Action.restoring left)
      (Action.restoring right) := by
  intro store twin initial
  obtain ⟨reached, met⟩ := inner store twin initial
  exact ⟨reached.withEnvironment initial.environment, met⟩

end Action

namespace Eval

open EagerLisp.Action

/-- The actions take alike stores to alike stores, and their failures are alike. -/
abbrev Respects {α β : Type} (like : Likeness) (states : σ → σ → Prop)
    (past pastTwin : List Event) (answers : α → β → Prop) (left : Action σ α)
    (right : Action σ β) : Prop :=
  Relates (Store.Like like states past pastTwin) answers (EvalError.Like like) left right

theorem symbolIn_alike (form : SpecialForm) {node twin : Node} (alike : node.Like like twin) :
    Both (fun name nameTwin => name = nameTwin ∧ like.name name) (EvalError.Like like)
      (symbolIn form node) (symbolIn form twin) := by
  rw [symbolIn, symbolIn, ← alike.symbol?, alike.kind]
  cases named : node.symbol? with
  | none => exact .failure ⟨rfl, alike.span⟩
  | some name => exact .answer ⟨rfl, alike.mentioned named⟩

private theorem mapM_symbolIn_alike (form : SpecialForm) {nodes twins : List Node}
    (each : List.Forall₂ (Node.Like like) nodes twins) :
    Both (fun names namesTwin => names = namesTwin ∧ ∀ name ∈ names, like.name name)
      (EvalError.Like like) (nodes.mapM (symbolIn form)) (twins.mapM (symbolIn form)) := by
  induction each with
  | nil => exact .answer ⟨rfl, by simp⟩
  | @cons node twin nodes twins first rest ih =>
    have head := symbolIn_alike form first
    rw [List.mapM_cons, List.mapM_cons]
    generalize symbolIn form node = outcome at head ⊢
    generalize symbolIn form twin = outcomeTwin at head ⊢
    generalize nodes.mapM (symbolIn form) = outcomes at ih ⊢
    generalize twins.mapM (symbolIn form) = outcomesTwin at ih ⊢
    cases head with
    | failure alike => exact .failure alike
    | @answer name nameTwin alike =>
      cases ih with
      | failure alike => exact .failure alike
      | @answer names namesTwin others =>
        obtain ⟨rfl, mentioned⟩ := alike
        obtain ⟨rfl, later⟩ := others
        exact .answer ⟨rfl, by simpa using ⟨mentioned, later⟩⟩

theorem parametersIn_alike (form : SpecialForm) {node twin : Node} (alike : node.Like like twin) :
    Both (fun names namesTwin => names = namesTwin ∧ ∀ name ∈ names, like.name name)
      (EvalError.Like like) (parametersIn form node) (parametersIn form twin) := by
  cases alike with
  | leaf mentioned placed => exact .failure ⟨rfl, placed⟩
  | list each placed => exact mapM_symbolIn_alike form each

section Operands

variable {left right : Node → Action σ Value}
  (evaluator : ∀ node twin, node.Like like twin →
    Respects like states past pastTwin (Value.Like like) (left node) (right twin))

include evaluator

private theorem evaluateEach_alike {nodes twins : List Node}
    (each : List.Forall₂ (Node.Like like) nodes twins) {done doneTwin : List Value}
    (earlier : List.Forall₂ (Value.Like like) done doneTwin) :
    Respects like states past pastTwin (List.Forall₂ (Value.Like like))
      (evaluateEach left done nodes) (evaluateEach right doneTwin twins) := by
  induction each generalizing done doneTwin with
  | nil => exact .pure (List.forall₂_reverse_iff.mpr earlier)
  | cons first rest ih =>
    refine .bind (evaluator _ _ first) fun value twin alike => ?_
    exact ih (.cons alike earlier)

theorem evaluateBody_alike {nodes twins : List Node}
    (each : List.Forall₂ (Node.Like like) nodes twins) {last lastTwin : Value}
    (earlier : last.Like like lastTwin) :
    Respects like states past pastTwin (Value.Like like)
      (evaluateBody left last nodes) (evaluateBody right lastTwin twins) := by
  induction each generalizing last lastTwin with
  | nil => exact .pure earlier
  | cons first rest ih =>
    refine .bind (evaluator _ _ first) fun value twin alike => ?_
    exact ih alike

private theorem bindOne_alike {binding twin : Node} (alike : binding.Like like twin) :
    Respects like states past pastTwin Eq (bindOne left binding) (bindOne right twin) := by
  have faulty : Respects like states past pastTwin Eq
      (Action.fail (.invalidForm (.notBinding binding.text)) binding.span : Action σ Unit)
      (Action.fail (.invalidForm (.notBinding twin.text)) twin.span) := by
    rw [alike.text]
    exact .fail ⟨rfl, alike.span⟩
  cases alike with
  | leaf mentioned placed => exact faulty
  | list each placed =>
    cases each with
    | nil => exact faulty
    | cons target more =>
      cases more with
      | nil => exact faulty
      | cons valueNode more =>
        refine .bind (.ofExcept (symbolIn_alike .bind target)) fun name nameTwin same => ?_
        obtain ⟨rfl, _⟩ := same
        refine .bind (evaluator _ _ valueNode) fun value valueTwin valued => ?_
        exact .bind (.record (.bound name valued)) fun _ _ _ => .define name valued

private theorem bindEach_alike {bindings twins : List Node}
    (each : List.Forall₂ (Node.Like like) bindings twins) :
    Respects like states past pastTwin Eq (bindEach left bindings) (bindEach right twins) := by
  induction each with
  | nil => exact .pure rfl
  | cons first rest ih => exact .bind (bindOne_alike evaluator first) fun _ _ _ => ih

private theorem assign_alike {operands twins : List Node}
    (each : List.Forall₂ (Node.Like like) operands twins) {span spanTwin : Span}
    (placed : like.span span spanTwin) :
    Respects like states past pastTwin (Value.Like like) (assign left operands span)
      (assign right twins spanTwin) := by
  match each with
  | .nil => exact .fail ⟨rfl, placed⟩
  | .cons _ .nil => exact .fail ⟨rfl, placed⟩
  | .cons _ (.cons _ (.cons _ _)) => exact .fail ⟨rfl, placed⟩
  | .cons target (.cons valueNode .nil) =>
    refine .bind (.ofExcept (symbolIn_alike .assign target)) fun name nameTwin same => ?_
    obtain ⟨rfl, _⟩ := same
    refine .bind (evaluator _ _ valueNode) fun value valueTwin valued => ?_
    refine .bind (.record (.assigned name valued)) fun _ _ _ => ?_
    exact .bind (.define name valued) fun _ _ _ => .pure valued

private theorem bindLocally_alike {operands twins : List Node}
    (each : List.Forall₂ (Node.Like like) operands twins) {span spanTwin : Span}
    (placed : like.span span spanTwin) :
    Respects like states past pastTwin (Value.Like like) (bindLocally left operands span)
      (bindLocally right twins spanTwin) := by
  cases each with
  | nil => exact .fail ⟨rfl, placed⟩
  | cons first body =>
    cases first with
    | leaf mentioned here => exact .fail ⟨rfl, here⟩
    | list bindings here =>
      refine .restoring (.bind (bindEach_alike evaluator bindings) fun _ _ _ => ?_)
      exact evaluateBody_alike evaluator body .nil

private theorem callee_alike {natives nativesTwin : NativeTable}
    (listed : ∀ name, like.name name → SpecialForm.ofName? name = none →
      natives.find? name = nativesTwin.find? name) {head twin : Node}
    (alike : head.Like like twin) (plain : head.symbol?.bind SpecialForm.ofName? = none) :
    Respects like states past pastTwin (Procedure.Like like) (callee natives left head)
      (callee nativesTwin right twin) := by
  have same : head.symbol?.bind natives.find? = twin.symbol?.bind nativesTwin.find? := by
    rw [← alike.symbol?]
    cases named : head.symbol? with
    | none => rfl
    | some name =>
      rw [named] at plain
      exact listed name (alike.mentioned named) plain
  rw [callee, callee, same]
  cases twin.symbol?.bind nativesTwin.find? with
  | some native => exact .pure (.native native)
  | none =>
    refine .bind (evaluator _ _ alike) fun value valueTwin valued => ?_
    cases valued with
    | procedure callable => exact .pure callable
    | _ =>
      rw [alike.text]
      exact .fail ⟨rfl, alike.span⟩

end Operands

private theorem define_alike {operands twins : List Node}
    (each : List.Forall₂ (Node.Like like) operands twins) {span spanTwin : Span}
    (placed : like.span span spanTwin) {source sourceTwin : Nat}
    (texts : like.source source sourceTwin) :
    Respects like states past pastTwin (Value.Like like)
      (define source operands span : Action σ Value) (define sourceTwin twins spanTwin) := by
  match each with
  | .nil => exact .fail ⟨rfl, placed⟩
  | .cons _ .nil => exact .fail ⟨rfl, placed⟩
  | .cons target (.cons parameterList body) =>
    refine .bind (.ofExcept (symbolIn_alike .define target)) fun name nameTwin same => ?_
    obtain ⟨rfl, _⟩ := same
    refine .bind (.ofExcept (parametersIn_alike .define parameterList))
      fun parameters parametersTwin same => ?_
    obtain ⟨rfl, mentioned⟩ := same
    refine .bind (.record (.defined name parameters)) fun _ _ _ => ?_
    refine .bind (.makeClosure (some name) mentioned body texts) fun value valueTwin valued => ?_
    exact .bind (.define name valued) fun _ _ _ => .pure valued

private theorem close_alike {operands twins : List Node}
    (each : List.Forall₂ (Node.Like like) operands twins) {span spanTwin : Span}
    (placed : like.span span spanTwin) {source sourceTwin : Nat}
    (texts : like.source source sourceTwin) :
    Respects like states past pastTwin (Value.Like like)
      (close source operands span : Action σ Value) (close sourceTwin twins spanTwin) := by
  cases each with
  | nil => exact .fail ⟨rfl, placed⟩
  | cons parameterList body =>
    refine .bind (.ofExcept (parametersIn_alike .closure parameterList))
      fun parameters parametersTwin same => ?_
    obtain ⟨rfl, mentioned⟩ := same
    exact .makeClosure none mentioned body texts

private theorem quote_alike {operands twins : List Node}
    (each : List.Forall₂ (Node.Like like) operands twins) {span spanTwin : Span}
    (placed : like.span span spanTwin) :
    Respects like states past pastTwin (Value.Like like) (quote operands span : Action σ Value)
      (quote twins spanTwin) := by
  match each with
  | .nil => exact .fail ⟨rfl, placed⟩
  | .cons _ (.cons _ _) => exact .fail ⟨rfl, placed⟩
  | .cons datum .nil => exact .pure (.ofNode _ datum)

private theorem callNative_alike {host hostTwin : Host σ} (hosted : host.Like like states hostTwin)
    (native : Native) {arguments twins : List Value}
    (each : List.Forall₂ (Value.Like like) arguments twins) {span spanTwin : Span}
    (placed : like.span span spanTwin) :
    Respects like states past pastTwin (Value.Like like) (callNative host native arguments span)
      (callNative hostTwin native twins spanTwin) := by
  refine .bind (.record (.nativeCalled native each placed)) fun _ _ _ => ?_
  cases native.action with
  | builtin builtin =>
    refine .ofExcept ?_
    have answers := Builtin.answer_alike builtin each
    rw [Builtin.call, Builtin.call]
    generalize builtin.answer arguments = answer at answers ⊢
    generalize builtin.answer twins = answerTwin at answers ⊢
    cases answers with
    | answer alike => exact .answer alike
    | failure same => exact .failure ⟨congrArg EvalCause.invalidArguments same, placed⟩
  | host index =>
    intro store twin initial
    obtain ⟨met, related⟩ :=
      hosted index arguments twins span spanTwin store.host twin.host each placed initial.host
    exact ⟨⟨initial.environment, related, initial.closures, initial.events⟩, met⟩

section Calls

variable {left right : Nat → Node → Action σ Value}
  (evaluator : ∀ source sourceTwin node twin, like.source source sourceTwin →
    node.Like like twin → Respects like states past pastTwin (Value.Like like)
      (left source node) (right sourceTwin twin))

include evaluator

private theorem callClosure_alike {closure twin : Closure} (alike : closure.Like like twin)
    {arguments twins : List Value} (each : List.Forall₂ (Value.Like like) arguments twins) :
    Respects like states past pastTwin (Value.Like like) (callClosure left closure arguments)
      (callClosure right twin twins) := by
  refine .bind (.record (.closureCalled alike each)) fun _ _ _ => .restoring ?_
  rw [← alike.parameters]
  refine .bind (.overlay closure.parameters each) fun _ _ _ => ?_
  exact evaluateBody_alike (fun node twin => evaluator _ _ node twin alike.source) alike.body .nil

theorem apply_alike {host hostTwin : Host σ} (hosted : host.Like like states hostTwin)
    {source sourceTwin : Nat} (texts : like.source source sourceTwin)
    {procedure twin : Procedure} (alike : procedure.Like like twin)
    {arguments twins : List Value} (each : List.Forall₂ (Value.Like like) arguments twins)
    {span spanTwin : Span} (placed : like.span span spanTwin) :
    Respects like states past pastTwin (Value.Like like)
      (apply host left source procedure arguments span)
      (apply hostTwin right sourceTwin twin twins spanTwin) := by
  cases alike with
  | native native => exact callNative_alike hosted native each placed
  | @closure closure twin alike =>
    have body := callClosure_alike evaluator alike each
    rw [apply, apply]
    rcases like.moved texts alike.source with told | placeless
    · by_cases here : source = closure.source
      · rw [if_pos here, if_pos (told.mp here)]
        exact body
      · rw [if_neg here, if_neg fun same => here (told.mpr same)]
        exact .relocating placed body
    -- One failure may be moved and the other not, which makes no difference without places.
    · have moved : Respects like states past pastTwin (Value.Like like)
          (Action.relocating span (callClosure left closure arguments))
          (callClosure right twin twins) :=
        body.relocating_left fun error twin alike => ⟨alike.cause, placeless _ _⟩
      split
      · split
        · exact body
        · exact body.relocating_right fun error twin alike => ⟨alike.cause, placeless _ _⟩
      · split
        · exact moved
        · exact moved.relocating_right fun error twin alike => ⟨alike.cause, placeless _ _⟩

theorem special_alike (form : SpecialForm) {source sourceTwin : Nat}
    (texts : like.source source sourceTwin) {operands twins : List Node}
    (each : List.Forall₂ (Node.Like like) operands twins) {span spanTwin : Span}
    (placed : like.span span spanTwin) :
    Respects like states past pastTwin (Value.Like like)
      (special form (left source) source operands span)
      (special form (right sourceTwin) sourceTwin twins spanTwin) := by
  have inner (node twin : Node) := evaluator source sourceTwin node twin texts
  cases form with
  | quote => exact quote_alike each placed
  | assign => exact assign_alike inner each placed
  | define => exact define_alike each placed texts
  | closure => exact close_alike each placed texts
  | bind => exact bindLocally_alike inner each placed

theorem step_alike {context contextTwin : Context σ} (around : context.Like like states contextTwin)
    {source sourceTwin : Nat} (texts : like.source source sourceTwin) {node twin : Node}
    (alike : node.Like like twin) :
    Respects like states past pastTwin (Value.Like like) (step context left source node)
      (step contextTwin right sourceTwin twin) := by
  cases alike with
  | @leaf atom span spanTwin mentioned placed =>
    cases atom with
    | number value => exact .pure (.number value)
    | boolean value => exact .pure (.boolean value)
    | string text =>
      refine .bind (.lookup (mentioned text (by simp [Atom.names]))) fun value? twin? found => ?_
      cases found with
      | none => exact .pure (.string text)
      | some valued => exact .pure valued
    | symbol name =>
      refine .bind (.lookup (mentioned name (by simp [Atom.names]))) fun value? twin? found => ?_
      cases found with
      | none => exact .fail ⟨rfl, placed⟩
      | some valued => exact .pure valued
  | @list elements elementsTwin span spanTwin each placed =>
    cases each with
    | nil => exact .pure (.list .nil)
    | @cons head headTwin operands twins first rest =>
      rw [step, step, ← first.symbol?]
      cases named : head.symbol?.bind SpecialForm.ofName? with
      | some form => exact special_alike evaluator form texts rest placed
      | none =>
        have inner (node twin : Node) := evaluator source sourceTwin node twin texts
        refine .bind (callee_alike inner around.natives first named)
          fun procedure twin callable => ?_
        refine .bind (evaluateEach_alike inner rest .nil) fun arguments twins each => ?_
        exact apply_alike evaluator around.host texts callable each placed

end Calls

/-- Evaluation respects every likeness. -/
theorem evaluateWithin_alike {context twin : Context σ} (around : context.Like like states twin)
    (remaining source sourceTwin : Nat) (node nodeTwin : Node)
    (texts : like.source source sourceTwin) (alike : node.Like like nodeTwin) :
    Respects like states past pastTwin (Value.Like like)
      (evaluateWithin context remaining source node)
      (evaluateWithin twin remaining sourceTwin nodeTwin) := by
  induction remaining generalizing source sourceTwin node nodeTwin with
  | zero =>
    rw [evaluateWithin, evaluateWithin, around.limit]
    exact .fail ⟨rfl, alike.span⟩
  | succ remaining ih => exact step_alike ih around texts alike

end Eval
end EagerLisp
