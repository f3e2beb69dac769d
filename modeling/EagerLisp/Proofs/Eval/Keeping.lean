import EagerLisp.Eval
import EagerLisp.Proofs.Node.Flatten

/-! What actions keep. A property of the store that every step of an action keeps is kept by the
whole action, whether it answers or fails; along with it go a property of the answers and one of
the failures. -/
namespace EagerLisp

/-- The values that an event is about. -/
def Event.values : Event → List Value
  | .nativeCalled _ arguments _ => arguments
  | .closureCalled _ arguments => arguments
  | .assigned _ value => [value]
  | .bound _ value => [value]
  | .hostAssigned _ value => [value]
  | .defined _ _ | .started _ | .failed _ | .registered _ | .replaced _ => []

/-- The answer or the failure has the property asked of it. -/
def Meets {ε α : Type} (answers : α → Prop) (fails : ε → Prop) : Except ε α → Prop
  | .ok value => answers value
  | .error error => fails error

/-- Every failure that is placed at the expression or inside it has the property. -/
def Covers (fails : EvalError → Prop) (node : Node) : Prop :=
  ∀ inner : Node, inner.Within node → ∀ cause, fails ⟨cause, inner.span⟩

theorem Covers.here {fails : EvalError → Prop} {node : Node} (covers : Covers fails node)
    (cause : EvalCause) : fails ⟨cause, node.span⟩ :=
  covers node .self cause

theorem Covers.element {fails : EvalError → Prop} {elements : List Node} {span : Span}
    (covers : Covers fails (.list elements span)) {node : Node} (member : node ∈ elements) :
    Covers fails node :=
  fun inner deeper => covers inner (.element member deeper)

namespace Action

variable {σ α β : Type}

/-- From a store with the property the action leads to one with it, and to a fitting outcome. -/
def Keeps (kept : Store σ → Prop) (answers : α → Prop) (fails : EvalError → Prop)
    (action : Action σ α) : Prop :=
  ∀ store, kept store → kept (action store).2 ∧ Meets answers fails (action store).1

variable {kept : Store σ → Prop} {fails : EvalError → Prop} {answers : α → Prop}
  {results : β → Prop}

theorem Keeps.pure {value : α} (answer : answers value) :
    Keeps kept answers fails (Pure.pure value : Action σ α) :=
  fun _ initial => ⟨initial, answer⟩

theorem Keeps.bind {action : Action σ α} {next : α → Action σ β}
    (first : Keeps kept answers fails action)
    (second : ∀ value, answers value → Keeps kept results fails (next value)) :
    Keeps kept results fails (action >>= next) := by
  intro store initial
  have reached := first store initial
  cases same : action store with
  | mk outcome after =>
    rw [same] at reached
    obtain ⟨middle, met⟩ := reached
    cases outcome with
    | ok value =>
      rw [bind_of_ok same]
      exact second value met after middle
    | error error =>
      rw [bind_of_error same]
      exact ⟨middle, met⟩

theorem Keeps.of_ok {action : Action σ α} (keeps : Keeps kept answers fails action)
    {store after : Store σ} {value : α} (initial : kept store)
    (same : action store = (.ok value, after)) : kept after ∧ answers value := by
  have reached := keeps store initial
  rw [same] at reached
  exact reached

theorem Keeps.fail {cause : EvalCause} {span : Span} (failure : fails ⟨cause, span⟩) :
    Keeps kept answers fails (Action.fail cause span : Action σ α) :=
  fun _ initial => ⟨initial, failure⟩

theorem Keeps.ofExcept {outcome : Except EvalError α} (met : Meets answers fails outcome) :
    Keeps kept answers fails (Action.ofExcept outcome : Action σ α) :=
  fun _ initial => ⟨initial, met⟩

theorem Keeps.record {event : Event}
    (noted : ∀ store, kept store → kept { store with events := event :: store.events }) :
    Keeps kept (fun _ => True) fails (Action.record event : Action σ Unit) :=
  fun store initial => ⟨noted store initial, trivial⟩

theorem Keeps.lookup {name : String} {found : Option Value → Prop}
    (held : ∀ store, kept store → found (store.environment.find? name)) :
    Keeps kept found fails (Action.lookup name : Action σ (Option Value)) :=
  fun store initial => ⟨initial, held store initial⟩

theorem Keeps.overlay {change : Environment → Environment}
    (changed : ∀ store, kept store →
      kept { store with environment := change store.environment }) :
    Keeps kept (fun _ => True) fails (Action.overlay change : Action σ Unit) :=
  fun store initial => ⟨changed store initial, trivial⟩

theorem Keeps.define {name : String} {value : Value}
    (changed : ∀ store, kept store →
      kept { store with environment := store.environment.insert name value }) :
    Keeps kept (fun _ => True) fails (Action.define name value : Action σ Unit) :=
  fun store initial => ⟨changed store initial, trivial⟩

theorem Keeps.makeClosure {name? : Option String} {parameters : List String} {body : List Node}
    {source : Nat} {made : Value → Prop}
    (counted : ∀ store, kept store → kept { store with closures := store.closures + 1 })
    (fresh : ∀ mark, made (.procedure (.closure ⟨mark, name?, parameters, body, source⟩))) :
    Keeps kept made fails (Action.makeClosure name? parameters body source : Action σ Value) :=
  fun store initial => ⟨counted store initial, fresh _⟩

/-- Putting the variables back keeps whatever the action keeps, if that stands up to putting them
back. -/
theorem Keeps.restoring {action : Action σ α} (inner : Keeps kept answers fails action)
    (back : ∀ store after, kept store → kept after →
      kept { after with environment := store.environment }) :
    Keeps kept answers fails (Action.restoring action) := by
  intro store initial
  obtain ⟨reached, met⟩ := inner store initial
  exact ⟨back store _ initial reached, met⟩

theorem Keeps.relocating {span : Span} {action : Action σ α} {anywhere : EvalError → Prop}
    (inner : Keeps kept answers anywhere action)
    (moved : ∀ error, anywhere error → fails (error.relocate span)) :
    Keeps kept answers fails (Action.relocating span action) := by
  intro store initial
  have reached := inner store initial
  simp only [Action.relocating]
  cases same : action store with
  | mk outcome after =>
    rw [same] at reached
    obtain ⟨later, met⟩ := reached
    cases outcome with
    | ok value => exact ⟨later, met⟩
    | error error => exact ⟨later, moved error met⟩

end Action

namespace Eval

open EagerLisp.Action

variable {σ : Type} {kept : Store σ → Prop} {good : Value → Prop} {fails : EvalError → Prop}
  {evaluate : Node → Action σ Value}

/-- Noting what happens to good values keeps the property. -/
abbrev RecordKeeps (kept : Store σ → Prop) (good : Value → Prop) : Prop :=
  ∀ event store, (∀ value ∈ event.values, good value) → kept store →
    kept { store with events := event :: store.events }

theorem evaluateEach_keeps {nodes : List Node}
    (each : ∀ node ∈ nodes, Keeps kept good fails (evaluate node)) {done : List Value}
    (earlier : ∀ value ∈ done, good value) :
    Keeps kept (fun values => ∀ value ∈ values, good value) fails
      (evaluateEach evaluate done nodes) := by
  induction nodes generalizing done with
  | nil =>
    refine .pure fun value member => ?_
    exact earlier value (List.mem_reverse.mp member)
  | cons node rest ih =>
    refine .bind (each node (by simp)) fun value answer => ?_
    refine ih (fun other member => each other (by simp [member])) fun other member => ?_
    rcases List.mem_cons.mp member with rfl | member
    · exact answer
    · exact earlier other member

theorem evaluateBody_keeps {nodes : List Node}
    (each : ∀ node ∈ nodes, Keeps kept good fails (evaluate node)) {last : Value}
    (earlier : good last) : Keeps kept good fails (evaluateBody evaluate last nodes) := by
  induction nodes generalizing last with
  | nil => exact .pure earlier
  | cons node rest ih =>
    refine .bind (each node (by simp)) fun value answer => ?_
    exact ih (fun other member => each other (by simp [member])) answer

theorem symbolIn_meets (form : SpecialForm) {node : Node}
    (covers : Covers fails node) :
    Meets (fun name => node.symbol? = some name) fails (symbolIn form node) := by
  unfold symbolIn
  split
  case h_1 name same => exact same
  case h_2 => exact covers.here _

/-- The head of a call is a native, or a procedure that was a value. -/
theorem callee_keeps {natives : NativeTable} {head : Node} {callable : Procedure → Prop}
    (native : ∀ name native, natives.find? name = some native → callable (.native native))
    (inner : Keeps kept good fails (evaluate head))
    (called : ∀ procedure, good (.procedure procedure) → callable procedure)
    (covers : Covers fails head) :
    Keeps kept callable fails (callee natives evaluate head) := by
  unfold callee
  split
  case h_1 own same =>
    obtain ⟨name, _, listed⟩ := Option.bind_eq_some_iff.mp same
    exact .pure (native name own listed)
  case h_2 =>
    refine .bind inner fun value answer => ?_
    split
    · exact .pure (called _ answer)
    · exact .fail (covers.here _)

theorem assign_keeps {operands : List Node} {span : Span}
    (inner : ∀ target valueNode, operands = [target, valueNode] →
      Keeps kept good fails (evaluate valueNode))
    (noted : RecordKeeps kept good)
    (changed : ∀ target valueNode name value store, operands = [target, valueNode] →
      target.symbol? = some name → good value → kept store →
        kept { store with environment := store.environment.insert name value })
    (covers : ∀ node ∈ operands, Covers fails node) (whole : ∀ cause, fails ⟨cause, span⟩) :
    Keeps kept good fails (assign evaluate operands span) := by
  unfold assign
  split
  case h_1 target valueNode =>
    refine .bind (.ofExcept (symbolIn_meets .assign (covers target (by simp)))) fun name named => ?_
    refine .bind (inner target valueNode rfl) fun value answer => ?_
    refine .bind (.record fun store => noted _ store (by simpa [Event.values])) fun _ _ => ?_
    refine .bind (.define fun store => ?_) fun _ _ => .pure answer
    exact changed target valueNode name value store rfl named answer
  case h_2 => exact .fail (whole _)

private theorem mapM_symbolIn_meets (form : SpecialForm) {nodes : List Node}
    (covers : ∀ node ∈ nodes, Covers fails node) :
    Meets (fun _ => True) fails (nodes.mapM (symbolIn form)) := by
  induction nodes with
  | nil => trivial
  | cons node rest ih =>
    have first := symbolIn_meets form (covers node (by simp))
    have others := ih fun other member => covers other (by simp [member])
    rw [List.mapM_cons]
    cases head : symbolIn form node with
    | error error =>
      rw [head] at first
      exact first
    | ok name =>
      cases tail : rest.mapM (symbolIn form) with
      | error error =>
        rw [tail] at others
        exact others
      | ok names => trivial

theorem parametersIn_meets (form : SpecialForm) {node : Node}
    (covers : Covers fails node) : Meets (fun _ => True) fails (parametersIn form node) := by
  cases node with
  | leaf atom span => exact covers.here _
  | list elements span => exact mapM_symbolIn_meets form fun inner member => covers.element member

theorem define_keeps {source : Nat} {operands : List Node} {span : Span}
    (noted : RecordKeeps kept good)
    (counted : ∀ store, kept store → kept { store with closures := store.closures + 1 })
    (made : ∀ target parameterList body, operands = target :: parameterList :: body →
      ∀ mark name? parameters,
        good (.procedure (.closure ⟨mark, name?, parameters, body, source⟩)))
    (changed : ∀ target parameterList body name value store,
      operands = target :: parameterList :: body → target.symbol? = some name → good value →
        kept store → kept { store with environment := store.environment.insert name value })
    (covers : ∀ node ∈ operands, Covers fails node) (whole : ∀ cause, fails ⟨cause, span⟩) :
    Keeps kept good fails (define source operands span) := by
  unfold define
  split
  case h_1 target parameterList body =>
    have named := symbolIn_meets .define (covers target (by simp))
    have listed := parametersIn_meets .define (covers parameterList (by simp))
    refine .bind (.ofExcept named) fun name same => ?_
    refine .bind (.ofExcept listed) fun parameters _ => ?_
    refine .bind (.record fun store => noted _ store (by simp [Event.values])) fun _ _ => ?_
    refine .bind (.makeClosure counted fun mark => made target parameterList body rfl mark _ _)
      fun value answer => ?_
    refine .bind (.define fun store => ?_) fun _ _ => .pure answer
    exact changed target parameterList body name value store rfl same answer
  case h_2 => exact .fail (whole _)

theorem close_keeps {source : Nat} {operands : List Node} {span : Span}
    (counted : ∀ store, kept store → kept { store with closures := store.closures + 1 })
    (made : ∀ parameterList body, operands = parameterList :: body → ∀ mark name? parameters,
      good (.procedure (.closure ⟨mark, name?, parameters, body, source⟩)))
    (covers : ∀ node ∈ operands, Covers fails node) (whole : ∀ cause, fails ⟨cause, span⟩) :
    Keeps kept good fails (close source operands span) := by
  unfold close
  split
  case h_1 parameterList body =>
    have listed := parametersIn_meets .closure (covers parameterList (by simp))
    refine .bind (.ofExcept listed) fun parameters _ => ?_
    exact .makeClosure counted fun mark => made parameterList body rfl mark _ _
  case h_2 => exact .fail (whole _)

theorem quote_keeps {operands : List Node} {span : Span}
    (data : ∀ node, good (.ofNode node)) (whole : ∀ cause, fails ⟨cause, span⟩) :
    Keeps kept good fails (quote operands span : Action σ Value) := by
  unfold quote
  split
  · exact .pure (data _)
  · exact .fail (whole _)

private theorem bindOne_keeps {binding : Node}
    (inner : ∀ node : Node, node.Within binding → Keeps kept good fails (evaluate node))
    (noted : RecordKeeps kept good)
    (changed : ∀ name value store, good value → kept store →
      kept { store with environment := store.environment.insert name value })
    (covers : Covers fails binding) :
    Keeps kept (fun _ => True) fails (bindOne evaluate binding) := by
  unfold bindOne
  split
  case h_1 target valueNode more span =>
    have member : target ∈ target :: valueNode :: more := List.mem_cons_self ..
    have named := symbolIn_meets .bind (covers.element member)
    have valued := inner valueNode (.of_mem (by simp))
    refine .bind (.ofExcept named) fun name _ => ?_
    refine .bind valued fun value answer => ?_
    refine .bind (.record fun store => noted _ store (by simpa [Event.values])) fun _ _ => ?_
    exact .define fun store => changed name value store answer
  case h_2 => exact .fail (covers.here _)

theorem bindEach_keeps {bindings : List Node}
    (inner : ∀ node : Node, node.Among bindings → Keeps kept good fails (evaluate node))
    (noted : RecordKeeps kept good)
    (changed : ∀ name value store, good value → kept store →
      kept { store with environment := store.environment.insert name value })
    (covers : ∀ binding ∈ bindings, Covers fails binding) :
    Keeps kept (fun _ => True) fails (bindEach evaluate bindings) := by
  induction bindings with
  | nil => exact .pure trivial
  | cons binding rest ih =>
    have first := bindOne_keeps (fun node within => inner node ⟨binding, by simp, within⟩) noted
      changed (covers binding (by simp))
    refine .bind first fun _ _ => ih (fun node among => ?_) fun other member => ?_
    · obtain ⟨outer, member, within⟩ := among
      exact inner node ⟨outer, by simp [member], within⟩
    · exact covers other (by simp [member])

/-- A local binding keeps what its values and its body keep, if that stands up to putting the
variables back. -/
theorem bindLocally_keeps {operands : List Node} {span : Span}
    (inner : ∀ node : Node, node.Among operands → Keeps kept good fails (evaluate node))
    (noted : RecordKeeps kept good)
    (changed : ∀ name value store, good value → kept store →
      kept { store with environment := store.environment.insert name value })
    (back : ∀ store after, kept store → kept after →
      kept { after with environment := store.environment })
    (empty : good .nil) (covers : ∀ node ∈ operands, Covers fails node)
    (whole : ∀ cause, fails ⟨cause, span⟩) :
    Keeps kept good fails (bindLocally evaluate operands span) := by
  unfold bindLocally
  split
  case h_1 bindings place body =>
    have list := covers (.list bindings place) (by simp)
    have values : ∀ node : Node, node.Among bindings → Keeps kept good fails (evaluate node) := by
      intro node among
      obtain ⟨binding, member, within⟩ := among
      exact inner node ⟨.list bindings place, by simp, .element member within⟩
    have bound := bindEach_keeps values noted changed fun binding member => list.element member
    refine .restoring (.bind bound fun _ _ => ?_) back
    refine evaluateBody_keeps (fun node member => ?_) empty
    exact inner node (.of_mem (by simp [member]))
  case h_2 atom place rest =>
    have head := covers (.leaf atom place) (by simp)
    exact .fail (head.here _)
  case h_3 => exact .fail (whole _)

/-- A parameter of a closure is nil or one of the arguments; every other variable is unchanged. -/
theorem find?_bindParameters {parameters : List String} {arguments : List Value}
    {environment : Environment} {name : String} {value : Value}
    (found : (bindParameters parameters arguments environment).find? name = some value) :
    value = .nil ∨ value ∈ arguments ∨ environment.find? name = some value := by
  induction parameters generalizing arguments environment with
  | nil => exact .inr (.inr found)
  | cons parameter rest ih =>
    rcases ih found with empty | member | earlier
    · exact .inl empty
    · exact .inr (.inl (List.mem_of_mem_tail member))
    · rw [Table.find?_insert] at earlier
      split at earlier
      · cases arguments with
        | nil =>
          cases earlier
          exact .inl rfl
        | cons first others =>
          cases earlier
          exact .inr (.inl (by simp))
      · exact .inr (.inr earlier)

theorem find?_bindParameters_of_not_mem {parameters : List String} {name : String}
    (absent : name ∉ parameters) (arguments : List Value) (environment : Environment) :
    (bindParameters parameters arguments environment).find? name = environment.find? name := by
  induction parameters generalizing arguments environment with
  | nil => rfl
  | cons parameter rest ih =>
    obtain ⟨different, later⟩ := List.ne_and_not_mem_of_not_mem_cons absent
    rw [bindParameters, ih later, Table.find?_insert, if_neg different]

theorem callClosure_keeps {evaluate : Nat → Node → Action σ Value} {closure : Closure}
    {arguments : List Value}
    (body : ∀ node ∈ closure.body, Keeps kept good fails (evaluate closure.source node))
    (noted : RecordKeeps kept good) (given : ∀ argument ∈ arguments, good argument)
    (bound : ∀ store, kept store → kept
      { store with environment := bindParameters closure.parameters arguments store.environment })
    (back : ∀ store after, kept store → kept after →
      kept { after with environment := store.environment })
    (empty : good .nil) : Keeps kept good fails (callClosure evaluate closure arguments) := by
  refine .bind (.record fun store => noted _ store given) fun _ _ => .restoring ?_ back
  refine .bind (.overlay bound) fun _ _ => ?_
  exact evaluateBody_keeps body empty

theorem callNative_keeps {host : Host σ} {native : Native} {arguments : List Value} {span : Span}
    (noted : RecordKeeps kept good) (given : ∀ argument ∈ arguments, good argument)
    (builtin : ∀ builtin : Builtin, Meets good fails (builtin.call arguments span))
    (foreign : ∀ index store, native.action = .host index → kept store →
      kept { store with host := (host.call index arguments span store.host).2 } ∧
        Meets good fails (host.call index arguments span store.host).1) :
    Keeps kept good fails (callNative host native arguments span) := by
  refine .bind (.record fun store => noted _ store given) fun _ _ => ?_
  split
  case h_1 action => exact .ofExcept (builtin _)
  case h_2 index action => exact fun store => foreign index store action

/-- One level of evaluation keeps what its special forms and calls keep. -/
theorem step_keeps {context : Context σ} {evaluate : Nat → Node → Action σ Value} {source : Nat}
    {node : Node} (data : ∀ node, good (.ofNode node))
    (held : ∀ store name value, kept store → store.environment.find? name = some value →
      good value)
    (covers : Covers fails node)
    (forms : ∀ head operands span form, node = .list (head :: operands) span →
      head.symbol?.bind SpecialForm.ofName? = some form →
        Keeps kept good fails (special form (evaluate source) source operands span))
    (calls : ∀ head operands span, node = .list (head :: operands) span →
      head.symbol?.bind SpecialForm.ofName? = none →
        Keeps kept good fails (call context evaluate source head operands span)) :
    Keeps kept good fails (step context evaluate source node) := by
  have found (name : String) : Keeps kept
      (fun value? : Option Value => ∀ value, value? = some value → good value) fails
      (Action.lookup name : Action σ (Option Value)) :=
    .lookup fun store initial value => held store name value initial
  unfold step
  split
  case h_1 value span => exact .pure (data (.leaf (.number value) span))
  case h_2 value span => exact .pure (data (.leaf (.boolean value) span))
  case h_3 text span =>
    refine .bind (found text) fun value? known => .pure ?_
    cases value? with
    | none => exact data (.leaf (.string text) span)
    | some value => exact known value rfl
  case h_4 name span =>
    refine .bind (found name) fun value? known => ?_
    cases value? with
    | none => exact .fail (covers.here _)
    | some value => exact .pure (known value rfl)
  case h_5 span => exact .pure (data (.list [] span))
  case h_6 head operands span =>
    split
    case h_1 form same => exact forms head operands span form rfl same
    case h_2 same => exact calls head operands span rfl same

end Eval
end EagerLisp
