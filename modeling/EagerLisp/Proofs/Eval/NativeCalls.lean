import Mathlib.Data.List.Forall2
import EagerLisp.Eval
import EagerLisp.Proofs.Node.Flatten

namespace EagerLisp

/-- The value of an atom among these variables. A string stands for itself unless there is a
variable of that name. -/
def Atom.value? (environment : Environment) : Atom → Option Value
  | .number value => some (.number value)
  | .boolean value => some (.boolean value)
  | .string text => some ((environment.find? text).getD (.string text))
  | .symbol name => environment.find? name

namespace Node

/-- Every list in the expression is empty, or its head is the name of a native and of no special
form. -/
def CallsOnly (natives : NativeTable) (node : Node) : Prop :=
  ∀ head operands span, (Node.list (head :: operands) span).Within node →
    ∃ name, head.symbol? = some name ∧ SpecialForm.ofName? name = none ∧
      natives.contains name = true

section CallsOnly

variable {natives : NativeTable}

private theorem CallsOnly.leaf (atom : Atom) (span : Span) :
    (Node.leaf atom span).CallsOnly natives := by
  intro head operands place within
  cases within

private theorem CallsOnly.operand {head operand : Node} {operands : List Node} {span : Span}
    (plain : (Node.list (head :: operands) span).CallsOnly natives) (member : operand ∈ operands) :
    operand.CallsOnly natives :=
  fun inner others place within =>
    plain inner others place (.element (List.mem_cons_of_mem head member) within)

private theorem CallsOnly.list {head : Node} {operands : List Node} {span : Span} (name : String)
    (named : head.symbol? = some name) (ordinary : SpecialForm.ofName? name = none)
    (listed : natives.contains name = true)
    (inner : ∀ operand ∈ operands, operand.CallsOnly natives) :
    (Node.list (head :: operands) span).CallsOnly natives := by
  intro other others place within
  cases within with
  | self => exact ⟨name, named, ordinary, listed⟩
  | element member deeper =>
    rcases List.mem_cons.mp member with rfl | later
    · cases deeper with
      | self => cases named
      | element => cases named
    · exact inner _ later other others place deeper

end CallsOnly

mutual
/-- The lists in the expression that are not empty, from the left to the right, each one behind
those inside it. -/
def postorder : Node → List Node
  | .leaf _ _ => []
  | .list [] _ => []
  | .list (head :: operands) span =>
    postorder head ++ postorderAll operands ++ [.list (head :: operands) span]

def postorderAll : List Node → List Node
  | [] => []
  | node :: rest => postorder node ++ postorderAll rest
end

end Node

/-- A call of a native: with which arguments, at which place, and what comes of it. -/
structure NativeCall where
  native : Native
  arguments : List Value
  span : Span
  outcome : Except EvalError Value

namespace NativeCall

/-- What is noted of a call. -/
def event (call : NativeCall) : Event :=
  .nativeCalled call.native call.arguments call.span

/-- The call is the one that the list stands for: it is made at the place of the list, calls the
native that the head names, and passes an argument for every operand. -/
def IsOf (natives : NativeTable) (node : Node) (call : NativeCall) : Prop :=
  ∃ head operands name, node = .list (head :: operands) call.span ∧ head.symbol? = some name ∧
    natives.find? name = some call.native ∧ call.arguments.length = operands.length

end NativeCall

/-- What a native answers while the host is in a state, and the state that it leaves. -/
def Native.answer {σ : Type} (host : Host σ) (native : Native) (arguments : List Value)
    (span : Span) (state : σ) : Except EvalError Value × σ :=
  match native.action with
  | .builtin builtin => (builtin.call arguments span, state)
  | .host index => host.call index arguments span state

namespace Eval

/-- The calls follow one another, each with the outcome that its native has in the state that the
one before leaves. -/
inductive Conducted {σ : Type} (host : Host σ) : σ → List NativeCall → σ → Prop where
  | nil (state : σ) : Conducted host state [] state
  | cons {state middle after : σ} {call : NativeCall} {rest : List NativeCall}
      (answered : call.native.answer host call.arguments call.span state = (call.outcome, middle))
      (others : Conducted host middle rest after) : Conducted host state (call :: rest) after

private theorem Conducted.append {σ : Type} {host : Host σ} {state middle after : σ}
    {calls more : List NativeCall} (first : Conducted host state calls middle)
    (second : Conducted host middle more after) : Conducted host state (calls ++ more) after := by
  induction first with
  | nil => exact second
  | cons answered _ ih => exact .cons answered (ih second)

mutual
/-- Evaluating the expression makes the calls and has the value, or breaks off behind them. A list
calls its native behind the calls of its operands, with their values for arguments, and has the
value that the native answers. -/
inductive Traces (natives : NativeTable) (environment : Environment) :
    Node → Option Value → List NativeCall → Prop where
  | atom (atom : Atom) (span : Span) :
      Traces natives environment (.leaf atom span) (atom.value? environment) []
  | empty (span : Span) : Traces natives environment (.list [] span) (some (.list [])) []
  | called {head : Node} {operands : List Node} {span : Span} {name : String} {native : Native}
      {values : List Value} {calls : List NativeCall} (named : head.symbol? = some name)
      (listed : natives.find? name = some native)
      (earlier : TracesAll natives environment operands (some values) calls)
      (outcome : Except EvalError Value) :
      Traces natives environment (.list (head :: operands) span) outcome.toOption
        (calls ++ [⟨native, values, span, outcome⟩])
  | operand {head : Node} {operands : List Node} {span : Span} {name : String}
      {calls : List NativeCall} (named : head.symbol? = some name)
      (earlier : TracesAll natives environment operands none calls) :
      Traces natives environment (.list (head :: operands) span) none calls
  | tooDeep (node : Node) : Traces natives environment node none []

/-- Evaluating the expressions from the left to the right makes the calls and has the values, or
breaks off behind them. -/
inductive TracesAll (natives : NativeTable) (environment : Environment) :
    List Node → Option (List Value) → List NativeCall → Prop where
  | nil : TracesAll natives environment [] (some []) []
  | first {node : Node} {rest : List Node} {calls : List NativeCall}
      (broken : Traces natives environment node none calls) :
      TracesAll natives environment (node :: rest) none calls
  | next {node : Node} {rest : List Node} {value : Value} {values? : Option (List Value)}
      {calls more : List NativeCall} (first : Traces natives environment node (some value) calls)
      (others : TracesAll natives environment rest values? more) :
      TracesAll natives environment (node :: rest) (values?.map (value :: ·)) (calls ++ more)
end

section Order

variable {natives : NativeTable} {environment : Environment}

private theorem postorder_of_symbol {head : Node} {name : String}
    (named : head.symbol? = some name) :
    head.postorder = [] := by
  cases head with
  | leaf atom span => rfl
  | list elements span => cases named

private theorem TracesAll.length {nodes : List Node} {values : List Value} {calls : List NativeCall}
    (traces : TracesAll natives environment nodes (some values) calls) :
    values.length = nodes.length := by
  induction nodes generalizing values calls with
  | nil =>
    cases traces
    rfl
  | cons node rest ih =>
    generalize same : some values = outcome at traces
    cases traces with
    | first => cases same
    | @next _ _ value values? calls more first others =>
      cases values? with
      | none => cases same
      | some values =>
        cases same
        rw [List.length_cons, List.length_cons, ih others]

/-- The calls are those of the first of the lists, one for each, and of all of them if there is a
value. -/
def Follows (natives : NativeTable) (lists : List Node) (done : Bool) (calls : List NativeCall) :
    Prop :=
  ∃ made left, lists = made ++ left ∧ List.Forall₂ (NativeCall.IsOf natives) made calls ∧
    (done = true → left = [])

private theorem Follows.none (lists : List Node) : Follows natives lists false [] :=
  ⟨[], lists, rfl, .nil, by simp⟩

theorem Follows.append {first second : List Node} {done : Bool} {calls more : List NativeCall}
    (left : Follows natives first true calls) (right : Follows natives second done more) :
    Follows natives (first ++ second) done (calls ++ more) := by
  obtain ⟨made, _, rfl, pairs, ended⟩ := left
  obtain ⟨others, rest, rfl, further, last⟩ := right
  rw [ended rfl]
  exact ⟨made ++ others, rest, by simp, List.rel_append pairs further, last⟩

theorem Follows.weaken {first second : List Node} {calls : List NativeCall} {done : Bool}
    (follows : Follows natives first done calls) :
    Follows natives (first ++ second) false calls := by
  obtain ⟨made, left, rfl, pairs, _⟩ := follows
  exact ⟨made, left ++ second, by simp, pairs, by simp⟩

mutual
/-- The calls follow the lists of the expression. -/
theorem Traces.follows {node : Node} {value? : Option Value} {calls : List NativeCall}
    (traces : Traces natives environment node value? calls) :
    Follows natives node.postorder value?.isSome calls := by
  match node with
  | .leaf atom span =>
    cases traces with
    | atom => exact ⟨[], [], rfl, .nil, by simp⟩
    | tooDeep => exact .none _
  | .list [] span =>
    cases traces with
    | empty => exact ⟨[], [], rfl, .nil, by simp⟩
    | tooDeep => exact .none _
  | .list (head :: operands) span =>
    cases traces with
    | called named listed earlier outcome =>
      have last : Follows natives [.list (head :: operands) span] outcome.toOption.isSome
          [⟨_, _, span, outcome⟩] :=
        ⟨[_], [], rfl, .cons ⟨head, operands, _, rfl, named, listed, earlier.length⟩ .nil, by simp⟩
      have inner := earlier.follows
      rw [Node.postorder, postorder_of_symbol named, List.nil_append]
      exact inner.append last
    | operand named earlier =>
      rw [Node.postorder, postorder_of_symbol named, List.nil_append]
      exact earlier.follows.weaken
    | tooDeep => exact .none _

theorem TracesAll.follows {nodes : List Node} {values? : Option (List Value)}
    {calls : List NativeCall} (traces : TracesAll natives environment nodes values? calls) :
    Follows natives (Node.postorderAll nodes) values?.isSome calls := by
  match nodes with
  | [] =>
    cases traces with
    | nil => exact ⟨[], [], rfl, .nil, by simp⟩
  | node :: rest =>
    cases traces with
    | first broken => exact broken.follows.weaken
    | @next _ _ value values? calls more first others =>
      rw [Node.postorderAll, Option.isSome_map]
      exact first.follows.append others.follows
end

end Order

open EagerLisp.Action

variable {σ α β : Type} {host : Host σ} {environment : Environment}

/-- The action makes calls of natives, which leave their trace, and changes nothing but what the
natives change in the host. -/
def Makes (host : Host σ) (environment : Environment)
    (trace : Option α → List NativeCall → Prop) (action : Action σ α) : Prop :=
  ∀ store, store.environment = environment → ∃ calls state,
    (action store).2 = { store with
      host := state, events := (calls.map NativeCall.event).reverse ++ store.events } ∧
    Conducted host store.host calls state ∧ trace (action store).1.toOption calls

namespace Makes

variable {trace : Option α → List NativeCall → Prop} {results : Option β → List NativeCall → Prop}

theorem of_same {action : Action σ α}
    (same : ∀ store, store.environment = environment →
      (action store).2 = store ∧ trace (action store).1.toOption []) :
    Makes host environment trace action := by
  intro store initial
  obtain ⟨unchanged, met⟩ := same store initial
  exact ⟨[], store.host, unchanged, .nil _, met⟩

theorem pure {value : α} (met : trace (some value) []) :
    Makes host environment trace (Pure.pure value : Action σ α) :=
  of_same fun _ _ => ⟨rfl, met⟩

private theorem fail {cause : EvalCause} {span : Span} (met : trace none []) :
    Makes host environment trace (Action.fail cause span : Action σ α) :=
  of_same fun _ _ => ⟨rfl, met⟩

theorem bind {action : Action σ α} {next : α → Action σ β}
    (first : Makes host environment trace action)
    (second : ∀ value calls, trace (some value) calls → Makes host environment
      (fun answer? more => results answer? (calls ++ more)) (next value))
    (broken : ∀ calls, trace none calls → results none calls) :
    Makes host environment results (action >>= next) := by
  intro store initial
  obtain ⟨calls, state, after, conducted, met⟩ := first store initial
  cases same : action store with
  | mk outcome middle =>
    rw [same] at after met
    simp only at after met
    cases outcome with
    | error error =>
      rw [bind_of_error same]
      exact ⟨calls, state, after, conducted, broken calls met⟩
    | ok value =>
      have unchanged : middle.environment = environment := by rw [after, initial]
      obtain ⟨more, last, later, others, met⟩ := second value calls met middle unchanged
      rw [bind_of_ok same]
      refine ⟨calls ++ more, last, ?_, conducted.append ?_, met⟩
      · rw [later, after]
        simp
      · rwa [after] at others

end Makes

private theorem callNative_apply (host : Host σ) (native : Native) (arguments : List Value)
    (span : Span) (store : Store σ) : callNative host native arguments span store =
      ((native.answer host arguments span store.host).1, { store with
        host := (native.answer host arguments span store.host).2
        events := .nativeCalled native arguments span :: store.events }) := by
  obtain ⟨name, action⟩ := native
  cases action <;> rfl

private theorem callNative_makes (native : Native) (arguments : List Value) (span : Span) :
    Makes host environment
      (fun value? calls => ∃ outcome, value? = outcome.toOption ∧
        calls = [⟨native, arguments, span, outcome⟩])
      (callNative host native arguments span) := by
  intro store _
  rw [callNative_apply]
  exact ⟨[⟨native, arguments, span, _⟩], _, rfl, .cons rfl (.nil _), _, rfl, rfl⟩

variable {natives : NativeTable}

private theorem evaluateEach_makes {evaluate : Node → Action σ Value} {nodes : List Node}
    (each : ∀ node ∈ nodes, Makes host environment (Traces natives environment node)
      (evaluate node)) (done : List Value) :
    Makes host environment
      (fun values? calls => ∃ own?, values? = own?.map (done.reverse ++ ·) ∧
        TracesAll natives environment nodes own? calls) (evaluateEach evaluate done nodes) := by
  induction nodes generalizing done with
  | nil => exact .pure ⟨some [], by simp, .nil⟩
  | cons node rest ih =>
    refine .bind (each node (by simp)) (fun value calls first => ?_) fun calls broken =>
      ⟨none, rfl, .first broken⟩
    have others := ih (fun other member => each other (by simp [member])) (value :: done)
    intro store initial
    obtain ⟨more, state, after, conducted, own?, same, traces⟩ := others store initial
    refine ⟨more, state, after, conducted, own?.map (value :: ·), ?_, .next first traces⟩
    rw [same]
    cases own? <;> simp

private theorem leaf_makes (context : Context σ) (evaluate : Nat → Node → Action σ Value)
    (source : Nat) (atom : Atom) (span : Span) :
    Makes host environment (Traces natives environment (.leaf atom span))
      (step context evaluate source (.leaf atom span)) := by
  refine .of_same fun store same => ?_
  have found (name : String) : (Action.lookup name : Action σ (Option Value)) store =
      (.ok (environment.find? name), store) := by rw [← same]; rfl
  have traced : Traces natives environment (.leaf atom span) (atom.value? environment) [] :=
    .atom atom span
  cases atom with
  | number value => exact ⟨rfl, traced⟩
  | boolean value => exact ⟨rfl, traced⟩
  | string text =>
    rw [step, bind_of_ok (found text)]
    exact ⟨rfl, traced⟩
  | symbol name =>
    rw [step, bind_of_ok (found name)]
    rw [Atom.value?] at traced
    cases value : environment.find? name with
    | none =>
      rw [value] at traced
      exact ⟨rfl, traced⟩
    | some value =>
      rw [value] at traced
      exact ⟨rfl, traced⟩

theorem evaluateWithin_makes (context : Context σ) (environment : Environment) (remaining : Nat) :
    ∀ (source : Nat) (node : Node), node.CallsOnly context.natives →
      Makes context.host environment (Traces context.natives environment node)
        (evaluateWithin context remaining source node) := by
  induction remaining with
  | zero => exact fun source node _ => .fail (.tooDeep node)
  | succ remaining ih =>
    intro source node plain
    match node with
    | .leaf atom span => exact leaf_makes context _ source atom span
    | .list [] span => exact .pure (.empty span)
    | .list (head :: operands) span =>
      obtain ⟨name, named, ordinary, listed⟩ := plain head operands span .self
      obtain ⟨native, found⟩ := Option.isSome_iff_exists.mp listed
      have form : head.symbol?.bind SpecialForm.ofName? = none := by
        rw [named]
        exact ordinary
      have chosen : Makes context.host environment
          (fun procedure? calls => procedure? = some (.native native) ∧ calls = [])
          (callee context.natives (evaluateWithin context remaining source) head) := by
        rw [callee, named, Option.bind_some, found]
        exact .pure ⟨rfl, rfl⟩
      have arguments :=
        evaluateEach_makes (fun node member => ih source node (plain.operand member)) []
      rw [evaluateWithin, step, form]
      refine .bind chosen ?called fun calls broken => absurd broken.1 (by simp)
      rintro procedure _ ⟨same, rfl⟩
      cases same
      refine .bind arguments ?given ?broken
      case broken =>
        rintro calls ⟨own?, same, traces⟩
        obtain rfl : own? = none := by simpa [eq_comm] using same
        exact .operand named traces
      case given =>
        rintro values calls ⟨own?, same, traces⟩
        obtain rfl : own? = some values := by
          cases own? <;> simp_all
        intro store initial
        obtain ⟨more, state, after, conducted, outcome, answer, rfl⟩ :=
          callNative_makes native values span store initial
        refine ⟨_, state, after, conducted, ?_⟩
        rw [apply, answer]
        exact .called named found traces outcome

/-- The natives that an expression calls, if all of its lists are calls of natives, and `if`,
`cond`, `and` and `or` are among these. With an answer, they are called once for each list, from the
left to the right and from the inside to the outside; with a failure, for the first lists in that
order. The variables stay as they are. -/
theorem evaluate_calls_in_postorder (context : Context σ) (remaining source : Nat) (node : Node)
    (store : Store σ) (plain : node.CallsOnly context.natives) :
    ∃ calls : List NativeCall,
      (evaluateWithin context remaining source node store).2.environment = store.environment ∧
      (evaluateWithin context remaining source node store).2.events =
        (calls.map NativeCall.event).reverse ++ store.events ∧
      Conducted context.host store.host calls
        (evaluateWithin context remaining source node store).2.host ∧
      (∀ value, (evaluateWithin context remaining source node store).1 = .ok value →
        Traces context.natives store.environment node (some value) calls ∧
          List.Forall₂ (NativeCall.IsOf context.natives) node.postorder calls) ∧
      (∀ error, (evaluateWithin context remaining source node store).1 = .error error →
        Traces context.natives store.environment node none calls ∧
          ∃ made, made <+: node.postorder ∧
            List.Forall₂ (NativeCall.IsOf context.natives) made calls) := by
  obtain ⟨calls, state, after, conducted, traces⟩ :=
    evaluateWithin_makes context store.environment remaining source node plain store rfl
  refine ⟨calls, by rw [after], by rw [after], by rwa [after], fun value same => ?_,
    fun error same => ?_⟩
  · rw [same] at traces
    obtain ⟨made, left, whole, pairs, complete⟩ := traces.follows
    rw [complete rfl, List.append_nil] at whole
    rw [whole]
    exact ⟨traces, pairs⟩
  · rw [same] at traces
    obtain ⟨made, left, whole, pairs, _⟩ := traces.follows
    exact ⟨traces, made, ⟨left, whole.symm⟩, pairs⟩

/-- Both branches are called before `if` is, and it picks between their answers. -/
theorem evaluate_calls_in_postorder_of_branches :
    let name (text : String) : Node := .leaf (.symbol text) ⟨0, 1⟩
    let first : Node := .list [name "not", name "b"] ⟨4, 11⟩
    let second : Node := .list [name "list", name "b"] ⟨12, 20⟩
    let node : Node := .list [name "if", name "b", first, second] ⟨0, 21⟩
    let context : Context Unit := ⟨Host.none, .builtins, 128⟩
    let store : Store Unit := ⟨Table.empty.insert "b" (.boolean true), (), 0, []⟩
    node.CallsOnly context.natives ∧ node.postorder = [first, second, node] ∧
      (evaluate context 1 node store).1 = .ok (.boolean false) ∧
      ∃ calls : List NativeCall,
        (evaluate context 1 node store).2.events = (calls.map NativeCall.event).reverse ∧
        calls.map NativeCall.event =
          [.nativeCalled Builtin.not.native [.boolean true] ⟨4, 11⟩,
            .nativeCalled Builtin.list.native [.boolean true] ⟨12, 20⟩,
            .nativeCalled Builtin.choose.native
              [.boolean true, .boolean false, .list [.boolean true]] ⟨0, 21⟩] ∧
        List.Forall₂ (NativeCall.IsOf context.natives) node.postorder calls := by
  intro name first second node context store
  have operandsPlain (operands : List Node) (only : ∀ operand ∈ operands, operand = name "b") :
      ∀ operand ∈ operands, operand.CallsOnly context.natives := by
    intro operand member
    rw [only operand member]
    exact .leaf _ _
  have plain : node.CallsOnly context.natives := by
    refine .list "if" rfl rfl rfl fun operand member => ?_
    have parts : operand = name "b" ∨ operand = first ∨ operand = second := by simpa using member
    rcases parts with rfl | rfl | rfl
    · exact .leaf _ _
    · exact .list "not" rfl rfl rfl (operandsPlain _ (by simp))
    · exact .list "list" rfl rfl rfl (operandsPlain _ (by simp))
  have answered : (evaluate context 1 node store).1 = .ok (.boolean false) := rfl
  obtain ⟨calls, _, events, _, complete, _⟩ :=
    evaluate_calls_in_postorder context 128 1 node store plain
  have noted : (evaluate context 1 node store).2.events =
      (calls.map NativeCall.event).reverse := by
    rw [← List.append_nil (List.reverse _)]
    exact events
  refine ⟨plain, rfl, answered, calls, noted, ?_, (complete _ answered).2⟩
  rw [← List.reverse_reverse (calls.map NativeCall.event), ← noted]
  rfl

end Eval
end EagerLisp
