import EagerLisp.Proofs.Eval.Keeping
import EagerLisp.Proofs.Value.Holds

/-! Where closures come from. The source texts are numbered, and a closure carries the number of
the text that its body stands in. Evaluation keeps this true of every closure anywhere in the
store, and places its failures in the text that it evaluates: a closure of that text fails there,
and the failure of any other closure is moved to the call. -/
namespace EagerLisp

/-- The body of the closure stands in the text whose number the closure carries. -/
def Closure.WrittenIn (texts : Nat → List Node) (closure : Closure) : Prop :=
  ∀ node ∈ closure.body, node.Among (texts closure.source)

/-- Every closure in the value is written in the texts. -/
def Value.WrittenIn (texts : Nat → List Node) (value : Value) : Prop :=
  ∀ closure, value.Holds closure → closure.WrittenIn texts

/-- The error stands where one of the expressions, or one inside them, stands. -/
def EvalError.PlacedIn (nodes : List Node) (error : EvalError) : Prop :=
  ∃ node : Node, node.Among nodes ∧ error.span = node.span

/-- A host that places its errors at the call, and gives back no closures but those that it was
given. `carries` tells which closures its state holds on to. -/
structure Host.Faithful {σ : Type} (host : Host σ) (carries : σ → Closure → Prop) : Prop where
  places : ∀ index arguments span state error,
    (host.call index arguments span state).1 = .error error → error.span = span
  answers : ∀ index arguments span state value closure,
    (host.call index arguments span state).1 = .ok value → value.Holds closure →
      Builtin.AnyHolds closure arguments ∨ carries state closure
  keeps : ∀ index arguments span state closure,
    carries (host.call index arguments span state).2 closure →
      Builtin.AnyHolds closure arguments ∨ carries state closure

/-- Every closure that the variables hold or the host carries is written in the texts, and so is
every one that was passed to a procedure or assigned. -/
structure Store.WrittenIn {σ : Type} (carries : σ → Closure → Prop) (texts : Nat → List Node)
    (store : Store σ) : Prop where
  environment : ∀ name value, store.environment.find? name = some value → value.WrittenIn texts
  carried : ∀ closure, carries store.host closure → closure.WrittenIn texts
  noted : ∀ event ∈ store.events, ∀ value ∈ event.values, value.WrittenIn texts

variable {σ : Type} {carries : σ → Closure → Prop} {texts : Nat → List Node}

namespace Value

theorem writtenIn_ofNode (node : Node) : (Value.ofNode node).WrittenIn texts :=
  fun _ holds => absurd holds (not_has_ofNode node)

theorem writtenIn_nil : Value.nil.WrittenIn texts := by
  intro closure holds
  cases holds

theorem writtenIn_procedure {closure : Closure} :
    (Value.procedure (.closure closure)).WrittenIn texts ↔ closure.WrittenIn texts := by
  constructor
  · intro written
    exact written closure .self
  · intro written other holds
    cases has_procedure holds
    exact written

theorem writtenIn_of_anyHolds {arguments : List Value} {closure : Closure}
    (written : ∀ argument ∈ arguments, argument.WrittenIn texts)
    (holds : Builtin.AnyHolds closure arguments) : closure.WrittenIn texts := by
  obtain ⟨argument, member, inside⟩ := holds
  exact written argument member closure inside

end Value

namespace Store.WrittenIn

variable {store : Store σ}

theorem record (written : store.WrittenIn carries texts) {event : Event}
    (good : ∀ value ∈ event.values, value.WrittenIn texts) :
    Store.WrittenIn carries texts { store with events := event :: store.events } := by
  refine ⟨written.environment, written.carried, fun other member => ?_⟩
  rcases List.mem_cons.mp member with rfl | earlier
  · exact good
  · exact written.noted other earlier

theorem insert (written : store.WrittenIn carries texts) (name : String) {value : Value}
    (good : value.WrittenIn texts) :
    Store.WrittenIn carries texts
      { store with environment := store.environment.insert name value } := by
  refine ⟨fun other found same => ?_, written.carried, written.noted⟩
  rw [Table.find?_insert] at same
  split at same
  · cases same
    exact good
  · exact written.environment other found same

private theorem bindParameters (written : store.WrittenIn carries texts) {parameters : List String}
    {arguments : List Value} (good : ∀ argument ∈ arguments, argument.WrittenIn texts) :
    Store.WrittenIn carries texts { store with
      environment := Eval.bindParameters parameters arguments store.environment } := by
  refine ⟨fun name value found => ?_, written.carried, written.noted⟩
  rcases Eval.find?_bindParameters found with empty | member | earlier
  · subst empty
    exact Value.writtenIn_nil
  · exact good value member
  · exact written.environment name value earlier

theorem restore {after : Store σ} (written : store.WrittenIn carries texts)
    (later : after.WrittenIn carries texts) :
    Store.WrittenIn carries texts { after with environment := store.environment } :=
  ⟨written.environment, later.carried, later.noted⟩

end Store.WrittenIn

namespace Eval

open EagerLisp.Action

variable {host : Host σ} {evaluate : Nat → Node → Action σ Value}

private theorem meets_builtin_call {source : Nat} (builtin : Builtin) {arguments : List Value}
    {span : Span} (good : ∀ argument ∈ arguments, argument.WrittenIn texts)
    (whole : ∀ cause, EvalError.PlacedIn (texts source) ⟨cause, span⟩) :
    Meets (Value.WrittenIn texts) (EvalError.PlacedIn (texts source))
      (builtin.call arguments span) := by
  unfold Builtin.call
  split
  case h_1 value same =>
    intro closure holds
    exact Value.writtenIn_of_anyHolds good (Builtin.has_answer builtin same holds)
  case h_2 => exact whole _

private theorem meets_host_call (faithful : host.Faithful carries) {source index : Nat}
    {arguments : List Value} {span : Span} {store : Store σ}
    (good : ∀ argument ∈ arguments, argument.WrittenIn texts)
    (whole : ∀ cause, EvalError.PlacedIn (texts source) ⟨cause, span⟩)
    (written : store.WrittenIn carries texts) :
    Store.WrittenIn carries texts
        { store with host := (host.call index arguments span store.host).2 } ∧
      Meets (Value.WrittenIn texts) (EvalError.PlacedIn (texts source))
        (host.call index arguments span store.host).1 := by
  constructor
  · refine ⟨written.environment, fun closure carried => ?_, written.noted⟩
    rcases faithful.keeps index arguments span store.host closure carried with given | before
    · exact Value.writtenIn_of_anyHolds good given
    · exact written.carried closure before
  · cases same : (host.call index arguments span store.host).1 with
    | error error =>
      have placed := faithful.places index arguments span store.host error same
      obtain ⟨node, among, here⟩ := whole error.cause
      exact ⟨node, among, placed.trans here⟩
    | ok value =>
      intro closure holds
      rcases faithful.answers index arguments span store.host value closure same holds with
        given | before
      · exact Value.writtenIn_of_anyHolds good given
      · exact written.carried closure before

private theorem callClosure_provenance {closure : Closure} {arguments : List Value}
    (inner : ∀ node : Node, node.Among (texts closure.source) →
      Keeps (Store.WrittenIn carries texts) (Value.WrittenIn texts)
        (EvalError.PlacedIn (texts closure.source)) (evaluate closure.source node))
    (written : closure.WrittenIn texts)
    (good : ∀ argument ∈ arguments, argument.WrittenIn texts) :
    Keeps (Store.WrittenIn carries texts) (Value.WrittenIn texts)
      (EvalError.PlacedIn (texts closure.source)) (callClosure evaluate closure arguments) := by
  refine callClosure_keeps (fun node member => inner node (written node member)) ?_ good ?_ ?_
    Value.writtenIn_nil
  · intro event store values initial
    exact initial.record values
  · intro store initial
    exact initial.bindParameters good
  · intro store after initial later
    exact initial.restore later

/-- A call keeps the provenance of closures and fails in the text that it is made from: inside the
body of a closure of this text, and otherwise at the call. -/
theorem apply_provenance (faithful : host.Faithful carries)
    (inner : ∀ (source : Nat) (node : Node), node.Among (texts source) →
      Keeps (Store.WrittenIn carries texts) (Value.WrittenIn texts)
        (EvalError.PlacedIn (texts source)) (evaluate source node))
    {source : Nat} {procedure : Procedure} {arguments : List Value} {span : Span}
    (called : (Value.procedure procedure).WrittenIn texts)
    (good : ∀ argument ∈ arguments, argument.WrittenIn texts)
    (whole : ∀ cause, EvalError.PlacedIn (texts source) ⟨cause, span⟩) :
    Keeps (Store.WrittenIn carries texts) (Value.WrittenIn texts)
      (EvalError.PlacedIn (texts source))
      (apply host evaluate source procedure arguments span) := by
  cases procedure with
  | native native =>
    refine callNative_keeps (fun event store values initial => initial.record values) good ?_ ?_
    · intro builtin
      exact meets_builtin_call builtin good whole
    · intro index store _ initial
      exact meets_host_call faithful good whole initial
  | closure closure =>
    have written := Value.writtenIn_procedure.mp called
    have body := callClosure_provenance (inner closure.source) written good
    rw [apply]
    split
    case isTrue same =>
      rw [same]
      exact body
    case isFalse =>
      refine .relocating body fun error _ => ?_
      exact whole error.cause

private theorem covers_of_among {node : Node} {source : Nat} (among : node.Among (texts source)) :
    Covers (EvalError.PlacedIn (texts source)) node :=
  fun inner within _ => ⟨inner, within.among among, rfl⟩

private theorem recordKeeps :
    RecordKeeps (Store.WrittenIn carries texts : Store σ → Prop) (Value.WrittenIn texts) :=
  fun _ _ values initial => initial.record values

section Forms

variable {source : Nat} {head : Node} {operands : List Node} {span : Span}
  (among : (Node.list (head :: operands) span).Among (texts source))

include among

private theorem special_provenance {form : SpecialForm} {evaluate : Node → Action σ Value}
    (inner : ∀ node : Node, node.Among (texts source) →
      Keeps (Store.WrittenIn carries texts) (Value.WrittenIn texts)
        (EvalError.PlacedIn (texts source)) (evaluate node)) :
    Keeps (Store.WrittenIn carries texts) (Value.WrittenIn texts)
      (EvalError.PlacedIn (texts source)) (special form evaluate source operands span) := by
  have covers := covers_of_among among
  have inside (operand : Node) (member : operand ∈ operands) : operand ∈ head :: operands :=
    List.mem_cons_of_mem _ member
  have operandCovers (operand : Node) (member : operand ∈ operands) :=
    covers.element (inside operand member)
  have further (node : Node) (deeper : node.Among operands) : node.Among (texts source) := by
    obtain ⟨operand, member, within⟩ := deeper
    exact (within.trans (.of_mem (inside operand member))).among among
  have changed (name : String) (value : Value) (store : Store σ) (good : value.WrittenIn texts)
      (initial : store.WrittenIn carries texts) := initial.insert name good
  have counted (store : Store σ) (initial : store.WrittenIn carries texts) :
      Store.WrittenIn carries texts { store with closures := store.closures + 1 } :=
    ⟨initial.environment, initial.carried, initial.noted⟩
  have made (body : List Node) (part : ∀ node ∈ body, node ∈ operands) (mark : ClosureMark)
      (name? : Option String) (parameters : List String) :
      (Value.procedure (.closure ⟨mark, name?, parameters, body, source⟩)).WrittenIn texts :=
    Value.writtenIn_procedure.mpr fun node member => further node (.of_mem (part node member))
  cases form with
  | quote => exact quote_keeps Value.writtenIn_ofNode covers.here
  | assign =>
    refine assign_keeps ?_ recordKeeps ?_ operandCovers covers.here
    · intro target valueNode pair
      exact inner valueNode (further valueNode (.of_mem (by simp [pair])))
    · intro target valueNode name value store _ _
      exact changed name value store
  | define =>
    refine define_keeps recordKeeps counted ?_ ?_ operandCovers covers.here
    · intro target parameterList body parts
      exact made body fun node member => by simp [parts, member]
    · intro target parameterList body name value store _ _
      exact changed name value store
  | closure =>
    refine close_keeps counted ?_ operandCovers covers.here
    intro parameterList body parts
    exact made body fun node member => by simp [parts, member]
  | bind =>
    refine bindLocally_keeps (fun node deeper => inner node (further node deeper)) recordKeeps
      changed ?_ Value.writtenIn_nil operandCovers covers.here
    intro store after initial later
    exact initial.restore later

private theorem call_provenance {context : Context σ} (faithful : context.host.Faithful carries)
    (inner : ∀ (source : Nat) (node : Node), node.Among (texts source) →
      Keeps (Store.WrittenIn carries texts) (Value.WrittenIn texts)
        (EvalError.PlacedIn (texts source)) (evaluate source node)) :
    Keeps (Store.WrittenIn carries texts) (Value.WrittenIn texts)
      (EvalError.PlacedIn (texts source)) (call context evaluate source head operands span) := by
  have covers := covers_of_among among
  have element (node : Node) (member : node ∈ head :: operands) : node.Among (texts source) :=
    (Node.Within.of_mem member).among among
  have operator := inner source head (element head (by simp))
  have callable (name : String) (native : Native)
      (_ : context.natives.find? name = some native) :
      (Value.procedure (.native native)).WrittenIn texts := by
    intro closure holds
    cases Value.has_procedure holds
  refine .bind (callee_keeps callable operator (fun _ called => called)
    (covers.element (by simp))) fun procedure called => ?_
  have arguments (node : Node) (member : node ∈ operands) :=
    inner source node (element node (List.mem_cons_of_mem _ member))
  refine .bind (evaluateEach_keeps arguments (by simp)) fun values good => ?_
  exact apply_provenance faithful inner called good covers.here

end Forms

/-- Evaluation keeps the provenance of closures and fails in the text that it evaluates, however
the calls in between go back and forth between the texts. -/
theorem evaluateWithin_provenance {context : Context σ}
    (faithful : context.host.Faithful carries) (remaining : Nat) :
    ∀ (source : Nat) (node : Node), node.Among (texts source) →
      Keeps (Store.WrittenIn carries texts) (Value.WrittenIn texts)
        (EvalError.PlacedIn (texts source)) (evaluateWithin context remaining source node) := by
  induction remaining with
  | zero =>
    intro source node among
    exact .fail ⟨node, among, rfl⟩
  | succ remaining ih =>
    intro source node among
    refine step_keeps Value.writtenIn_ofNode (fun store name value initial =>
      initial.environment name value) (covers_of_among among) ?forms ?calls
    case forms =>
      intro head operands span form same _
      subst same
      exact special_provenance among fun inner deeper => ih source inner deeper
    case calls =>
      intro head operands span same _
      subst same
      exact call_provenance among faithful ih

end Eval
end EagerLisp
