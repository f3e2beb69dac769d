import EagerLisp.Proofs.Eval.Passing
import EagerLisp.Proofs.Value.Same

/-! Which procedures there are. Evaluation makes closures one after the other, and a ledger lists
them in that order, so that the mark of each is its place. Every procedure in a store is listed or
came from outside. A ledger only grows, at its end, while values that were met before stay where
they are, so what is known of a value is said of a ledger and holds of every longer one. -/
namespace EagerLisp

variable {σ : Type}

/-- One and the same procedure: two closures if nothing differs, two natives if they run the same
builtin or the host's procedure of one number, which stands for one allocation, whatever they are
called. -/
def Procedure.Identical : Procedure → Procedure → Prop
  | .native first, .native second => first.action = second.action
  | .closure first, .closure second => first = second
  | _, _ => False

/-- What comes from outside: the procedures that the host gives out, and those that a state of the
host holds on to. The host marks its closures itself, and it marks no two of them the same. -/
structure Outside (σ : Type) where
  gives : Procedure → Prop
  carries : σ → Procedure → Prop
  given : ∀ closure, gives (.closure closure) → ∃ index, closure.mark = .given index
  apart : ∀ first second : Closure, gives (.closure first) → gives (.closure second) →
    first.mark = second.mark → first = second

/-- A host that gives out its own procedures, and of the others those that it was given. -/
structure Host.PassesOn (host : Host σ) (outside : Outside σ) : Prop where
  answers : ∀ index arguments span state value procedure,
    (host.call index arguments span state).1 = .ok value → value.Has procedure →
      Builtin.AnyHas procedure arguments ∨ outside.carries state procedure ∨
        outside.gives procedure
  keeps : ∀ index arguments span state procedure,
    outside.carries (host.call index arguments span state).2 procedure →
      Builtin.AnyHas procedure arguments ∨ outside.carries state procedure ∨
        outside.gives procedure

/-- The closure at each place has that place for a mark. -/
def Marked (made : List Closure) : Prop :=
  ∀ (index : Nat) (closure : Closure), made[index]? = some closure → closure.mark = .made index

private theorem Marked.snoc {made : List Closure} (marked : Marked made) {closure : Closure}
    (mark : closure.mark = .made made.length) : Marked (made ++ [closure]) := by
  intro index other found
  rcases Nat.lt_or_ge index made.length with before | behind
  · rw [List.getElem?_append_left before] at found
    exact marked index other found
  · rw [List.getElem?_append_right behind, List.getElem?_singleton] at found
    split at found
    case isTrue last =>
      cases found
      rw [mark, Nat.le_antisymm behind (Nat.sub_eq_zero_iff_le.mp last)]
    case isFalse => cases found

/-- The procedure came from outside, or it is one of the closures that evaluation has made. -/
def Procedure.KnownTo (outside : Outside σ) (made : List Closure) (procedure : Procedure) : Prop :=
  outside.gives procedure ∨ ∃ closure ∈ made, procedure = .closure closure

/-- Every procedure in the value is known. -/
def Value.KnownTo (outside : Outside σ) (made : List Closure) (value : Value) : Prop :=
  ∀ procedure, value.Has procedure → procedure.KnownTo outside made

section KnownTo

variable {outside : Outside σ} {made later : List Closure}

theorem Procedure.KnownTo.grow {procedure : Procedure} (known : procedure.KnownTo outside made)
    (grows : made <+: later) : procedure.KnownTo outside later := by
  rcases known with foreign | ⟨closure, member, same⟩
  · exact .inl foreign
  · exact .inr ⟨closure, grows.subset member, same⟩

private theorem Closure.eq_of_mark {first second : Closure} (marked : Marked made)
    (known : (Procedure.closure first).KnownTo outside made)
    (other : (Procedure.closure second).KnownTo outside made) (marks : first.mark = second.mark) :
    first = second := by
  -- The marks of closures from outside and of those made here are of two sorts.
  have mixed {foreign own : Closure} (given : outside.gives (.closure foreign))
      (member : own ∈ made) : foreign.mark ≠ own.mark := by
    obtain ⟨number, mark⟩ := outside.given foreign given
    obtain ⟨index, found⟩ := List.mem_iff_getElem?.mp member
    rw [mark, marked index own found]
    simp
  rcases known with given | ⟨_, member, same⟩
  · rcases other with strange | ⟨_, member, same⟩
    · exact outside.apart first second given strange marks
    · cases same
      exact absurd marks (mixed given member)
  · cases same
    rcases other with strange | ⟨_, present, same⟩
    · exact absurd marks.symm (mixed strange member)
    · cases same
      obtain ⟨index, found⟩ := List.mem_iff_getElem?.mp member
      obtain ⟨place, beside⟩ := List.mem_iff_getElem?.mp present
      rw [marked index first found, marked place second beside, ClosureMark.made.injEq] at marks
      subst marks
      exact Option.some.inj (found.symm.trans beside)

/-- Known procedures are equal only if they are one and the same. -/
theorem Procedure.KnownTo.same_iff {first second : Procedure} (marked : Marked made)
    (known : first.KnownTo outside made) (other : second.KnownTo outside made) :
    first.same second = true ↔ first.Identical second := by
  cases first with
  | native native =>
    cases second with
    | native twin => exact decide_eq_true_iff
    | closure twin => exact iff_of_false Bool.false_ne_true id
  | closure closure =>
    cases second with
    | native twin => exact iff_of_false Bool.false_ne_true id
    | closure twin =>
      refine decide_eq_true_iff.trans ⟨closure.eq_of_mark marked known other, ?_⟩
      exact congrArg Closure.mark

namespace Value

theorem KnownTo.grow {value : Value} (known : value.KnownTo outside made)
    (grows : made <+: later) : value.KnownTo outside later :=
  fun procedure inside => (known procedure inside).grow grows

theorem knownTo_ofNode (node : Node) : (ofNode node).KnownTo outside made :=
  fun _ inside => absurd inside (not_has_ofNode node)

theorem knownTo_nil : nil.KnownTo outside made := by
  intro procedure inside
  cases inside

private theorem knownTo_procedure {procedure : Procedure} :
    (Value.procedure procedure).KnownTo outside made ↔ procedure.KnownTo outside made := by
  constructor
  · exact fun known => known procedure .self
  · intro known other inside
    cases has_procedure inside
    exact known

private theorem knownTo_of_anyHas {arguments : List Value} {procedure : Procedure}
    (known : ∀ argument ∈ arguments, argument.KnownTo outside made)
    (inside : Builtin.AnyHas procedure arguments) : procedure.KnownTo outside made := by
  obtain ⟨argument, member, deeper⟩ := inside
  exact known argument member procedure deeper

end Value
end KnownTo

/-- The procedure is around: in the value of a variable, in one that something happened to, as to
the arguments of every call, or with the host. -/
inductive Store.Has (carries : σ → Procedure → Prop) (store : Store σ) (procedure : Procedure) :
    Prop where
  | bound {name : String} {value : Value} (found : store.environment.find? name = some value)
      (inside : value.Has procedure)
  | noted {event : Event} {value : Value} (happened : event ∈ store.events)
      (about : value ∈ event.values) (inside : value.Has procedure)
  | carried (carried : carries store.host procedure)

/-- The closures that have been made, in order, account for every procedure that is around. -/
structure Ledger (outside : Outside σ) (made : List Closure) (store : Store σ) : Prop where
  length : made.length = store.closures
  marked : Marked made
  known : ∀ procedure, store.Has outside.carries procedure → procedure.KnownTo outside made

namespace Ledger

variable {outside : Outside σ} {made later : List Closure} {store after : Store σ}

theorem value (ledger : Ledger outside made store) {name : String} {value : Value}
    (found : store.environment.find? name = some value) : value.KnownTo outside made :=
  fun procedure inside => ledger.known procedure (.bound found inside)

theorem record (ledger : Ledger outside made store) {event : Event}
    (values : ∀ value ∈ event.values, value.KnownTo outside made) :
    Ledger outside made { store with events := event :: store.events } := by
  refine ⟨ledger.length, ledger.marked, fun procedure has => ?_⟩
  cases has with
  | bound found inside => exact ledger.known procedure (.bound found inside)
  | carried carried => exact ledger.known procedure (.carried carried)
  | noted happened about inside =>
    rcases List.mem_cons.mp happened with rfl | earlier
    · exact values _ about procedure inside
    · exact ledger.known procedure (.noted earlier about inside)

theorem withEnvironment (ledger : Ledger outside made store) {environment : Environment}
    (values : ∀ name value, environment.find? name = some value → value.KnownTo outside made) :
    Ledger outside made { store with environment } := by
  refine ⟨ledger.length, ledger.marked, fun procedure has => ?_⟩
  cases has with
  | bound found inside => exact values _ _ found procedure inside
  | noted happened about inside => exact ledger.known procedure (.noted happened about inside)
  | carried carried => exact ledger.known procedure (.carried carried)

theorem insert (ledger : Ledger outside made store) (name : String) {value : Value}
    (known : value.KnownTo outside made) :
    Ledger outside made { store with environment := store.environment.insert name value } := by
  refine ledger.withEnvironment fun other found same => ?_
  rw [Table.find?_insert] at same
  split at same
  · cases same
    exact known
  · exact ledger.value same

theorem bindParameters (ledger : Ledger outside made store) {parameters : List String}
    {arguments : List Value} (known : ∀ argument ∈ arguments, argument.KnownTo outside made) :
    Ledger outside made { store with
      environment := Eval.bindParameters parameters arguments store.environment } := by
  refine ledger.withEnvironment fun name value found => ?_
  rcases Eval.find?_bindParameters found with rfl | member | earlier
  · exact Value.knownTo_nil
  · exact known value member
  · exact ledger.value earlier

theorem entering (ledger : Ledger outside made store) (closure : Closure) {arguments : List Value}
    (known : ∀ argument ∈ arguments, argument.KnownTo outside made) :
    Ledger outside made (store.entering closure arguments) := by
  have noted : Ledger outside made { store with
      events := .closureCalled closure arguments :: store.events } := ledger.record known
  exact noted.bindParameters known

/-- Variables put back from an earlier store into one that a longer ledger accounts for. -/
theorem restore (ledger : Ledger outside made store) (grows : made <+: later)
    (reached : Ledger outside later after) :
    Ledger outside later { after with environment := store.environment } :=
  reached.withEnvironment fun _ _ found => (ledger.value found).grow grows

private theorem host (ledger : Ledger outside made store) {state : σ}
    (known : ∀ procedure, outside.carries state procedure → procedure.KnownTo outside made) :
    Ledger outside made { store with host := state } := by
  refine ⟨ledger.length, ledger.marked, fun procedure has => ?_⟩
  cases has with
  | bound found inside => exact ledger.known procedure (.bound found inside)
  | noted happened about inside => exact ledger.known procedure (.noted happened about inside)
  | carried carried => exact known procedure carried

private theorem makeClosure (ledger : Ledger outside made store) {closure : Closure}
    (mark : closure.mark = .made store.closures) :
    Ledger outside (made ++ [closure]) { store with closures := store.closures + 1 } := by
  refine ⟨?_, ledger.marked.snoc (by rw [mark, ledger.length]), fun procedure has => ?_⟩
  · rw [List.length_append, ledger.length, List.length_singleton]
  · have around : store.Has outside.carries procedure := by
      cases has with
      | bound found inside => exact .bound found inside
      | noted happened about inside => exact .noted happened about inside
      | carried carried => exact .carried carried
    exact (ledger.known procedure around).grow (List.prefix_append ..)

end Ledger

namespace Action

variable {α β : Type} {outside : Outside σ} {made : List Closure}

/-- From a store that the ledger accounts for, the action leads to one that a ledger accounts for
which goes on from there, and an answer has the property asked of it with that ledger. -/
def Extends (outside : Outside σ) (made : List Closure) (answers : List Closure → α → Prop)
    (action : Action σ α) : Prop :=
  ∀ store, Ledger outside made store → ∃ later, made <+: later ∧
    Ledger outside later (action store).2 ∧
      ∀ value, (action store).1 = .ok value → answers later value

variable {answers : List Closure → α → Prop} {results : List Closure → β → Prop}

theorem Extends.pure {value : α} (answer : answers made value) :
    Extends outside made answers (Pure.pure value : Action σ α) := by
  intro store ledger
  refine ⟨made, List.prefix_rfl, ledger, fun other same => ?_⟩
  cases same
  exact answer

theorem Extends.bind {action : Action σ α} {next : α → Action σ β}
    (first : Extends outside made answers action)
    (second : ∀ later value, made <+: later → answers later value →
      Extends outside later results (next value)) :
    Extends outside made results (action >>= next) := by
  intro store ledger
  obtain ⟨middle, grows, reached, met⟩ := first store ledger
  cases same : action store with
  | mk outcome after =>
    rw [same] at reached met
    cases outcome with
    | ok value =>
      rw [bind_of_ok same]
      obtain ⟨later, further, ledger, met⟩ :=
        second middle value grows (met value rfl) after reached
      exact ⟨later, grows.trans further, ledger, met⟩
    | error error =>
      rw [bind_of_error same]
      exact ⟨middle, grows, reached, fun _ same => by cases same⟩

theorem Extends.of_ok {action : Action σ α} (leads : Extends outside made answers action)
    {store after : Store σ} {value : α} (ledger : Ledger outside made store)
    (same : action store = (.ok value, after)) :
    ∃ later, made <+: later ∧ Ledger outside later after ∧ answers later value := by
  obtain ⟨later, grows, reached, met⟩ := leads store ledger
  rw [same] at reached met
  exact ⟨later, grows, reached, met value rfl⟩

theorem Extends.ofExcept {outcome : Except EvalError α}
    (met : ∀ value, outcome = .ok value → answers made value) :
    Extends outside made answers (Action.ofExcept outcome : Action σ α) :=
  fun _ ledger => ⟨made, List.prefix_rfl, ledger, met⟩

theorem Extends.checked {outcome : Except EvalError α} :
    Extends outside made (fun _ _ => True) (Action.ofExcept outcome : Action σ α) :=
  .ofExcept fun _ _ => trivial

theorem Extends.fail {cause : EvalCause} {span : Span} :
    Extends outside made answers (Action.fail cause span : Action σ α) :=
  fun _ ledger => ⟨made, List.prefix_rfl, ledger, fun _ same => by cases same⟩

theorem Extends.record {event : Event}
    (values : ∀ value ∈ event.values, value.KnownTo outside made) :
    Extends outside made (fun _ _ => True) (Action.record event : Action σ Unit) :=
  fun _ ledger => ⟨made, List.prefix_rfl, ledger.record values, fun _ _ => trivial⟩

private theorem Extends.lookup {name : String} :
    Extends outside made (fun later value? => ∀ value, value? = some value →
      value.KnownTo outside later) (Action.lookup name : Action σ (Option Value)) := by
  intro store ledger
  refine ⟨made, List.prefix_rfl, ledger, fun value? same value found => ?_⟩
  cases same
  exact ledger.value found

theorem Extends.define {name : String} {value : Value} (known : value.KnownTo outside made) :
    Extends outside made (fun _ _ => True) (Action.define name value : Action σ Unit) :=
  fun _ ledger => ⟨made, List.prefix_rfl, ledger.insert name known, fun _ _ => trivial⟩

private theorem Extends.overlay {parameters : List String} {arguments : List Value}
    (known : ∀ argument ∈ arguments, argument.KnownTo outside made) :
    Extends outside made (fun _ _ => True)
      (Action.overlay (Eval.bindParameters parameters arguments) : Action σ Unit) :=
  fun _ ledger => ⟨made, List.prefix_rfl, ledger.bindParameters known, fun _ _ => trivial⟩

private theorem Extends.makeClosure {name? : Option String} {parameters : List String}
    {body : List Node}
    {source : Nat} : Extends outside made (fun later value => value.KnownTo outside later)
      (Action.makeClosure name? parameters body source : Action σ Value) := by
  intro store ledger
  let closure : Closure := ⟨.made store.closures, name?, parameters, body, source⟩
  refine ⟨made ++ [closure], List.prefix_append .., ledger.makeClosure rfl, fun value same => ?_⟩
  cases same
  exact Value.knownTo_procedure.mpr (.inr ⟨closure, List.mem_concat_self, rfl⟩)

theorem Extends.restoring {action : Action σ α} (inner : Extends outside made answers action) :
    Extends outside made answers (Action.restoring action) := by
  intro store ledger
  obtain ⟨later, grows, reached, met⟩ := inner store ledger
  exact ⟨later, grows, ledger.restore grows reached, met⟩

private theorem Extends.relocating {span : Span} {action : Action σ α}
    (inner : Extends outside made answers action) :
    Extends outside made answers (Action.relocating span action) := by
  intro store ledger
  obtain ⟨later, grows, reached, met⟩ := inner store ledger
  rw [Action.relocating]
  cases same : action store with
  | mk outcome after =>
    rw [same] at reached met
    cases outcome with
    | ok value => exact ⟨later, grows, reached, met⟩
    | error error => exact ⟨later, grows, reached, fun _ same => by cases same⟩

end Action

namespace Eval

open EagerLisp.Action

variable {outside : Outside σ} {made : List Closure} {evaluate : Node → Action σ Value}

/-- An action that answers with a known value. -/
abbrev Discovers (outside : Outside σ) (made : List Closure) (action : Action σ Value) : Prop :=
  Extends outside made (fun later value => value.KnownTo outside later) action

theorem evaluateEach_extends {nodes : List Node}
    (each : ∀ node made, Discovers outside made (evaluate node)) {done : List Value}
    (earlier : ∀ value ∈ done, value.KnownTo outside made) :
    Extends outside made (fun later values => ∀ value ∈ values, value.KnownTo outside later)
      (evaluateEach evaluate done nodes) := by
  induction nodes generalizing made done with
  | nil =>
    refine .pure fun value member => ?_
    exact earlier value (List.mem_reverse.mp member)
  | cons node rest ih =>
    refine .bind (each node made) fun later value grows known => ih fun other member => ?_
    rcases List.mem_cons.mp member with rfl | member
    · exact known
    · exact (earlier other member).grow grows

theorem evaluateBody_extends {nodes : List Node}
    (each : ∀ node made, Discovers outside made (evaluate node)) {last : Value}
    (earlier : last.KnownTo outside made) :
    Discovers outside made (evaluateBody evaluate last nodes) := by
  induction nodes generalizing made last with
  | nil => exact .pure earlier
  | cons node rest ih => exact .bind (each node made) fun later value _ known => ih known

private theorem bindOne_extends {binding : Node}
    (each : ∀ node made, Discovers outside made (evaluate node)) :
    Extends outside made (fun _ _ => True) (bindOne evaluate binding) := by
  unfold bindOne
  split
  case h_1 target valueNode more span =>
    refine .bind .checked fun middle name _ _ => ?_
    refine .bind (each valueNode middle) fun later value _ known => ?_
    refine .bind (.record (by simpa [Event.values])) fun last _ grows _ => ?_
    exact .define (known.grow grows)
  case h_2 => exact .fail

theorem bindEach_extends {bindings : List Node}
    (each : ∀ node made, Discovers outside made (evaluate node)) :
    Extends outside made (fun _ _ => True) (bindEach evaluate bindings) := by
  induction bindings generalizing made with
  | nil => exact .pure trivial
  | cons binding rest ih => exact .bind (bindOne_extends each) fun _ _ _ _ => ih

theorem special_extends {form : SpecialForm} {source : Nat} {operands : List Node} {span : Span}
    (each : ∀ node made, Discovers outside made (evaluate node)) :
    Discovers outside made (special form evaluate source operands span) := by
  cases form with
  | quote =>
    simp only [special, quote]
    split
    · exact .pure (Value.knownTo_ofNode _)
    · exact .fail
  | assign =>
    simp only [special, assign]
    split
    case h_1 target valueNode =>
      refine .bind .checked fun middle name _ _ => ?_
      refine .bind (each valueNode middle) fun later value _ known => ?_
      refine .bind (.record (by simpa [Event.values])) fun last _ grows _ => ?_
      refine .bind (.define (known.grow grows)) fun final _ further _ => ?_
      exact .pure ((known.grow grows).grow further)
    case h_2 => exact .fail
  | define =>
    simp only [special, define]
    split
    case h_1 target parameterList body =>
      refine .bind .checked fun _ name _ _ => ?_
      refine .bind .checked fun _ parameters _ _ => ?_
      refine .bind (.record (by simp [Event.values])) fun _ _ _ _ => ?_
      refine .bind .makeClosure fun later value _ known => ?_
      refine .bind (.define known) fun final _ grows _ => ?_
      exact .pure (known.grow grows)
    case h_2 => exact .fail
  | closure =>
    simp only [special, close]
    split
    · exact .bind .checked fun _ _ _ _ => .makeClosure
    · exact .fail
  | bind =>
    simp only [special, bindLocally]
    split
    · refine .restoring (.bind (bindEach_extends each) fun _ _ _ _ => ?_)
      exact evaluateBody_extends each Value.knownTo_nil
    · exact .fail
    · exact .fail

theorem callee_extends {natives : NativeTable} {head : Node}
    (inner : Discovers outside made (evaluate head)) :
    Extends outside made (fun _ _ => True) (callee natives evaluate head) := by
  unfold callee
  split
  · exact .pure trivial
  · refine .bind inner fun later value _ _ => ?_
    split
    · exact .pure trivial
    · exact .fail

variable {host : Host σ}

private theorem callNative_extends (passesOn : host.PassesOn outside) {native : Native}
    {arguments : List Value} {span : Span}
    (known : ∀ argument ∈ arguments, argument.KnownTo outside made) :
    Discovers outside made (callNative host native arguments span) := by
  refine .bind (.record known) fun later _ grows _ => ?_
  have known (argument : Value) (member : argument ∈ arguments) :=
    (known argument member).grow grows
  split
  case h_1 builtin _ =>
    refine .ofExcept fun value same procedure inside => ?_
    unfold Builtin.call at same
    split at same <;> cases same
    case h_1 answered =>
      exact Value.knownTo_of_anyHas known (Builtin.has_answer builtin answered inside)
  case h_2 index _ =>
    intro store ledger
    -- Whatever the host answers with or holds on to, it was given, or it has it from outside.
    have found (procedure : Procedure) (origin : Builtin.AnyHas procedure arguments ∨
        outside.carries store.host procedure ∨ outside.gives procedure) :
        procedure.KnownTo outside later := by
      rcases origin with given | carried | foreign
      · exact Value.knownTo_of_anyHas known given
      · exact ledger.known procedure (.carried carried)
      · exact .inl foreign
    refine ⟨later, List.prefix_rfl, ledger.host fun procedure carried => ?_, ?_⟩
    · exact found procedure (passesOn.keeps index arguments span store.host procedure carried)
    · intro value same procedure inside
      exact found procedure
        (passesOn.answers index arguments span store.host value procedure same inside)

private theorem callClosure_extends {evaluate : Nat → Node → Action σ Value}
    (each : ∀ source node made, Discovers outside made (evaluate source node)) {closure : Closure}
    {arguments : List Value} (known : ∀ argument ∈ arguments, argument.KnownTo outside made) :
    Discovers outside made (callClosure evaluate closure arguments) := by
  refine .bind (.record known) fun later _ grows _ => .restoring ?_
  refine .bind (.overlay fun argument member => (known argument member).grow grows)
    fun _ _ _ _ => ?_
  exact evaluateBody_extends (each closure.source) Value.knownTo_nil

theorem apply_extends (passesOn : host.PassesOn outside) {evaluate : Nat → Node → Action σ Value}
    (each : ∀ source node made, Discovers outside made (evaluate source node)) {source : Nat}
    {procedure : Procedure} {arguments : List Value} {span : Span}
    (known : ∀ argument ∈ arguments, argument.KnownTo outside made) :
    Discovers outside made (apply host evaluate source procedure arguments span) := by
  cases procedure with
  | native native => exact callNative_extends passesOn known
  | closure closure =>
    rw [apply]
    split
    · exact callClosure_extends each known
    · exact .relocating (callClosure_extends each known)

variable {context : Context σ}

/-- Every evaluation carries the ledger on, and its answer is known to the longer one. -/
theorem evaluateWithin_extends (passesOn : context.host.PassesOn outside) (remaining : Nat) :
    ∀ (source : Nat) (node : Node) (made : List Closure),
      Discovers outside made (evaluateWithin context remaining source node) := by
  induction remaining with
  | zero => exact fun source node made => .fail
  | succ remaining ih =>
    intro source node made
    rw [evaluateWithin]
    cases node with
    | leaf atom span =>
      cases atom with
      | number value => exact .pure (Value.knownTo_ofNode (.leaf (.number value) span))
      | boolean value => exact .pure (Value.knownTo_ofNode (.leaf (.boolean value) span))
      | string text =>
        refine .bind .lookup fun later value? _ known => .pure ?_
        cases value? with
        | none => exact Value.knownTo_ofNode (.leaf (.string text) span)
        | some value => exact known value rfl
      | symbol name =>
        refine .bind .lookup fun later value? _ known => ?_
        cases value? with
        | none => exact .fail
        | some value => exact .pure (known value rfl)
    | list elements span =>
      cases elements with
      | nil => exact .pure (Value.knownTo_ofNode (.list [] span))
      | cons head operands =>
        rw [step]
        split
        case h_1 form _ => exact special_extends (ih source)
        case h_2 =>
          refine .bind (callee_extends (ih source head made)) fun _ _ _ _ => ?_
          refine .bind (evaluateEach_extends (ih source) (by simp)) fun _ _ _ known => ?_
          exact apply_extends passesOn ih known

/-- What is known when the head and the operands of a call have been evaluated. -/
theorem operands_extend (passesOn : context.host.PassesOn outside) {remaining source : Nat}
    {head : Node} {operands : List Node} {store middle ready : Store σ} {procedure : Procedure}
    {arguments : List Value} (ledger : Ledger outside made store)
    (called : callee context.natives (evaluateWithin context remaining source) head store =
      (.ok procedure, middle))
    (given : evaluateEach (evaluateWithin context remaining source) [] operands middle =
      (.ok arguments, ready)) :
    ∃ later, made <+: later ∧ Ledger outside later ready ∧
      ∀ argument ∈ arguments, argument.KnownTo outside later := by
  have each := evaluateWithin_extends passesOn remaining source
  obtain ⟨middle, grows, ledger, _⟩ := (callee_extends (each head made)).of_ok ledger called
  obtain ⟨later, further, reached⟩ := (evaluateEach_extends each (by simp)).of_ok ledger given
  exact ⟨later, grows.trans further, reached⟩

/-- Where a task begins another one, a longer ledger accounts for what there is. -/
theorem enters_extends (passesOn : context.host.PassesOn outside) {task inner : Task σ}
    (enters : Enters context task inner) (ledger : Ledger outside made task.store) :
    ∃ later, made <+: later ∧ Ledger outside later inner.store := by
  have each (remaining source : Nat) := evaluateWithin_extends passesOn remaining source
  cases enters with
  | head => exact ⟨made, List.prefix_rfl, ledger⟩
  | operand _ called earlier =>
    obtain ⟨later, grows, reached, _⟩ := operands_extend passesOn ledger called earlier
    exact ⟨later, grows, reached⟩
  | body _ called given _ earlier =>
    obtain ⟨ready, grows, ledger, known⟩ := operands_extend passesOn ledger called given
    obtain ⟨later, further, reached, _⟩ :=
      (evaluateBody_extends (each _ _) Value.knownTo_nil).of_ok (ledger.entering _ known) earlier
    exact ⟨later, grows.trans further, reached⟩
  | assigned => exact ⟨made, List.prefix_rfl, ledger⟩
  | bound _ _ earlier =>
    obtain ⟨later, grows, reached, _⟩ := (bindEach_extends (each _ _)).of_ok ledger earlier
    exact ⟨later, grows, reached⟩
  | inBody _ bound earlier =>
    obtain ⟨middle, grows, ledger, _⟩ := (bindEach_extends (each _ _)).of_ok ledger bound
    obtain ⟨later, further, reached, _⟩ :=
      (evaluateBody_extends (each _ _) Value.knownTo_nil).of_ok ledger earlier
    exact ⟨later, grows.trans further, reached⟩

/-- Every store that is passed is accounted for by a ledger that goes on from the first one. -/
theorem passes_extends (passesOn : context.host.PassesOn outside) {task : Task σ} {state : Store σ}
    (passes : Passes context task state) (ledger : Ledger outside made task.store) :
    ∃ later, made <+: later ∧ Ledger outside later state := by
  have each (remaining source : Nat) := evaluateWithin_extends passesOn remaining source
  induction passes generalizing made with
  | start => exact ⟨made, List.prefix_rfl, ledger⟩
  | finish task =>
    obtain ⟨later, grows, reached, _⟩ := each _ _ _ made _ ledger
    exact ⟨later, grows, reached⟩
  | parameters _ called given =>
    obtain ⟨ready, grows, ledger, known⟩ := operands_extend passesOn ledger called given
    exact ⟨ready, grows, ledger.entering _ known⟩
  | extended _ bound =>
    obtain ⟨later, grows, reached, _⟩ := (bindEach_extends (each _ _)).of_ok ledger bound
    exact ⟨later, grows, reached⟩
  | inside enters _ ih =>
    obtain ⟨middle, grows, ledger⟩ := enters_extends passesOn enters ledger
    obtain ⟨later, further, reached⟩ := ih ledger
    exact ⟨later, grows.trans further, reached⟩

end Eval
end EagerLisp
