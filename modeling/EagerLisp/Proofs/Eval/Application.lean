import EagerLisp.Proofs.Eval.Mention
import EagerLisp.Proofs.Eval.Nesting

/-! Binding by application. A `let` with one binding does what the call of a closure does that is
written at the head of the call and has the variable for its parameter: both evaluate the value
first, at one depth, and then the body where the variable has that value. The call makes a closure
on the way, so the marks of later closures are one higher, and it keeps what the value has changed.
-/
namespace EagerLisp

/-- Where the call of a closure written at its head stands: the keyword of the closure, its list of
parameters, the closure and the whole of the call. -/
structure ApplicationPlace where
  keyword : Span
  parameters : Span
  closure : Span
  whole : Span

namespace Node

/-- The form `(lambda (x) b ...)`. -/
def lambdaForm (place : ApplicationPlace) (parameter : Node) (body : List Node) : Node :=
  .list (.leaf (.symbol "lambda") place.keyword :: .list [parameter] place.parameters :: body)
    place.closure

/-- The form `((lambda (x) b ...) e)`. -/
def applicationForm (place : ApplicationPlace) (parameter value : Node) (body : List Node) : Node :=
  .list [lambdaForm place parameter body, value] place.whole

end Node

namespace ClosureMark

/-- The closure is among the first `count` that evaluation has made, or the host has made it. -/
def Before (count : Nat) : ClosureMark → Prop
  | .made index => index < count
  | .given _ => True

/-- The mark of the closure if one closure more is made behind the first `count`. -/
def renumbered (count : Nat) : ClosureMark → ClosureMark
  | .made index => .made (if index < count then index else index + 1)
  | .given index => .given index

variable {count : Nat}

private theorem renumbered_of_before {mark : ClosureMark} (before : mark.Before count) :
    mark.renumbered count = mark := by
  cases mark with
  | made index => exact congrArg made (if_pos before)
  | given index => rfl

private theorem renumbered_made {index : Nat} (later : count ≤ index) :
    (made index).renumbered count = made (index + 1) :=
  congrArg made (if_neg (Nat.not_lt.mpr later))

theorem renumbered_inj {first second : ClosureMark} :
    first.renumbered count = second.renumbered count ↔ first = second := by
  constructor
  · intro same
    cases first <;> cases second <;> simp only [renumbered, made.injEq, given.injEq, reduceCtorEq]
      at same ⊢
    · split at same <;> split at same <;> omega
    · exact same
  · exact congrArg _

end ClosureMark

/-- One evaluation has made one closure more than the other, right behind the first `count`. -/
def Likeness.renumbering (count : Nat) : Likeness where
  name _ := True
  span := Eq
  source := Eq
  mark mark twin := mark.renumbered count = twin
  count made twin := count ≤ made ∧ made + 1 = twin
  made := by
    rintro index _ ⟨later, rfl⟩
    exact ⟨ClosureMark.renumbered_made later, Nat.le_succ_of_le later, rfl⟩
  one := by
    rintro first _ second _ rfl rfl
    exact ClosureMark.renumbered_inj.symm
  moved := Likeness.moved_of_eq

variable {σ : Type}

/-- Every closure that the variables hold has been counted. -/
def Store.Numbered (store : Store σ) : Prop :=
  ∀ name value, store.environment.find? name = some value →
    ∀ closure, value.Holds closure → closure.mark.Before store.closures

/-- The store from which one closure more has been made. -/
def Store.counted (store : Store σ) : Store σ :=
  { store with closures := store.closures + 1 }

private theorem Value.Like.renumbering {count : Nat} (value : Value)
    (before : ∀ closure, value.Holds closure → closure.mark.Before count) :
    value.Like (.renumbering count) value :=
  .of_closures value fun closure holds =>
    .of_mark (ClosureMark.renumbered_of_before (before closure holds)) rfl (fun _ => rfl)
      fun _ _ => trivial

private theorem Store.Numbered.like {states : σ → σ → Prop} {store : Store σ}
    (numbered : store.Numbered) (related : states store.host store.host) :
    store.Like (.renumbering store.closures) states store.events store.events store.counted := by
  refine ⟨fun name _ => ?_, related, ⟨Nat.le_refl _, rfl⟩, [], [], rfl, rfl, .nil⟩
  rw [Store.counted]
  cases found : store.environment.find? name with
  | none => exact .none
  | some value => exact .some (.renumbering value (numbered name value found))

theorem Host.like_self (host : Host σ) : host.Like (.mentioning fun _ => True) Eq host := by
  intro index arguments twins span spanTwin state stateTwin each placed same
  cases placed
  cases same
  obtain ⟨rfl, _⟩ := Value.Like.exactAll _ each
  refine ⟨?_, rfl⟩
  cases (host.call index twins span state).1 with
  | error error => exact .failure ⟨rfl, rfl⟩
  | ok value =>
    exact .answer (.refl (Likeness.reflexive_mentioning _) value fun _ _ _ _ => trivial)

/-- The failures have one cause, and one place too unless the evaluations went too deep. -/
structure EvalError.SameUnlessTooDeep (error twin : EvalError) : Prop where
  cause : error.cause = twin.cause
  span : error.IsTooDeep ∨ error.span = twin.span

theorem EvalError.SameUnlessTooDeep.refl (error : EvalError) : error.SameUnlessTooDeep error :=
  ⟨rfl, .inr rfl⟩

private theorem Both.of_eq {outcome twin : Except EvalError Value} (same : twin = outcome) :
    Both Eq EvalError.SameUnlessTooDeep outcome twin := by
  subst same
  cases twin with
  | error error => exact .failure (.refl error)
  | ok value => exact .answer rfl

private theorem Both.trans_of_eq {count : Nat} {values : Value → Value → Prop}
    {first second third : Except EvalError Value}
    (alike : Both values (EvalError.Like (.renumbering count)) first second)
    (same : Both Eq EvalError.SameUnlessTooDeep second third) :
    Both values EvalError.SameUnlessTooDeep first third := by
  cases alike with
  | answer alike =>
    cases same with
    | answer same => exact .answer (same ▸ alike)
  | failure alike =>
    obtain ⟨cause, span⟩ := alike
    cases same with
    | failure same =>
      refine .failure ⟨cause.trans same.cause, same.span.imp ?_ span.trans⟩
      rintro ⟨limit, tooDeep⟩
      exact ⟨limit, cause.trans tooDeep⟩

namespace Eval

open EagerLisp.Action

/-- A `let` and a call come to the same from the environment before. The `let` leaves that
environment, and the call leaves the one that evaluating the value alone leaves. -/
structure BindAlike (values : Value → Value → Prop)
    (environments : Environment → Environment → Prop) (states : σ → σ → Prop) (before : Environment)
    (bound applied alone : Except EvalError Value × Store σ) : Prop where
  outcome : Both values EvalError.SameUnlessTooDeep bound.1 applied.1
  restored : bound.2.environment = before
  left : environments alone.2.environment applied.2.environment
  host : states bound.2.host applied.2.host

/-- What has happened before does not matter to what happens next. -/
theorem evaluateBody_past (context : Context σ) (remaining source : Nat) (last : Value)
    (nodes : List Node) (store : Store σ) (past : List Event) :
    let run := evaluateBody (evaluateWithin context remaining source) last nodes
    (run { store with events := past }).1 = (run store).1 ∧
      (run { store with events := past }).2.host = (run store).2.host := by
  intro run
  have reflexive := Likeness.reflexive_mentioning fun _ => True
  have around : context.Like (.mentioning fun _ => True) Eq context :=
    ⟨context.host.like_self, fun _ _ _ => rfl, rfl⟩
  have initial : store.Like (.mentioning fun _ => True) Eq store.events past
      { store with events := past } := by
    refine ⟨fun name _ => ?_, rfl, rfl, [], [], rfl, rfl, .nil⟩
    cases store.environment.find? name with
    | none => exact .none
    | some value => exact .some (.refl reflexive value fun _ _ _ _ => trivial)
  obtain ⟨stores, outcomes⟩ := evaluateBody_alike
    (fun node twin => evaluateWithin_alike around remaining source source node twin rfl)
    (Node.Like.of_spanAll reflexive.span nodes fun _ _ => trivial)
    (.refl reflexive last fun _ _ _ _ => trivial) store { store with events := past } initial
  exact ⟨outcomes.exact, stores.host.symm⟩

section Forms

variable (context : Context σ) (remaining source : Nat) (name : String) (target pair : Span)
  (value : Node) (body : List Node)

/-- With a level to spend, a `let` of one variable evaluates the value and then the body where the
variable is bound. -/
theorem evaluateWithin_let_one (place : LetPlace) :
    evaluateWithin context (remaining + 1) source
        (.letForm place [.list [.leaf (.symbol name) target, value] pair] body) =
      restoring (evaluateWithin context remaining source value >>= fun given =>
        record (.bound name given) >>= fun _ => Action.define name given >>= fun _ =>
          evaluateBody (evaluateWithin context remaining source) .nil body) := by
  have one : bindEach (evaluateWithin context remaining source)
      [.list [.leaf (.symbol name) target, value] pair] =
        evaluateWithin context remaining source value >>= fun given =>
          record (.bound name given) >>= fun _ => Action.define name given :=
    bind_pure _
  rw [evaluateWithin_letForm, one, bind_assoc]
  simp only [bind_assoc]

/-- The closure that the call makes and calls. -/
def appliedClosure (store : Store σ) : Closure :=
  ⟨.made store.closures, none, [name], body, source⟩

/-- With two levels to spend, a call of a closure written at its head makes the closure, evaluates
the value and calls the closure with it. -/
theorem evaluateWithin_application (place : ApplicationPlace) (store : Store σ) :
    evaluateWithin context (remaining + 2) source
        (.applicationForm place (.leaf (.symbol name) target) value body) store =
      (evaluateWithin context (remaining + 1) source value >>= fun given =>
        callClosure (evaluateWithin context (remaining + 1))
          (appliedClosure source name body store) [given]) store.counted := by
  have made : callee context.natives (evaluateWithin context (remaining + 1) source)
      (.lambdaForm place (.leaf (.symbol name) target) body) store =
        (.ok (.closure (appliedClosure source name body store)), store.counted) := rfl
  have called (arguments : List Value) : apply context.host
      (evaluateWithin context (remaining + 1)) source
      (.closure (appliedClosure source name body store)) arguments place.whole =
        callClosure (evaluateWithin context (remaining + 1))
          (appliedClosure source name body store) arguments := if_pos rfl
  refine (bind_of_ok made).trans ?_
  simp only [evaluateEach, bind_assoc, pure_bind, List.reverse_singleton, called]

/-- Counted from one closure further on, the `let` comes to exactly what the call comes to: its own
closure is the one that the call has made. -/
theorem bindAlike_counted (place : LetPlace) (other : ApplicationPlace) (store : Store σ) :
    BindAlike Eq Eq Eq store.environment
      (evaluateWithin context remaining source
        (.letForm place [.list [.leaf (.symbol name) target, value] pair] body) store.counted)
      (evaluateWithin context remaining source
        (.applicationForm other (.leaf (.symbol name) target) value body) store)
      (evaluateWithin context (remaining - 1) source value store.counted) := by
  have tooDeep (span spanTwin : Span) : Both Eq EvalError.SameUnlessTooDeep
      (.error ⟨.tooDeep context.limit, span⟩ : Except EvalError Value)
      (.error ⟨.tooDeep context.limit, spanTwin⟩ : Except EvalError Value) :=
    .failure ⟨rfl, .inl ⟨context.limit, rfl⟩⟩
  match remaining with
  | 0 => exact ⟨tooDeep _ _, rfl, rfl, rfl⟩
  | 1 => exact ⟨tooDeep _ _, rfl, rfl, rfl⟩
  | remaining + 2 =>
    rw [evaluateWithin_let_one, evaluateWithin_application, Nat.add_succ_sub_one]
    cases run : evaluateWithin context (remaining + 1) source value store.counted with
    | mk outcome after =>
      cases outcome with
      | error error =>
        rw [bind_of_error run, restoring, bind_of_error run]
        exact ⟨.of_eq rfl, rfl, rfl, rfl⟩
      | ok given =>
        -- Both bodies begin with the same variables; only what has happened before is not the same.
        obtain ⟨outcome, host⟩ := evaluateBody_past context (remaining + 1) source .nil body
          { after with
            environment := after.environment.insert name given
            events := .bound name given :: after.events }
          (.closureCalled (appliedClosure source name body store) [given] :: after.events)
        rw [bind_of_ok run, restoring, bind_of_ok run]
        exact ⟨.of_eq outcome, rfl, rfl, host.symm⟩

end Forms

/-- With one level to spend, each form fails where it first goes deeper. -/
example :
    let truth : Node := .leaf (.boolean true) ⟨9, 10⟩
    let context : Context Unit := ⟨Host.none, NativeTable.builtins, 1⟩
    let store : Store Unit := ⟨.empty, (), 0, []⟩
    (evaluateWithin context 1 1 (.letForm ⟨⟨1, 4⟩, ⟨5, 12⟩, ⟨0, 13⟩⟩
          [.list [.leaf (.symbol "x") ⟨7, 8⟩, truth] ⟨6, 11⟩] []) store).1 =
        .error ⟨.tooDeep 1, ⟨9, 10⟩⟩ ∧
      (evaluateWithin context 1 1 (.applicationForm ⟨⟨2, 8⟩, ⟨9, 12⟩, ⟨1, 13⟩, ⟨0, 16⟩⟩
          (.leaf (.symbol "x") ⟨10, 11⟩) truth []) store).1 =
        .error ⟨.tooDeep 1, ⟨1, 13⟩⟩ := by
  exact ⟨rfl, rfl⟩

end Eval
end EagerLisp
