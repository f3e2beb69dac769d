import EagerLisp.Eval

/-! Two evaluations side by side. A relation between actions that the primitive actions respect, and
the ways of putting actions together, is respected by every form and every call as soon as the
evaluators of their operands are related. -/
namespace EagerLisp

/-- A relation between actions that is respected by everything evaluation is made of. -/
structure Simulation {σ τ : Type}
    (Related : {α : Type} → Action σ α → Action τ α → Prop) : Prop where
  pure : ∀ {α : Type} (value : α), Related (Pure.pure value) (Pure.pure value)
  bind : ∀ {α β : Type} {first : Action σ α} {second : Action τ α} {next : α → Action σ β}
    {other : α → Action τ β}, Related first second →
      (∀ value, Related (next value) (other value)) → Related (first >>= next) (second >>= other)
  fail : ∀ {α : Type} (cause : EvalCause) (span : Span),
    Related (.fail cause span : Action σ α) (.fail cause span)
  ofExcept : ∀ {α : Type} (outcome : Except EvalError α),
    Related (.ofExcept outcome) (.ofExcept outcome)
  record : ∀ event, Related (.record event) (.record event)
  lookup : ∀ name, Related (.lookup name) (.lookup name)
  define : ∀ name value, Related (.define name value) (.define name value)
  overlay : ∀ change, Related (.overlay change) (.overlay change)
  makeClosure : ∀ name? parameters body source,
    Related (.makeClosure name? parameters body source) (.makeClosure name? parameters body source)
  restoring : ∀ {α : Type} {first : Action σ α} {second : Action τ α}, Related first second →
    Related (.restoring first) (.restoring second)
  relocating : ∀ {α : Type} {first : Action σ α} {second : Action τ α} (span : Span),
    Related first second → Related (.relocating span first) (.relocating span second)

namespace Simulation

open Eval

variable {σ τ : Type} {Related : {α : Type} → Action σ α → Action τ α → Prop}
  (simulation : Simulation Related)

section Operands

variable {left : Node → Action σ Value} {right : Node → Action τ Value}
  (each : ∀ node, Related (left node) (right node))

include simulation each

theorem evaluateEach (done : List Value) (nodes : List Node) :
    Related (Eval.evaluateEach left done nodes) (Eval.evaluateEach right done nodes) := by
  induction nodes generalizing done with
  | nil => exact simulation.pure _
  | cons node rest ih => exact simulation.bind (each node) fun value => ih (value :: done)

theorem evaluateBody (last : Value) (nodes : List Node) :
    Related (Eval.evaluateBody left last nodes) (Eval.evaluateBody right last nodes) := by
  induction nodes generalizing last with
  | nil => exact simulation.pure _
  | cons node rest ih => exact simulation.bind (each node) fun value => ih value

private theorem bindOne (binding : Node) :
    Related (Eval.bindOne left binding) (Eval.bindOne right binding) := by
  unfold Eval.bindOne
  split
  · refine simulation.bind (simulation.ofExcept _) fun name => ?_
    refine simulation.bind (each _) fun value => ?_
    exact simulation.bind (simulation.record _) fun _ => simulation.define name value
  · exact simulation.fail _ _

private theorem bindEach (bindings : List Node) :
    Related (Eval.bindEach left bindings) (Eval.bindEach right bindings) := by
  induction bindings with
  | nil => exact simulation.pure _
  | cons binding rest ih => exact simulation.bind (simulation.bindOne each binding) fun _ => ih

theorem special (form : SpecialForm) (source : Nat) (operands : List Node) (span : Span) :
    Related (Eval.special form left source operands span)
      (Eval.special form right source operands span) := by
  cases form with
  | quote =>
    simp only [Eval.special, quote]
    split
    · exact simulation.pure _
    · exact simulation.fail _ _
  | assign =>
    simp only [Eval.special, assign]
    split
    · refine simulation.bind (simulation.ofExcept _) fun name => ?_
      refine simulation.bind (each _) fun value => ?_
      refine simulation.bind (simulation.record _) fun _ => ?_
      exact simulation.bind (simulation.define name value) fun _ => simulation.pure value
    · exact simulation.fail _ _
  | define =>
    simp only [Eval.special, Eval.define]
    split
    · refine simulation.bind (simulation.ofExcept _) fun name => ?_
      refine simulation.bind (simulation.ofExcept _) fun parameters => ?_
      refine simulation.bind (simulation.record _) fun _ => ?_
      refine simulation.bind (simulation.makeClosure _ _ _ _) fun value => ?_
      exact simulation.bind (simulation.define name value) fun _ => simulation.pure value
    · exact simulation.fail _ _
  | closure =>
    simp only [Eval.special, close]
    split
    · refine simulation.bind (simulation.ofExcept _) fun parameters => ?_
      exact simulation.makeClosure _ _ _ _
    · exact simulation.fail _ _
  | bind =>
    simp only [Eval.special, bindLocally]
    split
    · refine simulation.restoring (simulation.bind (simulation.bindEach each _) fun _ => ?_)
      exact simulation.evaluateBody each _ _
    · exact simulation.fail _ _
    · exact simulation.fail _ _

theorem callee (natives : NativeTable) (head : Node) :
    Related (Eval.callee natives left head) (Eval.callee natives right head) := by
  unfold Eval.callee
  split
  · exact simulation.pure _
  · refine simulation.bind (each head) fun value => ?_
    split
    · exact simulation.pure _
    · exact simulation.fail _ _

end Operands

variable {left : Nat → Node → Action σ Value} {right : Nat → Node → Action τ Value}

include simulation

theorem callClosure (closure : Closure)
    (each : ∀ node, Related (left closure.source node) (right closure.source node))
    (arguments : List Value) :
    Related (Eval.callClosure left closure arguments)
      (Eval.callClosure right closure arguments) := by
  refine simulation.bind (simulation.record _) fun _ => simulation.restoring ?_
  refine simulation.bind (simulation.overlay _) fun _ => ?_
  exact simulation.evaluateBody each _ _

/-- The leaves and the empty list are evaluated alike whatever the natives are. -/
theorem step_leaf (context : Context σ) (other : Context τ) (source place : Nat) {node : Node}
    (leaf : ∀ head operands span, node ≠ .list (head :: operands) span) :
    Related (Eval.step context left source node) (Eval.step other right place node) := by
  unfold Eval.step
  split
  case h_1 => exact simulation.pure _
  case h_2 => exact simulation.pure _
  case h_3 => exact simulation.bind (simulation.lookup _) fun value? => simulation.pure _
  case h_4 name span =>
    refine simulation.bind (simulation.lookup name) fun value? => ?_
    cases value? with
    | none => exact simulation.fail _ _
    | some value => exact simulation.pure value
  case h_5 => exact simulation.pure _
  case h_6 head operands span => exact absurd rfl (leaf head operands span)

section Calls

variable (each : ∀ source node, Related (left source node) (right source node)) {host : Host σ}
  {hostBeside : Host τ}
  (natives : ∀ native arguments span, Related (callNative host native arguments span)
    (callNative hostBeside native arguments span))

include each natives

private theorem apply (source : Nat) (procedure : Procedure) (arguments : List Value)
    (span : Span) :
    Related (Eval.apply host left source procedure arguments span)
      (Eval.apply hostBeside right source procedure arguments span) := by
  cases procedure with
  | native native => exact natives native arguments span
  | closure closure =>
    have body := simulation.callClosure closure (each closure.source) arguments
    simp only [Eval.apply]
    split
    · exact body
    · exact simulation.relocating span body

theorem step (table : NativeTable) (low high source : Nat) (node : Node) :
    Related (Eval.step ⟨host, table, low⟩ left source node)
      (Eval.step ⟨hostBeside, table, high⟩ right source node) := by
  cases node with
  | leaf atom span => exact simulation.step_leaf _ _ _ _ (by simp)
  | list elements span =>
    cases elements with
    | nil => exact simulation.step_leaf _ _ _ _ (by simp)
    | cons head operands =>
      simp only [Eval.step]
      cases head.symbol?.bind SpecialForm.ofName? with
      | some form => exact simulation.special (each source) form source operands span
      | none =>
        refine simulation.bind (simulation.callee (each source) table head) fun procedure => ?_
        refine simulation.bind (simulation.evaluateEach (each source) [] operands)
          fun arguments => ?_
        exact simulation.apply each natives source procedure arguments span

end Calls

end Simulation
end EagerLisp
