import EagerLisp.Proofs.Eval.Keeping
import EagerLisp.Proofs.Eval.Registers

namespace EagerLisp

namespace Node

mutual
/-- The variables that evaluating an expression may change. Evaluated are the value of an
assignment, and the operator and the operands of a call. -/
def targets : Node → List String
  | .leaf _ _ => []
  | .list [] _ => []
  | .list (head :: operands) _ =>
    match head.symbol?.bind SpecialForm.ofName?, operands with
    | some .assign, [target, value] => target.symbol?.toList ++ targets value
    | some .define, target :: _ :: _ => target.symbol?.toList
    | some _, _ => []
    | none, operands => targets head ++ targetsOfAll operands

/-- The variables that evaluating several expressions may change. -/
def targetsOfAll : List Node → List String
  | [] => []
  | node :: rest => targets node ++ targetsOfAll rest
end

theorem targets_subset_targetsOfAll {node : Node} {nodes : List Node} (member : node ∈ nodes) :
    node.targets ⊆ targetsOfAll nodes := by
  induction nodes with
  | nil => cases member
  | cons first rest ih =>
    rw [targetsOfAll]
    rcases List.mem_cons.mp member with rfl | member
    · exact List.subset_append_left _ _
    · exact fun name found => List.mem_append_right _ (ih member found)

end Node

namespace Eval

open EagerLisp.Action

/-- The later environment agrees with the earlier one except at the names, and still binds every
name that the earlier one binds. -/
structure ChangedAt (names : List String) (before after : Environment) : Prop where
  elsewhere : ∀ name, name ∉ names → after.find? name = before.find? name
  bound : ∀ name, before.contains name = true → after.contains name = true

theorem ChangedAt.refl (names : List String) (environment : Environment) :
    ChangedAt names environment environment :=
  ⟨fun _ _ => rfl, fun _ bound => bound⟩

private theorem ChangedAt.insert {names : List String} {before after : Environment}
    (changed : ChangedAt names before after) {name : String} (member : name ∈ names)
    (value : Value) : ChangedAt names before (after.insert name value) := by
  constructor
  · intro other absent
    have different : other ≠ name := fun same => absent (same ▸ member)
    rw [Table.find?_insert, if_neg different]
    exact changed.elsewhere other absent
  · intro other earlier
    have later := changed.bound other earlier
    rw [Table.contains, Table.find?_insert]
    split
    · rfl
    · exact later

variable {σ : Type}

theorem bindLocally_environment (evaluate : Node → Action σ Value) (operands : List Node)
    (span : Span) (store : Store σ) :
    (bindLocally evaluate operands span store).2.environment = store.environment := by
  unfold bindLocally
  split
  · rfl
  · rfl
  · rfl

private theorem relocating_environment {α : Type} (span : Span) (action : Action σ α)
    (store : Store σ) :
    (relocating span action store).2.environment = (action store).2.environment := by
  unfold relocating
  split <;> simp [*]

/-- A call leaves the environment alone, whatever it calls and however it ends. -/
theorem apply_environment (host : Host σ) (evaluate : Nat → Node → Action σ Value) (source : Nat)
    (procedure : Procedure) (arguments : List Value) (span : Span) (store : Store σ) :
    (apply host evaluate source procedure arguments span store).2.environment =
      store.environment := by
  cases procedure with
  | native native =>
    obtain ⟨name, action⟩ := native
    cases action <;> rfl
  | closure closure =>
    rw [apply]
    split
    · rfl
    · exact relocating_environment span _ store

theorem meets_trivial {α : Type} (outcome : Except EvalError α) :
    Meets (fun _ => True) (fun _ => True) outcome := by
  cases outcome <;> trivial

private theorem keeps_of_environment {α : Type} {action : Action σ α} {holds : Environment → Prop}
    (same : ∀ store, (action store).2.environment = store.environment) :
    Keeps (fun store => holds store.environment) (fun _ => True) (fun _ => True) action := by
  intro store initial
  have unchanged : holds (action store).2.environment := by
    rw [same store]
    exact initial
  exact ⟨unchanged, meets_trivial _⟩

section Changes

variable {before : Environment} {names : List String} {head : Node} {operands : List Node}
  {span : Span} (among : (Node.list (head :: operands) span).targets ⊆ names)

include among

private theorem special_changes {form : SpecialForm}
    (named : head.symbol?.bind SpecialForm.ofName? = some form) {evaluate : Node → Action σ Value}
    (inner : ∀ node : Node, node.targets ⊆ names →
      Keeps (fun store => ChangedAt names before store.environment) (fun _ => True)
        (fun _ => True) (evaluate node)) (source : Nat) :
    Keeps (fun store => ChangedAt names before store.environment) (fun _ => True)
      (fun _ => True) (special form evaluate source operands span) := by
  have covers (node : Node) (_ : node ∈ operands) : Covers (fun _ => True) node :=
    fun _ _ _ => trivial
  cases form with
  | quote => exact quote_keeps (fun _ => trivial) fun _ => trivial
  | closure =>
    exact close_keeps (fun _ initial => initial) (fun _ _ _ _ _ _ => trivial) covers
      fun _ => trivial
  | bind => exact keeps_of_environment (bindLocally_environment _ operands span)
  | assign =>
    refine assign_keeps ?_ (fun _ _ _ initial => initial) ?_ covers fun _ => trivial
    · intro target valueNode pair
      subst pair
      refine inner valueNode fun name found => among ?_
      simp [Node.targets, named, found]
    · intro target valueNode name value store pair symbol _ initial
      subst pair
      refine initial.insert (among ?_) value
      simp [Node.targets, named, symbol]
  | define =>
    refine define_keeps (fun _ _ _ initial => initial) (fun _ initial => initial)
      (fun _ _ _ _ _ _ _ => trivial) ?_ covers fun _ => trivial
    intro target parameterList body name value store parts symbol _ initial
    subst parts
    refine initial.insert (among ?_) value
    simp [Node.targets, named, symbol]

private theorem call_changes (named : head.symbol?.bind SpecialForm.ofName? = none)
    {context : Context σ} {evaluate : Nat → Node → Action σ Value} {source : Nat}
    (inner : ∀ node : Node, node.targets ⊆ names →
      Keeps (fun store => ChangedAt names before store.environment) (fun _ => True)
        (fun _ => True) (evaluate source node)) :
    Keeps (fun store => ChangedAt names before store.environment) (fun _ => True)
      (fun _ => True) (call context evaluate source head operands span) := by
  have split : (Node.list (head :: operands) span).targets =
      head.targets ++ Node.targetsOfAll operands := by
    simp [Node.targets, named]
  rw [split] at among
  have operator := inner head fun name found => among (by simp [found])
  have arguments (node : Node) (member : node ∈ operands) := by
    refine inner node fun name found => among ?_
    exact List.mem_append_right _ (Node.targets_subset_targetsOfAll member found)
  refine .bind (callee_keeps (fun _ _ _ => trivial) operator (fun _ _ => trivial)
    fun _ _ _ => trivial) fun procedure _ => ?_
  refine .bind (evaluateEach_keeps arguments (by simp)) fun values _ => ?_
  exact keeps_of_environment (apply_environment _ _ _ procedure values span)

end Changes

/-- What has changed since `before` stays among the names as long as the targets are among them. -/
theorem evaluateWithin_changes (context : Context σ) (before : Environment) (remaining : Nat) :
    ∀ (source : Nat) (node : Node) (names : List String), node.targets ⊆ names →
      Keeps (fun store => ChangedAt names before store.environment) (fun _ => True)
        (fun _ => True) (evaluateWithin context remaining source node) := by
  induction remaining with
  | zero =>
    intro source node names _
    exact .fail trivial
  | succ remaining ih =>
    intro source node names among
    refine step_keeps (fun _ => trivial) (fun _ _ _ _ _ => trivial) (fun _ _ _ => trivial)
      ?forms ?calls
    case forms =>
      intro head operands span form same named
      subst same
      exact special_changes among named (fun node within => ih source node names within) source
    case calls =>
      intro head operands span same named
      subst same
      exact call_changes among named fun node within => ih source node names within

theorem evaluateWithin_changedAt (context : Context σ) (remaining source : Nat) (node : Node)
    (store : Store σ) :
    ChangedAt node.targets store.environment
      (evaluateWithin context remaining source node store).2.environment := by
  have keeps := evaluateWithin_changes context store.environment remaining source node
    node.targets (List.Subset.refl _)
  exact (keeps store (.refl _ _)).1

theorem evaluateWithin_let_environment (context : Context σ) (remaining source : Nat)
    (place span : Span) (operands : List Node) (store : Store σ) :
    (evaluateWithin context remaining source (.list (.leaf (.symbol "let") place :: operands) span)
      store).2.environment = store.environment := by
  cases remaining with
  | zero => rfl
  | succ remaining => exact bindLocally_environment _ operands span store

/-- The frame of evaluation, from any registers and any store. An expression changes the environment
at most at its targets and unbinds nothing; a `let` and a call of a closure leave the environment
exactly as it was; and the registers are put back in every case. None of it depends on whether the
outcome is an answer or a failure. -/
theorem evaluate_frame (context : Context σ) (registers : Registers) (store : Store σ) :
    (∀ node : Node, ∃ outcome after,
      evaluateWithin context (context.limit - registers.depth) registers.source node store =
          (outcome, after) ∧
        InPlace.evaluate context node (registers.load store) =
          (outcome, registers.load after) ∧
        ChangedAt node.targets store.environment after.environment) ∧
    (∀ (place span : Span) (operands : List Node), ∃ outcome after,
      InPlace.evaluate context (.list (.leaf (.symbol "let") place :: operands) span)
          (registers.load store) = (outcome, registers.load after) ∧
        after.environment = store.environment) ∧
    (∀ (closure : Closure) (arguments : List Value) (span : Span), ∃ outcome after,
      apply context.host (evaluateWithin context (context.limit - registers.depth))
          registers.source (.closure closure) arguments span store = (outcome, after) ∧
        InPlace.apply context.host (InPlace.evaluate context) (.closure closure) arguments span
          (registers.load store) = (outcome, registers.load after) ∧
        after.environment = store.environment) := by
  refine ⟨fun node => ?_, fun place span operands => ?_, fun closure arguments span => ?_⟩
  · have mirrored := InPlace.evaluate_mirrors context registers node store
    have changed := evaluateWithin_changedAt context (context.limit - registers.depth)
      registers.source node store
    exact ⟨_, _, rfl, mirrored, changed⟩
  · have mirrored := InPlace.evaluate_mirrors context registers
      (.list (.leaf (.symbol "let") place :: operands) span) store
    have same := evaluateWithin_let_environment context (context.limit - registers.depth)
      registers.source place span operands store
    exact ⟨_, _, mirrored, same⟩
  · have mirrored := InPlace.apply_mirrors context registers (.closure closure) arguments span store
    have same := apply_environment context.host
      (evaluateWithin context (context.limit - registers.depth)) registers.source
      (.closure closure) arguments span store
    exact ⟨_, _, rfl, mirrored, same⟩

end Eval
end EagerLisp
