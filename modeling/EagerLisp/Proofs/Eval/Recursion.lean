import EagerLisp.Proofs.Eval.Frame

/-! Functions that call themselves. Every operand of a call is evaluated before the call begins,
those of a choice too, so nothing but an error ends a function whose body evaluates a call of that
function: as long as its name is not rebound, every level of the recursion begins another one. -/
namespace EagerLisp

namespace Node

/-- The expression stands in evaluated position: evaluating the other one comes to it, unless an
error comes first. Calls evaluate their operator and their operands, whatever is called;
assignments their value; local bindings the values and the body. -/
inductive Evaluated (inner : Node) : Node → Prop where
  | self : Evaluated inner inner
  | called {head node : Node} {operands : List Node} {span : Span}
      (plain : head.symbol?.bind SpecialForm.ofName? = none) (member : node ∈ head :: operands)
      (deeper : Evaluated inner node) : Evaluated inner (.list (head :: operands) span)
  | assigned {head target value : Node} {more : List Node} {span : Span}
      (form : head.symbol?.bind SpecialForm.ofName? = some .assign)
      (deeper : Evaluated inner value) :
      Evaluated inner (.list (head :: target :: value :: more) span)
  | boundTo {head target value : Node} {bindings body more : List Node} {span around place : Span}
      (form : head.symbol?.bind SpecialForm.ofName? = some .bind)
      (member : .list (target :: value :: more) place ∈ bindings)
      (deeper : Evaluated inner value) :
      Evaluated inner (.list (head :: .list bindings around :: body) span)
  | inBody {head bindings node : Node} {body : List Node} {span : Span}
      (form : head.symbol?.bind SpecialForm.ofName? = some .bind) (member : node ∈ body)
      (deeper : Evaluated inner node) : Evaluated inner (.list (head :: bindings :: body) span)

/-- The form gives the variable a value, for good or while a body runs. -/
inductive Binds (name : String) : Node → Prop where
  | assign {head target value : Node} {span : Span}
      (form : head.symbol?.bind SpecialForm.ofName? = some .assign)
      (named : target.symbol? = some name) : Binds name (.list [head, target, value] span)
  | define {head target parameterList : Node} {body : List Node} {span : Span}
      (form : head.symbol?.bind SpecialForm.ofName? = some .define)
      (named : target.symbol? = some name) :
      Binds name (.list (head :: target :: parameterList :: body) span)
  | locally {head target value : Node} {bindings body more : List Node} {span around place : Span}
      (form : head.symbol?.bind SpecialForm.ofName? = some .bind)
      (member : .list (target :: value :: more) place ∈ bindings)
      (named : target.symbol? = some name) :
      Binds name (.list (head :: .list bindings around :: body) span)

/-- The expression is a call of the variable. -/
def Calls (name : String) (node : Node) : Prop :=
  ∃ place operands span, node = .list (.leaf (.symbol name) place :: operands) span

/-- Nothing in evaluated position binds the variable. -/
def LeavesBound (name : String) (node : Node) : Prop :=
  ∀ inner : Node, inner.Evaluated node → ¬inner.Binds name

mutual
/-- What evaluation may change for good is what some form in evaluated position binds. -/
theorem binds_of_mem_targets {name : String} (node : Node) (member : name ∈ node.targets) :
    ∃ inner : Node, inner.Evaluated node ∧ inner.Binds name := by
  cases node with
  | leaf atom span => simp [targets] at member
  | list elements span =>
    cases elements with
    | nil => simp [targets] at member
    | cons head operands =>
      unfold targets at member
      split at member
      case h_1 target value form =>
        rcases List.mem_append.mp member with named | deeper
        · exact ⟨_, .self, .assign form (Option.mem_toList.mp named)⟩
        · obtain ⟨inner, evaluated, binds⟩ := binds_of_mem_targets value deeper
          exact ⟨inner, .assigned form evaluated, binds⟩
      case h_2 target parameterList body form =>
        exact ⟨_, .self, .define form (Option.mem_toList.mp member)⟩
      case h_3 => cases member
      case h_4 plain =>
        rcases List.mem_append.mp member with operator | later
        · obtain ⟨inner, evaluated, binds⟩ := binds_of_mem_targets head operator
          exact ⟨inner, .called plain (List.mem_cons_self ..) evaluated, binds⟩
        · obtain ⟨node, present, inner, evaluated, binds⟩ := binds_of_mem_targetsOfAll _ later
          exact ⟨inner, .called plain (List.mem_cons_of_mem _ present) evaluated, binds⟩

theorem binds_of_mem_targetsOfAll {name : String} (nodes : List Node)
    (member : name ∈ targetsOfAll nodes) :
    ∃ node ∈ nodes, ∃ inner : Node, inner.Evaluated node ∧ inner.Binds name := by
  cases nodes with
  | nil => simp [targetsOfAll] at member
  | cons node rest =>
    rw [targetsOfAll] at member
    rcases List.mem_append.mp member with here | later
    · exact ⟨node, by simp, binds_of_mem_targets node here⟩
    · obtain ⟨other, present, found⟩ := binds_of_mem_targetsOfAll rest later
      exact ⟨other, by simp [present], found⟩
end

theorem leavesBound_leaf (name : String) (atom : Atom) (span : Span) :
    (Node.leaf atom span).LeavesBound name := by
  intro inner evaluated binds
  cases evaluated
  cases binds

theorem leavesBound_call {name : String} {head : Node} {operands : List Node} {span : Span}
    (plain : head.symbol?.bind SpecialForm.ofName? = none)
    (parts : ∀ node ∈ head :: operands, node.LeavesBound name) :
    (Node.list (head :: operands) span).LeavesBound name := by
  intro inner evaluated binds
  cases evaluated with
  | called _ member deeper => exact parts _ member inner deeper binds
  | self => cases binds <;> simp_all
  | assigned form _ => simp [plain] at form
  | boundTo form _ _ => simp [plain] at form
  | inBody form _ _ => simp [plain] at form

theorem LeavesBound.not_mem_targets {name : String} {node : Node} (leaves : node.LeavesBound name) :
    name ∉ node.targets := by
  intro member
  obtain ⟨inner, evaluated, binds⟩ := binds_of_mem_targets node member
  exact leaves inner evaluated binds

end Node

/-- A closure that comes to call the variable again each time it runs, if the variable is bound to
it: its parameters leave the variable alone, and so does all that its body evaluates, a call of the
variable among it. -/
structure Closure.Recurs (closure : Closure) (name : String) : Prop where
  parameters : name ∉ closure.parameters
  leaves : ∀ node ∈ closure.body, node.LeavesBound name
  calls : ∃ node ∈ closure.body, ∃ call : Node, call.Evaluated node ∧ call.Calls name

/-- The variable has the value. -/
def Store.Binds {σ : Type} (name : String) (value : Value) (store : Store σ) : Prop :=
  store.environment.find? name = some value

namespace Action

variable {σ α β : Type} {kept : Store σ → Prop}

/-- From every store with the property the action ends in a failure. -/
def Fails (kept : Store σ → Prop) (action : Action σ α) : Prop :=
  ∀ store, kept store → ∃ error after, action store = (.error error, after)

theorem Fails.fail (cause : EvalCause) (span : Span) :
    Fails kept (Action.fail cause span : Action σ α) :=
  fun store _ => ⟨⟨cause, span⟩, store, rfl⟩

theorem Fails.bind_first {action : Action σ α} {next : α → Action σ β}
    (inner : Fails kept action) : Fails kept (action >>= next) := by
  intro store initial
  obtain ⟨error, after, same⟩ := inner store initial
  exact ⟨error, after, bind_of_error same⟩

theorem Fails.bind_next {action : Action σ α} {next : α → Action σ β} {answers : α → Prop}
    (first : Keeps kept answers (fun _ => True) action)
    (second : ∀ value, answers value → Fails kept (next value)) :
    Fails kept (action >>= next) := by
  intro store initial
  have reached := first store initial
  cases same : action store with
  | mk outcome after =>
    rw [same] at reached
    obtain ⟨middle, met⟩ := reached
    cases outcome with
    | ok value =>
      obtain ⟨error, later, failed⟩ := second value met after middle
      exact ⟨error, later, (bind_of_ok same).trans failed⟩
    | error error => exact ⟨error, after, bind_of_error same⟩

theorem Fails.restoring {action : Action σ α} (inner : Fails kept action) :
    Fails kept (Action.restoring action) := by
  intro store initial
  obtain ⟨error, after, same⟩ := inner store initial
  exact ⟨error, { after with environment := store.environment }, by
    simp only [Action.restoring, same]⟩

private theorem Fails.relocating {span : Span} {action : Action σ α} (inner : Fails kept action) :
    Fails kept (Action.relocating span action) := by
  intro store initial
  obtain ⟨error, after, same⟩ := inner store initial
  exact ⟨error.relocate span, after, by simp only [Action.relocating, same]⟩

end Action

namespace Eval

open EagerLisp.Action

variable {σ : Type} {kept : Store σ → Prop} {evaluate : Node → Action σ Value} {node : Node}
  {nodes : List Node}

/-- The action keeps the property however it ends. -/
abbrev Preserves {α : Type} (kept : Store σ → Prop) (action : Action σ α) : Prop :=
  Keeps kept (fun _ => True) (fun _ => True) action

theorem preserves_ofExcept {α : Type} (outcome : Except EvalError α) :
    Preserves kept (Action.ofExcept outcome : Action σ α) :=
  .ofExcept (meets_trivial outcome)

private theorem evaluateEach_fails (member : node ∈ nodes)
    (preserves : ∀ other ∈ nodes, Preserves kept (evaluate other))
    (inner : Fails kept (evaluate node)) (done : List Value) :
    Fails kept (evaluateEach evaluate done nodes) := by
  induction nodes generalizing done with
  | nil => cases member
  | cons first rest ih =>
    rcases List.mem_cons.mp member with rfl | later
    · exact .bind_first inner
    · refine .bind_next (preserves first (by simp)) fun value _ => ?_
      exact ih later (fun other member => preserves other (by simp [member])) (value :: done)

theorem evaluateBody_fails (member : node ∈ nodes)
    (preserves : ∀ other ∈ nodes, Preserves kept (evaluate other))
    (inner : Fails kept (evaluate node)) (last : Value) :
    Fails kept (evaluateBody evaluate last nodes) := by
  induction nodes generalizing last with
  | nil => cases member
  | cons first rest ih =>
    rcases List.mem_cons.mp member with rfl | later
    · exact .bind_first inner
    · refine .bind_next (preserves first (by simp)) fun value _ => ?_
      exact ih later (fun other member => preserves other (by simp [member])) value

private theorem assign_fails {target valueNode : Node} {more : List Node} {span : Span}
    (inner : Fails kept (evaluate valueNode)) :
    Fails kept (assign evaluate (target :: valueNode :: more) span) := by
  cases more with
  | nil => exact .bind_next (preserves_ofExcept _) fun _ _ => .bind_first inner
  | cons other others => exact .fail _ _

private theorem bindOne_fails {target valueNode : Node} {more : List Node} {place : Span}
    (inner : Fails kept (evaluate valueNode)) :
    Fails kept (bindOne evaluate (.list (target :: valueNode :: more) place)) :=
  .bind_next (preserves_ofExcept _) fun _ _ => .bind_first inner

private theorem bindEach_fails {binding : Node} {bindings : List Node} (member : binding ∈ bindings)
    (preserves : ∀ other ∈ bindings, Preserves kept (bindOne evaluate other))
    (inner : Fails kept (bindOne evaluate binding)) :
    Fails kept (bindEach evaluate bindings) := by
  induction bindings with
  | nil => cases member
  | cons first rest ih =>
    rcases List.mem_cons.mp member with rfl | later
    · exact .bind_first inner
    · refine .bind_next (preserves first (by simp)) fun _ _ => ?_
      exact ih later fun other member => preserves other (by simp [member])

private theorem bindEach_preserves {bindings : List Node}
    (preserves : ∀ other ∈ bindings, Preserves kept (bindOne evaluate other)) :
    Preserves kept (bindEach evaluate bindings) := by
  induction bindings with
  | nil => exact .pure trivial
  | cons first rest ih =>
    refine .bind (preserves first (by simp)) fun _ _ => ?_
    exact ih fun other member => preserves other (by simp [member])

private theorem bindLocally_fails_in_body {first : Node} {body : List Node} {span : Span}
    (member : node ∈ body) (preserves : ∀ other ∈ body, Preserves kept (evaluate other))
    (bound : ∀ bindings place, first = .list bindings place →
      Preserves kept (bindEach evaluate bindings))
    (inner : Fails kept (evaluate node)) :
    Fails kept (bindLocally evaluate (first :: body) span) := by
  cases first with
  | leaf atom place => exact .fail _ _
  | list bindings place =>
    refine .restoring (.bind_next (bound bindings place rfl) fun _ _ => ?_)
    exact evaluateBody_fails member preserves inner .nil

section Variables

variable {name : String} {value : Value}

private theorem bindOne_preserves {binding : Node}
    (valued : ∀ target valueNode more place, binding = .list (target :: valueNode :: more) place →
      Preserves (Store.Binds name value) (evaluate valueNode))
    (other : ∀ target valueNode more place, binding = .list (target :: valueNode :: more) place →
      target.symbol? ≠ some name) :
    Preserves (Store.Binds name value) (bindOne evaluate binding) := by
  unfold bindOne
  split
  case h_1 target valueNode more place =>
    have named : Meets (fun name => target.symbol? = some name) (fun _ => True)
        (symbolIn .bind target) := symbolIn_meets .bind fun _ _ _ => trivial
    refine .bind (.ofExcept named) fun bound symbol => ?_
    refine .bind (valued target valueNode more place rfl) fun given _ => ?_
    refine .bind (.record fun _ initial => initial) fun _ _ => .define fun store initial => ?_
    have different : name ≠ bound := by
      rintro rfl
      exact other target valueNode more place rfl symbol
    rw [Store.Binds, Table.find?_insert, if_neg different]
    exact initial
  case h_2 => exact .fail trivial

/-- Evaluation leaves a variable alone that nothing in evaluated position binds. -/
theorem evaluateWithin_preserves {context : Context σ} {remaining source : Nat}
    (absent : name ∉ node.targets) :
    Preserves (Store.Binds name value) (evaluateWithin context remaining source node) := by
  intro store initial
  have changed := evaluateWithin_changedAt context remaining source node store
  exact ⟨(changed.elsewhere name absent).trans initial, meets_trivial _⟩

private theorem binding_preserves {context : Context σ} {remaining source : Nat} {head : Node}
    {bindings body : List Node} {around span : Span}
    (form : head.symbol?.bind SpecialForm.ofName? = some .bind)
    (leaves : (Node.list (head :: .list bindings around :: body) span).LeavesBound name)
    {binding : Node} (member : binding ∈ bindings) :
    Preserves (Store.Binds name value)
      (bindOne (evaluateWithin context remaining source) binding) := by
  refine bindOne_preserves ?_ ?_
  · rintro target valueNode more place rfl
    have valued : valueNode.LeavesBound name :=
      fun other deeper => leaves other (.boundTo form member deeper)
    exact evaluateWithin_preserves valued.not_mem_targets
  · rintro target valueNode more place rfl named
    exact leaves _ .self (.locally form member named)

private theorem callClosure_fails {evaluate : Nat → Node → Action σ Value} {closure : Closure}
    (absent : name ∉ closure.parameters) (arguments : List Value) (member : node ∈ closure.body)
    (preserves : ∀ other ∈ closure.body,
      Preserves (Store.Binds name value) (evaluate closure.source other))
    (inner : Fails (Store.Binds name value) (evaluate closure.source node)) :
    Fails (Store.Binds name value) (callClosure evaluate closure arguments) := by
  have overlaid : Preserves (Store.Binds name value)
      (Action.overlay (bindParameters closure.parameters arguments) : Action σ Unit) :=
    .overlay fun store initial =>
      (find?_bindParameters_of_not_mem absent arguments store.environment).trans initial
  refine .bind_next (.record fun _ initial => initial) fun _ _ => .restoring ?_
  exact .bind_next overlaid fun _ _ => evaluateBody_fails member preserves inner .nil

end Variables

section Recursive

variable {context : Context σ} {name : String} {closure : Closure}

/-- A call of the closure fails if evaluation with what remains of the depth does. -/
theorem apply_fails (recurs : closure.Recurs name) {remaining : Nat}
    (inner : ∀ (source : Nat) (node : Node), node.LeavesBound name →
      (∃ call : Node, call.Evaluated node ∧ call.Calls name) →
        Fails (Store.Binds name (.procedure (.closure closure)))
          (evaluateWithin context remaining source node))
    (source : Nat) (arguments : List Value) (span : Span) :
    Fails (Store.Binds name (.procedure (.closure closure)))
      (apply context.host (evaluateWithin context remaining) source (.closure closure) arguments
        span) := by
  obtain ⟨node, member, calls⟩ := recurs.calls
  have body := callClosure_fails recurs.parameters arguments member
    (fun other present =>
      evaluateWithin_preserves (recurs.leaves other present).not_mem_targets)
    (inner closure.source node (recurs.leaves node member) calls)
  rw [apply]
  split
  · exact body
  · exact .relocating body

private theorem evaluateWithin_bound {value : Value} {remaining source : Nat} {place : Span} :
    Keeps (Store.Binds name value) (fun answer => answer = value) (fun _ => True)
      (evaluateWithin context remaining source (.leaf (.symbol name) place)) := by
  cases remaining with
  | zero => exact .fail trivial
  | succ remaining =>
    have found : Keeps (Store.Binds name value) (fun value? => value? = some value) (fun _ => True)
        (Action.lookup name : Action σ (Option Value)) := .lookup fun _ initial => initial
    refine .bind found fun value? same => ?_
    subst same
    exact .pure rfl

private theorem callee_bound (foreign : context.natives.find? name = none) {procedure : Procedure}
    {remaining source : Nat} {place : Span} :
    Keeps (Store.Binds name (.procedure procedure)) (fun callable => callable = procedure)
      (fun _ => True) (callee context.natives (evaluateWithin context remaining source)
        (.leaf (.symbol name) place)) := by
  have unlisted : (Node.leaf (.symbol name) place).symbol?.bind context.natives.find? = none :=
    foreign
  rw [callee, unlisted]
  refine .bind evaluateWithin_bound fun value same => ?_
  subst same
  exact .pure rfl

/-- Operands that leave the variable alone do not help a call of it to an end. -/
theorem call_fails (foreign : context.natives.find? name = none) {procedure : Procedure}
    {remaining source : Nat} {place span : Span} {operands : List Node}
    (preserves : ∀ node ∈ operands, Preserves (Store.Binds name (.procedure procedure))
      (evaluateWithin context remaining source node))
    (applied : ∀ arguments, Fails (Store.Binds name (.procedure procedure))
      (apply context.host (evaluateWithin context remaining) source procedure arguments span)) :
    Fails (Store.Binds name (.procedure procedure))
      (call context (evaluateWithin context remaining) source (.leaf (.symbol name) place) operands
        span) := by
  refine .bind_next (callee_bound foreign) fun callable same => ?_
  subst same
  exact .bind_next (evaluateEach_keeps preserves (by simp)) fun arguments _ => applied arguments

/-- However deep it stands, a call of the variable in evaluated position ends in a failure: the
body of the closure evaluates such a call again, one level deeper, until no depth remains. -/
theorem evaluateWithin_fails (recurs : closure.Recurs name)
    (plain : SpecialForm.ofName? name = none) (foreign : context.natives.find? name = none)
    (remaining : Nat) : ∀ (source : Nat) (node : Node), node.LeavesBound name →
      (∃ call : Node, call.Evaluated node ∧ call.Calls name) →
        Fails (Store.Binds name (.procedure (.closure closure)))
          (evaluateWithin context remaining source node) := by
  induction remaining with
  | zero =>
    intro source node _ _
    exact .fail _ _
  | succ remaining ih =>
    intro source node leaves reached
    obtain ⟨inner, evaluated, calls⟩ := reached
    have preserves (node : Node) (leaves : node.LeavesBound name) :
        Preserves (Store.Binds name (.procedure (.closure closure)))
          (evaluateWithin context remaining source node) :=
      evaluateWithin_preserves leaves.not_mem_targets
    cases evaluated with
    | self =>
      obtain ⟨place, operands, span, rfl⟩ := calls
      have ordinary : (Node.leaf (.symbol name) place).symbol?.bind SpecialForm.ofName? = none :=
        plain
      have operand (node : Node) (member : node ∈ operands) : node.LeavesBound name :=
        fun other deeper => leaves other (.called ordinary (by simp [member]) deeper)
      rw [evaluateWithin, step, ordinary]
      exact call_fails foreign (fun node member => preserves node (operand node member))
        fun arguments => apply_fails recurs ih source arguments span
    | @called head node operands span ordinary member deeper =>
      have part (node : Node) (member : node ∈ head :: operands) : node.LeavesBound name :=
        fun other deeper => leaves other (.called ordinary member deeper)
      have failed := ih source node (part node member) ⟨inner, deeper, calls⟩
      rw [evaluateWithin, step, ordinary]
      rcases List.mem_cons.mp member with rfl | later
      · have unnamed : node.symbol? = none := by
          cases node with
          | leaf atom place =>
            obtain ⟨place, operands, span, rfl⟩ := calls
            cases deeper
          | list elements place => rfl
        rw [call, callee, unnamed]
        exact .bind_first (.bind_first failed)
      · have operator := preserves head (part head (by simp))
        refine .bind_next (callee_keeps (fun _ _ _ => trivial) operator (fun _ _ => trivial)
          fun _ _ _ => trivial) fun procedure _ => .bind_first ?_
        exact evaluateEach_fails later
          (fun other present => preserves other (part other (by simp [present]))) failed []
    | @assigned head target value more span form deeper =>
      have failed := ih source value (fun other deeper => leaves other (.assigned form deeper))
        ⟨inner, deeper, calls⟩
      rw [evaluateWithin, step, form]
      exact assign_fails failed
    | @boundTo head target value bindings body more span around place form member deeper =>
      have failed := ih source value
        (fun other deeper => leaves other (.boundTo form member deeper)) ⟨inner, deeper, calls⟩
      rw [evaluateWithin, step, form]
      refine .restoring (.bind_first (bindEach_fails member ?_ (bindOne_fails failed)))
      exact fun binding present => binding_preserves form leaves present
    | @inBody head bindings node body span form member deeper =>
      have part (node : Node) (member : node ∈ body) : node.LeavesBound name :=
        fun other deeper => leaves other (.inBody form member deeper)
      have failed := ih source node (part node member) ⟨inner, deeper, calls⟩
      rw [evaluateWithin, step, form]
      refine bindLocally_fails_in_body member
        (fun other present => preserves other (part other present)) ?_ failed
      rintro bindings place rfl
      exact bindEach_preserves fun binding present => binding_preserves form leaves present

end Recursive

/-- A function whose body evaluates a call of it never returns, whatever stands around that call,
whatever the arguments and however many levels remain. Let the variable be no special form and no
native, and bound to a closure whose parameters and body leave it alone and whose body evaluates a
call of it. Calling the closure ends in a failure, and so does every call of the variable whose
operands do not change it. -/
theorem recursion_never_returns (context : Context σ) (name : String) (closure : Closure)
    (plain : SpecialForm.ofName? name = none) (foreign : context.natives.find? name = none)
    (recurs : closure.Recurs name) (store : Store σ)
    (bound : store.environment.find? name = some (.procedure (.closure closure)))
    (remaining source : Nat) (span : Span) :
    (∀ arguments, ∃ error after,
      apply context.host (evaluateWithin context remaining) source (.closure closure) arguments span
        store = (.error error, after)) ∧
    (∀ place operands, name ∉ Node.targetsOfAll operands → ∃ error after,
      evaluateWithin context remaining source (.list (.leaf (.symbol name) place :: operands) span)
        store = (.error error, after)) := by
  have inner (remaining : Nat) := evaluateWithin_fails recurs plain foreign remaining
  constructor
  · intro arguments
    exact apply_fails recurs (inner remaining) source arguments span store bound
  · intro place operands unchanged
    have ordinary : (Node.leaf (.symbol name) place).symbol?.bind SpecialForm.ofName? = none :=
      plain
    cases remaining with
    | zero => exact ⟨_, store, rfl⟩
    | succ remaining =>
      rw [evaluateWithin, step, ordinary]
      refine call_fails foreign (fun node member => evaluateWithin_preserves fun changes => ?_)
        (fun arguments => apply_fails recurs (inner remaining) source arguments span) store bound
      exact unchanged (Node.targets_subset_targetsOfAll member changes)

/-- The closure of `(defun down (n) (if n (down n) ()))` under the default limit: the choice does
not guard the call. -/
theorem recursion_never_returns_under_choice :
    let call : Node :=
      .list [.leaf (.symbol "down") ⟨22, 26⟩, .leaf (.symbol "n") ⟨27, 28⟩] ⟨21, 29⟩
    let choice : Node := .list [.leaf (.symbol "if") ⟨16, 18⟩, .leaf (.symbol "n") ⟨19, 20⟩, call,
      .list [] ⟨30, 32⟩] ⟨15, 33⟩
    let closure : Closure := ⟨.made 0, some "down", ["n"], [choice], 1⟩
    let store : Store Unit := ⟨Table.empty.insert "down" (.procedure (.closure closure)), (), 1, []⟩
    ∃ error after, Eval.evaluate ⟨Host.none, NativeTable.builtins, 128⟩ 2
      (.list [.leaf (.symbol "down") ⟨1, 5⟩, .list [] ⟨6, 8⟩] ⟨0, 9⟩) store = (.error error, after)
    := by
  intro call choice closure store
  have ordinary (word : String) (span : Span) (plain : SpecialForm.ofName? word = none) :
      (Node.leaf (.symbol word) span).symbol?.bind SpecialForm.ofName? = none := plain
  have leaves : choice.LeavesBound "down" := by
    refine Node.leavesBound_call (ordinary "if" _ rfl) fun node member => ?_
    simp only [List.mem_cons, List.not_mem_nil, or_false] at member
    rcases member with rfl | rfl | rfl | rfl
    · exact Node.leavesBound_leaf _ _ _
    · exact Node.leavesBound_leaf _ _ _
    · refine Node.leavesBound_call (ordinary "down" _ rfl) fun node member => ?_
      simp only [List.mem_cons, List.not_mem_nil, or_false] at member
      rcases member with rfl | rfl <;> exact Node.leavesBound_leaf _ _ _
    · rintro inner evaluated binds
      cases evaluated
      cases binds
  have recurs : closure.Recurs "down" := by
    refine ⟨by decide, by simpa [closure] using leaves, choice, by simp [closure], call, ?_, ?_⟩
    · exact .called (ordinary "if" _ rfl) (by simp [call]) .self
    · exact ⟨_, _, _, rfl⟩
  have never := recursion_never_returns ⟨Host.none, NativeTable.builtins, 128⟩ "down" closure rfl
    rfl recurs store rfl 128 2 ⟨0, 9⟩
  exact never.2 ⟨1, 5⟩ [.list [] ⟨6, 8⟩] (by simp [Node.targetsOfAll, Node.targets])

/-- An operand may redefine the function after the call has found the old one: with the closure of
`(defun f () (f))` for a start, `(f (defun f () ()))` returns. -/
theorem recursion_returns_if_operand_redefines :
    let call : Node := .list [.leaf (.symbol "f") ⟨13, 14⟩] ⟨12, 15⟩
    let closure : Closure := ⟨.made 0, some "f", [], [call], 1⟩
    let store : Store Unit := ⟨Table.empty.insert "f" (.procedure (.closure closure)), (), 1, []⟩
    let redefinition : Node := .list [.leaf (.symbol "defun") ⟨4, 9⟩, .leaf (.symbol "f") ⟨10, 11⟩,
      .list [] ⟨12, 14⟩, .list [] ⟨15, 17⟩] ⟨3, 18⟩
    SpecialForm.ofName? "f" = none ∧ NativeTable.builtins.find? "f" = none ∧
    closure.Recurs "f" ∧ store.environment.find? "f" = some (.procedure (.closure closure)) ∧
    (Eval.evaluate ⟨Host.none, NativeTable.builtins, 128⟩ 2
      (.list [.leaf (.symbol "f") ⟨1, 2⟩, redefinition] ⟨0, 19⟩) store).1 = .ok (.list []) := by
  intro call closure store redefinition
  have leaves : call.LeavesBound "f" := by
    refine Node.leavesBound_call rfl fun node member => ?_
    simp only [List.mem_cons, List.not_mem_nil, or_false] at member
    subst member
    exact Node.leavesBound_leaf _ _ _
  have recurs : closure.Recurs "f" := by
    refine ⟨by simp [closure], by simpa [closure] using leaves, call, by simp [closure], call,
      .self, ?_⟩
    exact ⟨_, _, _, rfl⟩
  exact ⟨rfl, rfl, recurs, rfl, rfl⟩

end Eval
end EagerLisp
