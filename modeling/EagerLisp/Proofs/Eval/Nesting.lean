import EagerLisp.Proofs.Eval.Frame
import EagerLisp.Proofs.Eval.Limit

/-! Nested bindings. A `let` binds its variables one after the other, so it may be cut in two, the
later bindings and the body in a `let` inside the one that has the earlier bindings. The inner one
puts back variables that the outer one puts back anyway, and it is evaluated one level deeper, which
makes a difference only where the depth limit is met. -/
namespace EagerLisp

/-- Where a `let` stands: its keyword, its list of bindings and the whole of it. -/
structure LetPlace where
  keyword : Span
  bindings : Span
  whole : Span

/-- The form `(let (binding ...) b ...)`. -/
def Node.letForm (place : LetPlace) (bindings body : List Node) : Node :=
  .list (.leaf (.symbol "let") place.keyword :: .list bindings place.bindings :: body) place.whole

variable {σ : Type}

instance : LawfulMonad (Action σ) := by
  refine LawfulMonad.mk' _ ?map ?pure ?bind
  case map =>
    intro α action
    funext store
    simp only [Functor.map, Action.bind]
    rcases action store with ⟨outcome, after⟩
    cases outcome <;> rfl
  case pure => intros; rfl
  case bind =>
    intro α β γ action next other
    funext store
    simp only [bind, Action.bind]
    rcases action store with ⟨outcome, after⟩
    cases outcome <;> rfl

namespace Action

variable {α β : Type}

/-- Putting the variables back twice is putting them back once, to what they were at first. -/
theorem restoring_bind_restoring (first : Action σ α) (next : α → Action σ β) :
    restoring (first >>= fun value => restoring (next value)) = restoring (first >>= next) := by
  funext store
  cases run : first store with
  | mk outcome after =>
    cases outcome with
    | ok value => simp only [restoring, bind_of_ok run]
    | error error => simp only [restoring, bind_of_error run]

end Action

namespace Eval

open EagerLisp.Action

theorem bindEach_append (evaluate : Node → Action σ Value) (front back : List Node) :
    bindEach evaluate (front ++ back) =
      bindEach evaluate front >>= fun _ => bindEach evaluate back := by
  induction front with
  | nil => rfl
  | cons binding rest ih => simp only [List.cons_append, bindEach, ih, bind_assoc]

theorem evaluateBody_singleton (evaluate : Node → Action σ Value) (last : Value) (node : Node) :
    evaluateBody evaluate last [node] = evaluate node :=
  bind_pure (evaluate node)

/-- With a level to spend, a `let` binds, runs its body and puts the variables back. -/
theorem evaluateWithin_letForm (context : Context σ) (remaining source : Nat) (place : LetPlace)
    (bindings body : List Node) :
    evaluateWithin context (remaining + 1) source (.letForm place bindings body) =
      restoring (bindEach (evaluateWithin context remaining source) bindings >>= fun _ =>
        evaluateBody (evaluateWithin context remaining source) .nil body) := rfl

/-- A `let` that is cut in two does what the whole one does unless it is cut off. -/
theorem letForm_cutsOff (context : Context σ) (remaining source : Nat)
    (flat outer inner : LetPlace) (front back body : List Node) :
    CutsOff (evaluateWithin context remaining source
        (.letForm outer front [.letForm inner back body]))
      (evaluateWithin context remaining source (.letForm flat (front ++ back) body)) := by
  cases remaining with
  | zero =>
    intro store finished
    exact absurd ⟨context.limit, rfl⟩ (finished_error.mp finished)
  | succ remaining =>
    have deeper : CutsOff (evaluateWithin context remaining source (.letForm inner back body))
        (evaluateWithin context (remaining + 1) source (.letForm inner back body)) :=
      evaluateWithin_cutsOff context.host context.natives context.limit context.limit
        (Nat.le_succ remaining) source _
    have nested := CutsOff.restoring
      (.bind (.refl (bindEach (evaluateWithin context remaining source) front)) fun _ => deeper)
    rw [evaluateWithin_letForm, restoring_bind_restoring] at nested
    rw [evaluateWithin_letForm, evaluateWithin_letForm, evaluateBody_singleton, bindEach_append,
      bind_assoc]
    exact nested

/-- A `let` of two or more bindings and the one that has the first binding only, with a `let` of the
others and the body inside, come to the same unless the nested one goes too deep: the same outcome,
the same events, the same effects on the host. Both leave the environment as it was. Nothing is
asked of the bindings, which may be no bindings at all. -/
theorem evaluate_let_nested (context : Context σ) (remaining source : Nat)
    (flat outer inner : LetPlace) (first second : Node) (rest body : List Node)
    (store : Store σ) :
    let whole := evaluateWithin context remaining source
      (.letForm flat (first :: second :: rest) body) store
    let nested := evaluateWithin context remaining source
      (.letForm outer [first] [.letForm inner (second :: rest) body]) store
    ((∀ error, nested.1 = .error error → ¬error.IsTooDeep) → whole = nested) ∧
      whole.2.environment = store.environment ∧ nested.2.environment = store.environment := by
  intro whole nested
  refine ⟨?_, ?_, ?_⟩
  · exact letForm_cutsOff context remaining source flat outer inner [first] (second :: rest) body
      store
  · exact evaluateWithin_let_environment context remaining source _ _ _ store
  · exact evaluateWithin_let_environment context remaining source _ _ _ store

/-- The inner `let` is one level further in, so the limit may be met there only. -/
example :
    let bind (name : String) : Node :=
      .list [.leaf (.symbol name) ⟨0, 1⟩, .leaf (.boolean true) ⟨2, 3⟩] ⟨0, 4⟩
    let body : List Node := [.leaf (.symbol "y") ⟨5, 6⟩]
    let place : LetPlace := ⟨⟨1, 4⟩, ⟨5, 6⟩, ⟨0, 7⟩⟩
    let context : Context Unit := ⟨Host.none, NativeTable.builtins, 2⟩
    let store : Store Unit := ⟨.empty, (), 0, []⟩
    (evaluateWithin context 2 1 (.letForm place [bind "x", bind "y"] body) store).1 =
        .ok (.boolean true) ∧
      (evaluateWithin context 2 1
          (.letForm place [bind "x"] [.letForm place [bind "y"] body]) store).1 =
        .error ⟨.tooDeep 2, ⟨2, 3⟩⟩ := by
  exact ⟨rfl, rfl⟩

/-- `(let ((x (quote a)) (y x)) (setq z y) (list y z))` in four levels: the assignment is undone,
and so it is with `y` bound inside. -/
theorem evaluate_let_nested_around_assignment :
    let name (text : String) : Node := .leaf (.symbol text) ⟨0, 1⟩
    let form (head : String) (operands : List Node) : Node :=
      .list (name head :: operands) ⟨0, 2⟩
    let first : Node := .list [name "x", form "quote" [name "a"]] ⟨0, 3⟩
    let second : Node := .list [name "y", name "x"] ⟨0, 3⟩
    let body := [form "setq" [name "z", name "y"], form "list" [name "y", name "z"]]
    let place : LetPlace := ⟨⟨1, 4⟩, ⟨5, 6⟩, ⟨0, 7⟩⟩
    let context : Context Unit := ⟨Host.none, NativeTable.builtins, 4⟩
    let store : Store Unit := ⟨.empty, (), 0, []⟩
    let whole := evaluateWithin context 4 1 (.letForm place [first, second] body) store
    let nested := evaluateWithin context 4 1
      (.letForm place [first] [.letForm place [second] body]) store
    whole = nested ∧ whole.1 = .ok (.list [.string "a", .string "a"]) ∧
      whole.2.environment = .empty ∧ nested.2.environment = .empty := by
  intro name form first second body place context store whole nested
  have answered : nested.1 = .ok (.list [.string "a", .string "a"]) := rfl
  have cut := evaluate_let_nested context 4 1 place place place first second [] body store
  have same : whole = nested := cut.1 (by rw [answered]; simp)
  exact ⟨same, same ▸ answered, cut.2⟩

end Eval
end EagerLisp
