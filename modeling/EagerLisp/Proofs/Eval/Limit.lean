import EagerLisp.Error
import EagerLisp.Proofs.Eval.Simulation

/-! The depth limit only cuts evaluations off. No form and no call recovers from a failure, so where
going too deep is not what an evaluation ends with, the limit was not met on the way, and a higher
one makes no difference to the outcome, to the variables or to what the host is asked to do. -/
namespace EagerLisp

/-- The failure of an evaluation that went deeper than some limit, wherever it is placed. -/
def EvalError.IsTooDeep (error : EvalError) : Prop :=
  ∃ limit, error.cause = .tooDeep limit

/-- The evaluation of a program went deeper than some limit. -/
def Error.IsTooDeep : Error → Prop
  | .running error => error.IsTooDeep
  | .reading _ => False

/-- The outcome is an answer, or a failure that is not one of going too deep. -/
def Finished {α : Type} (outcome : Except EvalError α) : Prop :=
  ∀ error, outcome = .error error → ¬error.IsTooDeep

theorem Finished.ok {α : Type} (value : α) : Finished (.ok value) := by
  intro error same
  cases same

theorem finished_error {α : Type} {error : EvalError} :
    Finished (.error error : Except EvalError α) ↔ ¬error.IsTooDeep := by
  constructor
  · intro finished
    exact finished error rfl
  · intro other failure same
    cases same
    exact other

namespace Action

variable {σ α β : Type}

/-- The first action does what the second does unless it goes too deep. -/
def CutsOff (first second : Action σ α) : Prop :=
  ∀ store, Finished (first store).1 → second store = first store

theorem CutsOff.refl (action : Action σ α) : CutsOff action action :=
  fun _ _ => rfl

theorem CutsOff.bind {first second : Action σ α} {next other : α → Action σ β}
    (front : CutsOff first second) (back : ∀ value, CutsOff (next value) (other value)) :
    CutsOff (first >>= next) (second >>= other) := by
  intro store finished
  have agreed := front store
  cases same : first store with
  | mk outcome after =>
    rw [same] at agreed
    cases outcome with
    | ok value =>
      rw [bind_of_ok same] at finished ⊢
      rw [bind_of_ok (agreed (.ok value))]
      exact back value after finished
    | error error =>
      rw [bind_of_error same] at finished ⊢
      rw [bind_of_error (agreed (finished_error.mpr (finished_error.mp finished)))]

theorem CutsOff.restoring {first second : Action σ α} (inner : CutsOff first second) :
    CutsOff (Action.restoring first) (Action.restoring second) := by
  intro store finished
  simp only [Action.restoring, inner store finished]

private theorem CutsOff.relocating {first second : Action σ α} (span : Span)
    (inner : CutsOff first second) :
    CutsOff (Action.relocating span first) (Action.relocating span second) := by
  intro store finished
  have agreed := inner store
  simp only [Action.relocating] at finished ⊢
  cases same : first store with
  | mk outcome after =>
    rw [same] at agreed finished
    cases outcome with
    | ok value => rw [agreed (.ok value)]
    | error error =>
      -- Moving a failure keeps its cause, so it went too deep before it was moved or not at all.
      have moved : ¬(error.relocate span).IsTooDeep := finished_error.mp finished
      rw [agreed (finished_error.mpr moved)]

private theorem cutsOff_simulation :
    Simulation fun {α} => (CutsOff : Action σ α → Action σ α → Prop) where
  pure _ := .refl _
  bind := .bind
  fail _ _ := .refl _
  ofExcept _ := .refl _
  record _ := .refl _
  lookup _ := .refl _
  define _ _ := .refl _
  overlay _ := .refl _
  makeClosure _ _ _ _ := .refl _
  restoring := .restoring
  relocating := .relocating

end Action

namespace Eval

open EagerLisp.Action

variable {σ : Type}

/-- Where fewer levels are allowed an evaluation is cut off or goes as it does with more. -/
theorem evaluateWithin_cutsOff (host : Host σ) (natives : NativeTable) (low high : Nat)
    {fewer more : Nat} (le : fewer ≤ more) (source : Nat) (node : Node) :
    CutsOff (evaluateWithin ⟨host, natives, low⟩ fewer source node)
      (evaluateWithin ⟨host, natives, high⟩ more source node) := by
  induction fewer generalizing more source node with
  | zero =>
    intro store finished
    exact absurd ⟨low, rfl⟩ (finished_error.mp finished)
  | succ fewer ih =>
    obtain ⟨more, rfl⟩ := Nat.exists_eq_add_of_lt le
    have inner (source : Nat) (node : Node) := ih (Nat.le_add_right fewer more) source node
    exact cutsOff_simulation.step inner (fun _ _ _ => .refl _) natives low high source node

end Eval
end EagerLisp
