import EagerLisp.Proofs.Eval.Ledger

namespace EagerLisp

/-- The form makes a closure: it is a `lambda` or a `defun`. -/
def Node.MakesClosure (node : Node) : Prop :=
  ∃ head operands span, node = .list (head :: operands) span ∧
    (head.symbol? = some "lambda" ∨ head.symbol? = some "defun")

variable {σ : Type} {outside : Outside σ} {made : List Closure} {store : Store σ}

theorem Ledger.not_same_of_next (ledger : Ledger outside made store) {closure : Closure}
    (mark : closure.mark = .made store.closures) {procedure : Procedure}
    (known : procedure.KnownTo outside made) :
    (Procedure.closure closure).same procedure = false := by
  cases procedure with
  | native native => rfl
  | closure other =>
    have marks : closure.mark ≠ other.mark := by
      rw [mark]
      rcases known with foreign | ⟨twin, member, same⟩
      · obtain ⟨index, given⟩ := outside.given other foreign
        rw [given]
        simp
      · cases same
        obtain ⟨index, found⟩ := List.mem_iff_getElem?.mp member
        have before := (List.getElem?_eq_some_iff.mp found).1
        rw [ledger.length] at before
        rw [ledger.marked index other found]
        exact fun same => Nat.ne_of_gt before (ClosureMark.made.inj same)
    simpa [Procedure.same] using marks

namespace Eval

open EagerLisp.Action

variable {context : Context σ} {remaining source : Nat} {node : Node} {after : Store σ}
  {value : Value}

private theorem close_answers {operands : List Node} {span : Span}
    (run : close source operands span store = (.ok value, after)) :
    ∃ closure, value = .procedure (.closure closure) ∧ closure.mark = .made store.closures ∧
      after.closures = store.closures + 1 := by
  unfold close at run
  split at run
  case h_1 parameterList body =>
    obtain ⟨parameters, middle, checked, run⟩ := exists_of_bind run
    obtain ⟨-, rfl⟩ := Prod.mk.inj checked
    cases run
    exact ⟨_, rfl, rfl, rfl⟩
  case h_2 => cases run

private theorem define_answers {operands : List Node} {span : Span}
    (run : define source operands span store = (.ok value, after)) :
    ∃ closure, value = .procedure (.closure closure) ∧ closure.mark = .made store.closures ∧
      after.closures = store.closures + 1 := by
  unfold define at run
  split at run
  case h_1 target parameterList body =>
    obtain ⟨name, middle, checked, run⟩ := exists_of_bind run
    obtain ⟨-, rfl⟩ := Prod.mk.inj checked
    obtain ⟨parameters, middle, checked, run⟩ := exists_of_bind run
    obtain ⟨-, rfl⟩ := Prod.mk.inj checked
    cases run
    exact ⟨_, rfl, rfl, rfl⟩
  case h_2 => cases run

/-- If the form answers, then with a closure that has the next mark. -/
theorem evaluateWithin_makesClosure (makes : node.MakesClosure)
    (run : evaluateWithin context remaining source node store = (.ok value, after)) :
    ∃ closure, value = .procedure (.closure closure) ∧ closure.mark = .made store.closures ∧
      after.closures = store.closures + 1 := by
  obtain ⟨head, operands, span, rfl, named⟩ := makes
  cases remaining with
  | zero => cases run
  | succ remaining =>
    rw [evaluateWithin, step] at run
    rcases named with named | named
    · rw [named] at run
      exact close_answers run
    · rw [named] at run
      exact define_answers run

/-- No evaluation takes a closure back. -/
theorem invariant_counted (context : Context σ) (count : Nat) :
    Invariant context (fun store => count ≤ store.closures) (fun _ => True) where
  data := fun _ => trivial
  empty := trivial
  closure := fun _ => trivial
  held := fun _ _ _ _ _ => trivial
  noted := fun _ _ _ initial => initial
  changed := fun _ _ _ _ initial => initial
  counted := fun _ initial => Nat.le_succ_of_le initial
  back := fun _ _ _ later => later
  builtin := fun builtin arguments span _ => by
    cases builtin.call arguments span <;> trivial
  foreign := fun _ index arguments span store _ _ _ initial => by
    refine ⟨initial, ?_⟩
    cases (context.host.call index arguments span store.host).1 <;> trivial

theorem closures_le_of_passes {task : Task σ} {state : Store σ}
    (passes : Passes context task state) : task.store.closures ≤ state.closures :=
  (invariant_counted context task.store.closures).passes passes (Nat.le_refl _)

/-- The closures that two forms make are different if one is made when the other has been. -/
theorem not_same_of_later {next : Context σ} {levels text : Nat} {other : Node}
    {later last : Store σ} {twin : Value} (makes : node.MakesClosure)
    (run : evaluateWithin context remaining source node store = (.ok value, after))
    (makesTwin : other.MakesClosure)
    (again : evaluateWithin next levels text other later = (.ok twin, last))
    (passed : after.closures ≤ later.closures) : value.same twin = false := by
  obtain ⟨closure, rfl, mark, counted⟩ := evaluateWithin_makesClosure makes run
  obtain ⟨second, rfl, markTwin, _⟩ := evaluateWithin_makesClosure makesTwin again
  have marks : closure.mark ≠ second.mark := by
    rw [mark, markTwin]
    intro same
    have same := ClosureMark.made.inj same
    omega
  simpa [Value.same, Procedure.same] using marks

end Eval
end EagerLisp
