import EagerLisp.Proofs.Eval.Passing
import EagerLisp.Proofs.Interpreter.Session

namespace EagerLisp

namespace Interpreter

open EagerLisp.Action EagerLisp.Eval

variable {σ : Type}

/-- The store comes about while the expressions among the tokens are evaluated in turn. -/
inductive PassesText (context : Context σ) (source : Nat) :
    List Token → Store σ → Store σ → Prop where
  | start (tokens : List Token) (store : Store σ) : PassesText context source tokens store store
  | inside {tokens unread : List Token} {node : Node} {store state : Store σ}
      (same : Reader.read tokens = (.ok node, unread))
      (passes : Passes context ⟨context.limit, source, node,
        { store with events := .started node :: store.events }⟩ state) :
      PassesText context source tokens store state
  | later {tokens unread : List Token} {node : Node} {store after state : Store σ} {value : Value}
      (same : Reader.read tokens = (.ok node, unread))
      (run : runNode context source node store = (.ok value, after))
      (passes : PassesText context source unread after state) :
      PassesText context source tokens store state

/-- The store comes about while the interpreter serves the request. -/
inductive PassesRequest (host : Host σ) (interpreter : Interpreter σ) :
    Request → Store σ → Prop where
  | start (request : Request) : PassesRequest host interpreter request interpreter.store
  | finish (request : Request) :
      PassesRequest host interpreter request (serve host interpreter request).store
  | text {source : String} {state : Store σ}
      (passes : PassesText (interpreter.context host) (interpreter.sources + 1)
        (Token.ofString source) interpreter.store state) :
      PassesRequest host interpreter (.evaluate source) state
  | node {node : Node} {state : Store σ}
      (passes : Passes (interpreter.context host) ⟨interpreter.limit, interpreter.sources + 1, node,
        { interpreter.store with events := .started node :: interpreter.store.events }⟩ state) :
      PassesRequest host interpreter (.evaluateNode node) state

end Interpreter

namespace Eval.Invariant

open EagerLisp.Action Interpreter

variable {σ : Type} {context : Context σ} {kept : Store σ → Prop} {good : Value → Prop}
  {source : Nat}

theorem started (invariant : Invariant context kept good) (node : Node) {store : Store σ}
    (initial : kept store) : kept { store with events := .started node :: store.events } :=
  invariant.noted (.started node) store (by simp [Event.values]) initial

theorem runNode_keeps (invariant : Invariant context kept good) (node : Node) :
    Keeps kept good (fun _ => True) (runNode context source node) := by
  intro store initial
  have keeps := invariant.evaluateWithin_keeps context.limit source node
  obtain ⟨after, met⟩ := keeps _ (invariant.started node initial)
  unfold runNode evaluate
  split
  case h_1 value later same =>
    rw [same] at after met
    exact ⟨after, met⟩
  case h_2 error later same =>
    rw [same] at after
    exact ⟨invariant.noted (.failed error) later (by simp [Event.values]) after, trivial⟩

/-- An invariant holds after every text, and every answer is a good value. -/
theorem runTokens_keeps (invariant : Invariant context kept good) (tokens : List Token)
    {last : Value} (answer : good last) :
    ∀ {store : Store σ}, kept store →
      kept (runTokens context source last store tokens).2 ∧
        Meets good (fun _ => True) (runTokens context source last store tokens).1 := by
  intro store initial
  fun_induction runTokens context source last store tokens with
  | case1 => exact ⟨initial, answer⟩
  | case2 => exact ⟨initial, trivial⟩
  | case3 last store token rest node unread same error after run =>
    have reached : kept (runNode context source node store).2 :=
      (invariant.runNode_keeps node store initial).1
    rw [run] at reached
    exact ⟨reached, trivial⟩
  | case4 last store token rest node unread same value after run ih =>
    obtain ⟨later, answer⟩ := (invariant.runNode_keeps node).of_ok initial run
    exact ih answer later

/-- An invariant holds of every store that is passed while a text is evaluated. -/
theorem passesText (invariant : Invariant context kept good) {tokens : List Token}
    {store state : Store σ} (passes : PassesText context source tokens store state)
    (initial : kept store) : kept state := by
  induction passes with
  | start => exact initial
  | inside _ passes => exact invariant.passes passes (invariant.started _ initial)
  | later _ run _ ih => exact ih ((invariant.runNode_keeps _).of_ok initial run).1

end Eval.Invariant
end EagerLisp
