import EagerLisp.Proofs.Eval.Limit
import EagerLisp.Proofs.Interpreter.Session
import EagerLisp.Proofs.Token.OnePass

namespace EagerLisp.Interpreter

open EagerLisp.Action

variable {σ : Type}

/-- The same interpreter under another limit. -/
def withLimit (interpreter : Interpreter σ) (limit : Nat) : Interpreter σ :=
  { interpreter with limit }

/-- What an interpreter answers a request with; only evaluation has an answer. -/
def reply? (host : Host σ) (interpreter : Interpreter σ) :
    Request → Option (Except Error Value)
  | .evaluate source => some (interpreter.evaluate host source).1
  | .evaluateNode node => some ((interpreter.evaluateNode host node).1.mapError .running)
  | .register _ _ => none
  | .setVariable _ _ => none

/-- The answers of an interpreter to several requests in turn. -/
def replies (host : Host σ) (interpreter : Interpreter σ) :
    List Request → List (Option (Except Error Value))
  | [] => []
  | request :: rest =>
    reply? host interpreter request :: replies host (serve host interpreter request) rest

section Tokens

variable {context : Context σ} {source : Nat} {last value : Value} {store after : Store σ}
  {token : Token} {rest unread : List Token} {node : Node}

theorem runTokens_of_unreadable {error : SyntaxError}
    (same : Reader.read (token :: rest) = (.error error, unread)) :
    runTokens context source last store (token :: rest) = (.error (.reading error), store) := by
  rw [runTokens]
  split <;> simp_all

theorem runTokens_of_error {error : EvalError}
    (same : Reader.read (token :: rest) = (.ok node, unread))
    (run : runNode context source node store = (.error error, after)) :
    runTokens context source last store (token :: rest) = (.error (.running error), after) := by
  rw [runTokens]
  split <;> simp_all

theorem runTokens_of_ok (same : Reader.read (token :: rest) = (.ok node, unread))
    (run : runNode context source node store = (.ok value, after)) :
    runTokens context source last store (token :: rest) =
      runTokens context source value after unread := by
  rw [runTokens]
  split <;> simp_all

end Tokens

theorem runNode_cutsOff (host : Host σ) (natives : NativeTable) {low high : Nat} (le : low ≤ high)
    (source : Nat) (node : Node) :
    CutsOff (runNode ⟨host, natives, low⟩ source node)
      (runNode ⟨host, natives, high⟩ source node) := by
  intro store finished
  have agreed := Eval.evaluateWithin_cutsOff host natives low high le source node
    { store with events := .started node :: store.events }
  simp only [runNode, Eval.evaluate] at finished ⊢
  cases same : Eval.evaluateWithin ⟨host, natives, low⟩ low source node
      { store with events := .started node :: store.events } with
  | mk outcome after =>
    rw [same] at agreed finished
    cases outcome with
    | ok value => rw [agreed (.ok value)]
    | error error => rw [agreed (finished_error.mpr (finished_error.mp finished))]

private theorem runTokens_cutsOff (host : Host σ) (natives : NativeTable) {low high : Nat}
    (le : low ≤ high) {source : Nat} {last : Value} {store : Store σ} {tokens : List Token}
    (finished : ∀ error, (runTokens ⟨host, natives, low⟩ source last store tokens).1 =
      .error error → ¬error.IsTooDeep) :
    runTokens ⟨host, natives, high⟩ source last store tokens =
      runTokens ⟨host, natives, low⟩ source last store tokens := by
  fun_induction runTokens ⟨host, natives, low⟩ source last store tokens with
  | case1 => rw [runTokens]
  | case2 last store token rest error unread same => exact runTokens_of_unreadable same
  | case3 last store token rest node unread same error after run =>
    have agreed := runNode_cutsOff host natives le source node store
    rw [run] at agreed
    exact runTokens_of_error same (agreed (finished_error.mpr (finished _ rfl)))
  | case4 last store token rest node unread same value after run ih =>
    have agreed := runNode_cutsOff host natives le source node store
    rw [run] at agreed
    rw [runTokens_of_ok same (agreed (.ok value))]
    exact ih finished

theorem evaluate_cutsOff (host : Host σ) {low high : Nat} (le : low ≤ high)
    (interpreter : Interpreter σ) (text : String)
    (finished : ∀ error, ((interpreter.withLimit low).evaluate host text).1 = .error error →
      ¬error.IsTooDeep) :
    (interpreter.withLimit high).evaluate host text =
      (((interpreter.withLimit low).evaluate host text).1,
        ((interpreter.withLimit low).evaluate host text).2.withLimit high) := by
  have agreed := runTokens_cutsOff host interpreter.natives le finished
  simp only [evaluate, context, withLimit] at agreed ⊢
  rw [agreed]

theorem evaluateNode_cutsOff (host : Host σ) {low high : Nat} (le : low ≤ high)
    (interpreter : Interpreter σ) (node : Node)
    (finished : Finished ((interpreter.withLimit low).evaluateNode host node).1) :
    (interpreter.withLimit high).evaluateNode host node =
      (((interpreter.withLimit low).evaluateNode host node).1,
        ((interpreter.withLimit low).evaluateNode host node).2.withLimit high) := by
  have agreed := runNode_cutsOff host interpreter.natives le (interpreter.sources + 1) node
    interpreter.store finished
  simp only [evaluateNode, context, withLimit] at agreed ⊢
  rw [agreed]

/-- One request of a session: the same answer, and the same interpreter but for the limit. -/
theorem serve_cutsOff (host : Host σ) {low high : Nat} (le : low ≤ high)
    (interpreter : Interpreter σ) (request : Request)
    (finished : ∀ error, reply? host (interpreter.withLimit low) request = some (.error error) →
      ¬error.IsTooDeep) :
    reply? host (interpreter.withLimit high) request =
        reply? host (interpreter.withLimit low) request ∧
      serve host (interpreter.withLimit high) request =
        (serve host (interpreter.withLimit low) request).withLimit high := by
  cases request with
  | evaluate source =>
    have agreed := evaluate_cutsOff host le interpreter source fun error same =>
      finished error (congrArg some same)
    simp only [reply?, serve, agreed, and_self]
  | evaluateNode node =>
    have agreed := evaluateNode_cutsOff host le interpreter node fun error same =>
      finished (.running error) (by rw [reply?, same]; rfl)
    simp only [reply?, serve, agreed, and_self]
  | register name index => exact ⟨rfl, rfl⟩
  | setVariable name value => exact ⟨rfl, rfl⟩

private theorem serve_withLimit (host : Host σ) (interpreter : Interpreter σ) (limit : Nat)
    (request : Request) :
    (serve host (interpreter.withLimit limit) request).withLimit limit =
      serve host (interpreter.withLimit limit) request := by
  cases request <;> rfl

theorem serveAll_cutsOff (host : Host σ) {low high : Nat} (le : low ≤ high)
    (interpreter : Interpreter σ) (requests : List Request)
    (finished : ∀ error, some (.error error) ∈ replies host (interpreter.withLimit low) requests →
      ¬error.IsTooDeep) :
    replies host (interpreter.withLimit high) requests =
        replies host (interpreter.withLimit low) requests ∧
      serveAll host (interpreter.withLimit high) requests =
        (serveAll host (interpreter.withLimit low) requests).withLimit high := by
  induction requests generalizing interpreter with
  | nil => exact ⟨rfl, rfl⟩
  | cons request rest ih =>
    obtain ⟨answer, next⟩ := serve_cutsOff host le interpreter request fun error same =>
      finished error (by rw [replies, same]; exact List.mem_cons_self ..)
    have kept := serve_withLimit host interpreter low request
    have further := ih (serve host (interpreter.withLimit low) request) (by
      rw [kept]
      exact fun error member => finished error (List.mem_cons_of_mem _ member))
    rw [kept] at further
    constructor
    · rw [replies, replies, answer, next, further.1]
    · rw [serveAll, List.foldl_cons, next]
      exact further.2

/-- The limit only cuts runs off. An evaluation that does not end with going too deep has the same
outcome under every higher limit, and leaves the same store: the same variables, the same host, and
the same calls of natives in the same order. So it is with the evaluation of a whole text, and with
a session in which no answer is that of going too deep. -/
theorem limit_only_cuts_off (host : Host σ) (low high : Nat) (le : low ≤ high) :
    (∀ (natives : NativeTable) (source : Nat) (node : Node) (store : Store σ),
      (∀ error, (Eval.evaluate ⟨host, natives, low⟩ source node store).1 = .error error →
        ¬error.IsTooDeep) →
      Eval.evaluate ⟨host, natives, high⟩ source node store =
        Eval.evaluate ⟨host, natives, low⟩ source node store) ∧
    (∀ (interpreter : Interpreter σ) (text : String),
      (∀ error, ((interpreter.withLimit low).evaluate host text).1 = .error error →
        ¬error.IsTooDeep) →
      (interpreter.withLimit high).evaluate host text =
        (((interpreter.withLimit low).evaluate host text).1,
          ((interpreter.withLimit low).evaluate host text).2.withLimit high)) ∧
    (∀ (interpreter : Interpreter σ) (requests : List Request),
      (∀ error, some (.error error) ∈ replies host (interpreter.withLimit low) requests →
        ¬error.IsTooDeep) →
      replies host (interpreter.withLimit high) requests =
          replies host (interpreter.withLimit low) requests ∧
        serveAll host (interpreter.withLimit high) requests =
          (serveAll host (interpreter.withLimit low) requests).withLimit high) := by
  refine ⟨fun natives source node store finished => ?_, ?_, ?_⟩
  · exact Eval.evaluateWithin_cutsOff host natives low high le source node store finished
  · exact evaluate_cutsOff host le
  · exact serveAll_cutsOff host le

/-- A host that counts how often it is called. -/
def countingHost : Host Nat :=
  ⟨fun _ _ _ count => (.ok .nil, count + 1)⟩

/-- Three levels are enough for `(note (note x))`, and under eight the host is called as often: for
the expression, for the text and in a session. -/
theorem limit_only_cuts_off_at_three :
    let inner : Node := .list [.leaf (.symbol "note") ⟨7, 11⟩, .leaf (.symbol "x") ⟨12, 13⟩] ⟨6, 14⟩
    let outer : Node := .list [.leaf (.symbol "note") ⟨1, 5⟩, inner] ⟨0, 15⟩
    let requests : List Request := [.register "note" 0, .setVariable "x" .nil]
    let ready : Interpreter Nat := serveAll countingHost (new 0 3) requests
    let first := Eval.evaluate ⟨countingHost, ready.natives, 8⟩ 1 outer ready.store
    let second := (ready.withLimit 8).evaluate countingHost "(note (note x))"
    let third := serveAll countingHost ((new 0 3).withLimit 8) (requests ++ [.evaluateNode outer])
    first.1 = .ok .nil ∧ first.2.host = 2 ∧ second.1 = .ok .nil ∧ second.2.store.host = 2 ∧
      third.store.host = 2 := by
  intro inner outer requests ready first second third
  have cut := limit_only_cuts_off countingHost 3 8 (by decide)
  have tokens : Token.ofString "(note (note x))" = [⟨.openParen, ⟨0, 1⟩⟩, ⟨.atom "note", ⟨1, 5⟩⟩,
      ⟨.openParen, ⟨6, 7⟩⟩, ⟨.atom "note", ⟨7, 11⟩⟩, ⟨.atom "x", ⟨12, 13⟩⟩,
      ⟨.closeParen, ⟨13, 14⟩⟩, ⟨.closeParen, ⟨14, 15⟩⟩] := by
    rw [Token.ofString, Token.Pass.scan_eq_foldl_step]
    decide +kernel
  have node : Eval.evaluate ⟨countingHost, ready.natives, 3⟩ 1 outer ready.store =
      (.ok .nil, (Eval.evaluate ⟨countingHost, ready.natives, 3⟩ 1 outer ready.store).2) := rfl
  have text : ((ready.withLimit 3).evaluate countingHost "(note (note x))").1 = .ok .nil ∧
      ((ready.withLimit 3).evaluate countingHost "(note (note x))").2.store.host = 2 := by
    rw [evaluate, tokens, runTokens_of_ok rfl rfl, runTokens]
    exact ⟨rfl, rfl⟩
  have session : replies countingHost ((new 0 3).withLimit 3)
      (requests ++ [.evaluateNode outer]) = [none, none, some (.ok .nil)] := rfl
  have atNode := cut.1 ready.natives 1 outer ready.store (by rw [node]; simp)
  have atText := cut.2.1 ready "(note (note x))" (by rw [text.1]; simp)
  have atSession := cut.2.2 (new 0 3) (requests ++ [.evaluateNode outer]) (by rw [session]; simp)
  refine ⟨?_, ?_, ?_, ?_, ?_⟩
  · exact (congrArg Prod.fst atNode).trans rfl
  · exact (congrArg (fun run => run.2.host) atNode).trans rfl
  · exact (congrArg Prod.fst atText).trans text.1
  · exact (congrArg (fun run => run.2.store.host) atText).trans text.2
  · exact (congrArg (fun interpreter => interpreter.store.host) atSession.2).trans rfl

end EagerLisp.Interpreter
