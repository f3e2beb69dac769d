import EagerLisp.Interpreter
import EagerLisp.Proofs.Node.Place

namespace EagerLisp

/-- What an interpreter can be asked to do. -/
inductive Request where
  | evaluate (source : String)
  | evaluateNode (node : Node)
  | register (name : String) (index : Nat)
  | setVariable (name : String) (value : Value)

/-- The expressions that the request brings along as a text of its own. -/
def Request.text? : Request → Option (List Node)
  | .evaluate source => some (Reader.readable (Token.ofString source))
  | .evaluateNode node => some [node]
  | .register _ _ => none
  | .setVariable _ _ => none

/-- The texts of a session by their numbers; the first has number one. -/
def textsOf (requests : List Request) : Nat → List Node
  | 0 => []
  | number + 1 => (requests.filterMap Request.text?)[number]?.getD []

/-- The texts that the requests bring along have the numbers that follow `before`. -/
def Numbers (texts : Nat → List Node) (before : Nat) (requests : List Request) : Prop :=
  ∀ place nodes, (requests.filterMap Request.text?)[place]? = some nodes →
    texts (before + place + 1) = nodes

theorem numbers_textsOf (requests : List Request) : Numbers (textsOf requests) 0 requests := by
  intro place nodes same
  rw [Nat.zero_add, textsOf, same, Option.getD_some]

theorem textsOf_append {requests : List Request} (more : List Request) {node : Node} {number : Nat}
    (among : node.Among (textsOf requests number)) :
    node.Among (textsOf (requests ++ more) number) := by
  cases number with
  | zero => exact among
  | succ number =>
    cases same : (requests.filterMap Request.text?)[number]? with
    | none =>
      rw [textsOf, same] at among
      obtain ⟨_, member, _⟩ := among
      cases member
    | some nodes =>
      have longer : ((requests ++ more).filterMap Request.text?)[number]? = some nodes := by
        rw [List.filterMap_append, List.getElem?_append_left (List.getElem?_eq_some_iff.mp same).1,
          same]
      rw [textsOf, same] at among
      rwa [textsOf, longer]

section Numbers

variable {texts : Nat → List Node} {before : Nat} {request : Request} {rest : List Request}

theorem Numbers.head (numbers : Numbers texts before (request :: rest)) {nodes : List Node}
    (same : request.text? = some nodes) : texts (before + 1) = nodes := by
  refine numbers 0 nodes ?_
  rw [List.filterMap_cons_some same, List.getElem?_cons_zero]

theorem Numbers.tail (numbers : Numbers texts before (request :: rest)) :
    Numbers texts (before + request.text?.toList.length) rest := by
  intro place nodes same
  cases text : request.text? with
  | none =>
    refine numbers place nodes ?_
    rw [List.filterMap_cons_none text, same]
  | some own =>
    have later := numbers (place + 1) nodes (by
      rw [List.filterMap_cons_some text, List.getElem?_cons_succ, same])
    rw [← later]
    congr 1
    simp only [Option.toList_some, List.length_singleton]
    omega

end Numbers

namespace Interpreter

variable {σ : Type}

/-- The interpreter after a request. -/
def serve (host : Host σ) (interpreter : Interpreter σ) : Request → Interpreter σ
  | .evaluate source => (interpreter.evaluate host source).2
  | .evaluateNode node => (interpreter.evaluateNode host node).2
  | .register name index => interpreter.register name index
  | .setVariable name value => interpreter.setVariable name value

theorem eq_ok_of_toOption {ε : Type} {outcome : Except ε Value} {value : Value}
    (same : outcome.toOption = some value) : outcome = .ok value := by
  cases outcome with
  | error error => cases same
  | ok answer => exact congrArg Except.ok (Option.some.inj same)

/-- The value that a request is answered with, if there is one. -/
def answer? (host : Host σ) (interpreter : Interpreter σ) : Request → Option Value
  | .evaluate source => (interpreter.evaluate host source).1.toOption
  | .evaluateNode node => (interpreter.evaluateNode host node).1.toOption
  | .register _ _ => none
  | .setVariable _ _ => none

/-- The interpreter after several requests in turn. -/
def serveAll (host : Host σ) (interpreter : Interpreter σ) (requests : List Request) :
    Interpreter σ :=
  requests.foldl (serve host) interpreter

theorem serve_sources (host : Host σ) (interpreter : Interpreter σ) (request : Request) :
    (serve host interpreter request).sources =
      interpreter.sources + request.text?.toList.length := by
  cases request <;> rfl

end Interpreter
end EagerLisp
