import EagerLisp.Proofs.Console.Balance
import EagerLisp.Proofs.Eval.Relating
import EagerLisp.Proofs.Interpreter.Limit
import EagerLisp.Proofs.Node.Likeness
import EagerLisp.Proofs.Token.Join

namespace EagerLisp

/-- The errors are of one kind, at corresponding places. -/
inductive Error.Like (like : Likeness) : Error → Error → Prop where
  | reading {error twin : SyntaxError} (alike : error.Like like twin) :
      Error.Like like (.reading error) (.reading twin)
  | running {error twin : EvalError} (alike : error.Like like twin) :
      Error.Like like (.running error) (.running twin)

namespace Interpreter

open EagerLisp.Action

variable {σ : Type} {states : σ → σ → Prop} {past : List Event} {context : Context σ}

/-- Outcomes and stores that differ in places and in the numbers of texts only. -/
structure RunAlike (states : σ → σ → Prop) (past : List Event)
    (run twin : Except Error Value × Store σ) : Prop where
  outcome : Both (Value.Like .placeless) (Error.Like .placeless) run.1 twin.1
  store : run.2.Like .placeless states past past twin.2

theorem runNode_alike (around : context.Like .placeless states context) (source sourceTwin : Nat)
    {node twin : Node} (alike : node.Like .placeless twin) :
    Eval.Respects .placeless states past past (Value.Like .placeless)
      (runNode context source node) (runNode context sourceTwin twin) := by
  intro store storeTwin initial
  have run := Eval.evaluateWithin_alike around context.limit source sourceTwin node twin trivial
    alike _ _ (initial.record (.started alike))
  simp only [runNode, Eval.evaluate]
  generalize Eval.evaluateWithin context context.limit source node _ = first at run ⊢
  generalize Eval.evaluateWithin context context.limit sourceTwin twin _ = second at run ⊢
  obtain ⟨outcome, after⟩ := first
  obtain ⟨outcomeTwin, afterTwin⟩ := second
  obtain ⟨reached, met⟩ := run
  cases met with
  | answer alike => exact ⟨reached, .answer alike⟩
  | failure alike => exact ⟨reached.record (.failed alike), .failure alike⟩

/-- Running the same lexemes comes to the same, wherever they stand. -/
theorem runTokens_alike (around : context.Like .placeless states context)
    {source sourceTwin : Nat} {tokens twins : List Token} (same : Reader.SameLexemes tokens twins)
    {last lastTwin : Value} (earlier : last.Like .placeless lastTwin) {store storeTwin : Store σ}
    (initial : store.Like .placeless states past past storeTwin) :
    RunAlike states past (runTokens context source last store tokens)
      (runTokens context sourceTwin lastTwin storeTwin twins) := by
  fun_induction runTokens context source last store tokens generalizing twins lastTwin storeTwin
    with
  | case1 last store =>
    obtain rfl := List.map_eq_nil_iff.mp same.symm
    rw [runTokens]
    exact ⟨.answer earlier, initial⟩
  | case2 last store token rest error unread read =>
    obtain ⟨twin, twins, rfl, _, _⟩ := List.map_eq_cons_iff.mp same.symm
    obtain ⟨errorTwin, unreadTwin, readTwin, alike⟩ := Reader.read_alike_of_error same read
    rw [runTokens_of_unreadable readTwin]
    exact ⟨.failure (.reading alike), initial⟩
  | case3 last store token rest node unread read error after run =>
    obtain ⟨twin, twins, rfl, _, _⟩ := List.map_eq_cons_iff.mp same.symm
    obtain ⟨nodeTwin, unreadTwin, readTwin, alike, later⟩ := Reader.read_alike_of_ok same read
    obtain ⟨errorTwin, afterTwin, runTwin, failed, reached⟩ :=
      (runNode_alike around source sourceTwin alike).of_error initial run
    rw [runTokens_of_error readTwin runTwin]
    exact ⟨.failure (.running failed), reached⟩
  | case4 last store token rest node unread read value after run ih =>
    obtain ⟨twin, twins, rfl, _, _⟩ := List.map_eq_cons_iff.mp same.symm
    obtain ⟨nodeTwin, unreadTwin, readTwin, alike, later⟩ := Reader.read_alike_of_ok same read
    obtain ⟨valueTwin, afterTwin, runTwin, valued, reached⟩ :=
      (runNode_alike around source sourceTwin alike).of_ok initial run
    rw [runTokens_of_ok readTwin runTwin]
    exact ih later valued reached

section Pieces

variable {source : Nat} {last value : Value} {store after : Store σ} {tokens : List Token}

private theorem runTokens_append_of_ok
    (run : runTokens context source last store tokens = (.ok value, after)) (more : List Token) :
    runTokens context source last store (tokens ++ more) =
      runTokens context source value after more := by
  fun_induction runTokens context source last store tokens with
  | case1 last store =>
    cases run
    rfl
  | case2 => cases run
  | case3 => cases run
  | case4 last store token rest node unread read value after first ih =>
    exact (runTokens_of_ok (Reader.read_append read more) first).trans (ih run)

/-- Tokens that fail to run fail whatever follows, be it readable or not. -/
theorem runTokens_append_of_error {error : EvalError}
    (run : runTokens context source last store tokens = (.error (.running error), after))
    (more : List Token) :
    runTokens context source last store (tokens ++ more) = (.error (.running error), after) := by
  fun_induction runTokens context source last store tokens with
  | case1 => cases run
  | case2 => cases run
  | case3 last store token rest node unread read error after failed =>
    cases run
    exact runTokens_of_error (Reader.read_append read more) failed
  | case4 last store token rest node unread read value after first ih =>
    exact (runTokens_of_ok (Reader.read_append read more) first).trans (ih run)

theorem runTokens_last (some : tokens ≠ []) (other : Value) :
    runTokens context source last store tokens = runTokens context source other store tokens := by
  cases tokens with
  | nil => exact absurd rfl some
  | cons token rest => rw [runTokens, runTokens]

end Pieces

section Twins

variable (around : context.Like .placeless states context) {source sourceTwin : Nat}
  {front ahead : List Token} (same : Reader.SameLexemes front ahead) {last lastTwin : Value}
  (earlier : last.Like .placeless lastTwin) {store storeTwin after : Store σ}
  (initial : store.Like .placeless states past past storeTwin)

include around same earlier initial

variable (sourceTwin) in
private theorem runTokens_twin {outcome : Except Error Value}
    (run : runTokens context source last store front = (outcome, after)) :
    ∃ outcomeTwin afterTwin,
      runTokens context sourceTwin lastTwin storeTwin ahead = (outcomeTwin, afterTwin) ∧
        Both (Value.Like .placeless) (Error.Like .placeless) outcome outcomeTwin ∧
          after.Like .placeless states past past afterTwin := by
  obtain ⟨met, stores⟩ : RunAlike states past (runTokens context source last store front)
      (runTokens context sourceTwin lastTwin storeTwin ahead) :=
    runTokens_alike around same earlier initial
  rw [run] at met stores
  exact ⟨_, _, rfl, met, stores⟩

private theorem runTokens_pieces_of_error {error : EvalError}
    (run : runTokens context source last store front = (.error (.running error), after))
    (behind : List Token) :
    ∃ other afterTwin, runTokens context sourceTwin lastTwin storeTwin (ahead ++ behind) =
        (.error (.running other), afterTwin) ∧
      error.Like .placeless other ∧ after.Like .placeless states past past afterTwin := by
  obtain ⟨outcomeTwin, afterTwin, runTwin, met, stores⟩ :=
    runTokens_twin around sourceTwin same earlier initial run
  cases met with
  | failure alike =>
    cases alike with
    | running alike => exact ⟨_, _, runTokens_append_of_error runTwin behind, alike, stores⟩

private theorem runTokens_pieces_of_ok {value : Value}
    (run : runTokens context source last store front = (.ok value, after)) (behind : List Token) :
    ∃ other afterTwin, runTokens context sourceTwin lastTwin storeTwin (ahead ++ behind) =
        runTokens context sourceTwin other afterTwin behind ∧
      value.Like .placeless other ∧ after.Like .placeless states past past afterTwin := by
  obtain ⟨outcomeTwin, afterTwin, runTwin, met, stores⟩ :=
    runTokens_twin around sourceTwin same earlier initial run
  cases met with
  | answer alike => exact ⟨_, _, runTokens_append_of_ok runTwin behind, alike, stores⟩

end Twins

theorem evaluate_of_run {host : Host σ} {interpreter : Interpreter σ} {text : String}
    {outcome : Except Error Value} {after : Store σ}
    (run : runTokens (interpreter.context host) (interpreter.sources + 1) .nil interpreter.store
      (Token.ofString text) = (outcome, after)) :
    interpreter.evaluate host text =
      (outcome, { interpreter with store := after, sources := interpreter.sources + 1 }) := by
  simp only [evaluate, run]

theorem store_alike {store : Store σ} (related : states store.host store.host) :
    store.Like .placeless states store.events store.events store := by
  refine ⟨fun name _ => ?_, related, rfl, [], [], rfl, rfl, .nil⟩
  cases store.environment.find? name with
  | none => exact .none
  | some value => exact .some (.placeless value)

/-- The tokens of a text in two pieces that a newline and a space set apart, piece by piece. -/
theorem exists_tokens_of_pieces (front back : String) (closed : ¬EndsQuoted front.toList) :
    ∃ first second, Token.ofString (front ++ "\n " ++ back) = first ++ second ∧
      Reader.SameLexemes first (Token.ofString front) ∧
      Reader.SameLexemes second (Token.ofString back) := by
  have apart := Token.lexemes_apart closed back.toList
  have whole : (Token.ofString (front ++ "\n " ++ back)).map Token.lexeme =
      (Token.ofString front).map Token.lexeme ++ (Token.ofString back).map Token.lexeme := by
    rw [Token.ofString, Token.ofString, Token.ofString]
    simpa [Token.lexemes] using apart
  obtain ⟨first, second, same, left, right⟩ := List.map_eq_append_iff.mp whole
  exact ⟨first, second, same, left, right⟩

/-- A program may be cut in two at a newline and a space outside quoted stretches. If the first
piece fails to run, the whole program fails with the same error, whatever the second piece is, and
leaves the same store. If it succeeds, the whole program comes to what the second piece comes to in
the interpreter that the first one leaves, or to the value of the first one if there is nothing in
the second. Values, errors and stores are compared without places and numbers of texts, which the
host may use to place its errors only. -/
theorem evaluate_in_pieces (host : Host σ) (states : σ → σ → Prop)
    (respects : host.Like .placeless states host) (interpreter : Interpreter σ)
    (related : states interpreter.store.host interpreter.store.host) (front back : String)
    (closed : ¬EndsQuoted front.toList) :
    let whole := interpreter.evaluate host (front ++ "\n " ++ back)
    let first := interpreter.evaluate host front
    let second := first.2.evaluate host back
    let past := interpreter.store.events
    (∀ error, first.1 = .error (.running error) → ∃ other, whole.1 = .error (.running other) ∧
      error.Like .placeless other ∧ first.2.store.Like .placeless states past past whole.2.store) ∧
    (∀ value, first.1 = .ok value →
      (Token.ofString back = [] → ∃ other, whole.1 = .ok other ∧ value.Like .placeless other) ∧
      (Token.ofString back ≠ [] →
        Both (Value.Like .placeless) (Error.Like .placeless) second.1 whole.1) ∧
      second.2.store.Like .placeless states past past whole.2.store) := by
  intro whole first second past
  have around : (interpreter.context host).Like .placeless states (interpreter.context host) :=
    ⟨respects, fun _ _ _ => rfl, rfl⟩
  have initial : interpreter.store.Like .placeless states past past interpreter.store :=
    store_alike related
  obtain ⟨ahead, behind, tokens, left, right⟩ := exists_tokens_of_pieces front back closed
  cases run : runTokens (interpreter.context host) (interpreter.sources + 1) .nil interpreter.store
      (Token.ofString front) with
  | mk outcome after =>
    have ofFirst : first = (outcome, _) := evaluate_of_run run
    constructor
    · intro error failed
      rw [ofFirst] at failed ⊢
      cases failed
      obtain ⟨other, afterTwin, runTwin, alike, stores⟩ := runTokens_pieces_of_error around
        left.symm (.nil) initial run behind
      rw [← tokens] at runTwin
      have ofWhole : whole = (_, _) := evaluate_of_run runTwin
      rw [ofWhole]
      exact ⟨other, rfl, alike, stores⟩
    · intro value answered
      have ofSecond : second = _ := congrArg (fun first => first.2.evaluate host back) ofFirst
      rw [ofFirst] at answered
      cases answered
      obtain ⟨other, afterTwin, runTwin, alike, stores⟩ := runTokens_pieces_of_ok around
        left.symm .nil initial run behind
      rw [← tokens] at runTwin
      have ofWhole : whole = (_, _) := evaluate_of_run runTwin
      rw [ofWhole, ofSecond]
      by_cases empty : Token.ofString back = []
      · rw [empty] at right
        rw [List.map_eq_nil_iff.mp right, runTokens]
        refine ⟨fun _ => ⟨other, rfl, alike⟩, fun some => absurd empty some, ?_⟩
        simp only [evaluate, empty, runTokens]
        exact stores
      · have further : RunAlike states past
            (runTokens (interpreter.context host) (interpreter.sources + 1 + 1) .nil after
              (Token.ofString back))
            (runTokens (interpreter.context host) (interpreter.sources + 1) other afterTwin
              behind) := by
          rw [runTokens_last empty value]
          exact runTokens_alike around right.symm alike stores
        exact ⟨fun none => absurd none empty, fun _ => further.outcome, further.store⟩

/-- The seam may lie behind a comment, and the second piece may be malformed: in one call as in two,
the host is called for both `(note ())` before the stray parenthesis behind them is met. -/
theorem evaluate_in_pieces_behind_comment :
    let ready : Interpreter Nat := (new 0 8).register "note" 0
    let whole := ready.evaluate countingHost ("(note ()) ; once" ++ "\n " ++ "(note ()))")
    let first := ready.evaluate countingHost "(note ()) ; once"
    let second := first.2.evaluate countingHost "(note ()))"
    first.1 = .ok .nil ∧ first.2.store.host = 1 ∧
    second.1 = .error (.reading (.unopened ⟨9, 10⟩)) ∧ second.2.store.host = 2 ∧
    whole.1 = .error (.reading (.unopened ⟨27, 28⟩)) ∧ whole.2.store.host = 2 ∧
    Both (Value.Like .placeless) (Error.Like .placeless) second.1 whole.1 := by
  intro ready whole first second
  have respects : countingHost.Like .placeless Eq countingHost := by
    intro index arguments twins span spanTwin state stateTwin _ _ same
    exact ⟨.answer .nil, congrArg (· + 1) same⟩
  have pieces := evaluate_in_pieces countingHost Eq respects ready rfl "(note ()) ; once"
    "(note ()))" (by decide)
  have front : Token.ofString "(note ()) ; once" = [⟨.openParen, ⟨0, 1⟩⟩, ⟨.atom "note", ⟨1, 5⟩⟩,
      ⟨.openParen, ⟨6, 7⟩⟩, ⟨.closeParen, ⟨7, 8⟩⟩, ⟨.closeParen, ⟨8, 9⟩⟩] := by
    rw [Token.ofString, Token.Pass.scan_eq_foldl_step]
    decide +kernel
  have back : Token.ofString "(note ()))" = [⟨.openParen, ⟨0, 1⟩⟩, ⟨.atom "note", ⟨1, 5⟩⟩,
      ⟨.openParen, ⟨6, 7⟩⟩, ⟨.closeParen, ⟨7, 8⟩⟩, ⟨.closeParen, ⟨8, 9⟩⟩,
      ⟨.closeParen, ⟨9, 10⟩⟩] := by
    rw [Token.ofString, Token.Pass.scan_eq_foldl_step]
    decide +kernel
  have joined : Token.ofString ("(note ()) ; once" ++ "\n " ++ "(note ()))") =
      [⟨.openParen, ⟨0, 1⟩⟩, ⟨.atom "note", ⟨1, 5⟩⟩, ⟨.openParen, ⟨6, 7⟩⟩, ⟨.closeParen, ⟨7, 8⟩⟩,
        ⟨.closeParen, ⟨8, 9⟩⟩, ⟨.openParen, ⟨18, 19⟩⟩, ⟨.atom "note", ⟨19, 23⟩⟩,
        ⟨.openParen, ⟨24, 25⟩⟩, ⟨.closeParen, ⟨25, 26⟩⟩, ⟨.closeParen, ⟨26, 27⟩⟩,
        ⟨.closeParen, ⟨27, 28⟩⟩] := by
    rw [Token.ofString, Token.Pass.scan_eq_foldl_step]
    decide +kernel
  have ofFirst : first.1 = .ok .nil ∧ first.2.store.host = 1 := by
    simp only [first]
    rw [evaluate, front, runTokens_of_ok rfl rfl, runTokens]
    exact ⟨rfl, rfl⟩
  have ofSecond : second.1 = .error (.reading (.unopened ⟨9, 10⟩)) ∧
      second.2.store.host = 2 := by
    simp only [second]
    rw [evaluate, back, runTokens_of_ok rfl rfl, runTokens_of_unreadable rfl]
    exact ⟨rfl, congrArg (· + 1) ofFirst.2⟩
  have ofWhole : whole.1 = .error (.reading (.unopened ⟨27, 28⟩)) ∧
      whole.2.store.host = 2 := by
    simp only [whole]
    rw [evaluate, joined, runTokens_of_ok rfl rfl, runTokens_of_ok rfl rfl,
      runTokens_of_unreadable rfl]
    exact ⟨rfl, rfl⟩
  obtain ⟨_, outcome, _⟩ := pieces.2 .nil ofFirst.1
  exact ⟨ofFirst.1, ofFirst.2, ofSecond.1, ofSecond.2, ofWhole.1, ofWhole.2,
    outcome (by simp [back])⟩

/-- A host whose procedure answers with the number of the text that its argument is written in. -/
def numberingHost : Host Unit :=
  ⟨fun _ arguments _ state =>
    match arguments with
    | .procedure (.closure closure) :: _ => (.ok (.number closure.source.toFloat), state)
    | _ => (.ok .nil, state)⟩

/-- Ignoring the places of its calls is not enough for a host: the closure of the second piece is
written in the first text when the program is whole, and in the second one when it is in pieces. -/
theorem evaluate_in_pieces_told_apart_by_number :
    let ready : Interpreter Unit := (new () 128).register "src" 0
    let whole := ready.evaluate numberingHost ("t" ++ "\n " ++ "(src (lambda () t))")
    let first := ready.evaluate numberingHost "t"
    let second := first.2.evaluate numberingHost "(src (lambda () t))"
    (∀ index arguments span other state,
      numberingHost.call index arguments span state =
        numberingHost.call index arguments other state) ∧
    ¬EndsQuoted "t".toList ∧ first.1 = .ok (.boolean true) ∧
    Token.ofString "(src (lambda () t))" ≠ [] ∧
    second.1 = .ok (.number 2) ∧ whole.1 = .ok (.number 1) ∧
    ¬Both (Value.Like .placeless) (Error.Like .placeless) second.1 whole.1 := by
  intro ready whole first second
  have front : Token.ofString "t" = [⟨.atom "t", ⟨0, 1⟩⟩] := by
    rw [Token.ofString, Token.Pass.scan_eq_foldl_step]
    decide +kernel
  have back : Token.ofString "(src (lambda () t))" = [⟨.openParen, ⟨0, 1⟩⟩, ⟨.atom "src", ⟨1, 4⟩⟩,
      ⟨.openParen, ⟨5, 6⟩⟩, ⟨.atom "lambda", ⟨6, 12⟩⟩, ⟨.openParen, ⟨13, 14⟩⟩,
      ⟨.closeParen, ⟨14, 15⟩⟩, ⟨.atom "t", ⟨16, 17⟩⟩, ⟨.closeParen, ⟨17, 18⟩⟩,
      ⟨.closeParen, ⟨18, 19⟩⟩] := by
    rw [Token.ofString, Token.Pass.scan_eq_foldl_step]
    decide +kernel
  have joined : Token.ofString ("t" ++ "\n " ++ "(src (lambda () t))") = [⟨.atom "t", ⟨0, 1⟩⟩,
      ⟨.openParen, ⟨3, 4⟩⟩, ⟨.atom "src", ⟨4, 7⟩⟩, ⟨.openParen, ⟨8, 9⟩⟩,
      ⟨.atom "lambda", ⟨9, 15⟩⟩, ⟨.openParen, ⟨16, 17⟩⟩, ⟨.closeParen, ⟨17, 18⟩⟩,
      ⟨.atom "t", ⟨19, 20⟩⟩, ⟨.closeParen, ⟨20, 21⟩⟩, ⟨.closeParen, ⟨21, 22⟩⟩] := by
    rw [Token.ofString, Token.Pass.scan_eq_foldl_step]
    decide +kernel
  have ofFirst : first.1 = .ok (.boolean true) := by
    simp only [first]
    rw [evaluate, front, runTokens_of_ok rfl rfl, runTokens]
  have ofSecond : second.1 = .ok (.number 2) := by
    simp only [second]
    rw [evaluate, back, runTokens_of_ok rfl rfl, runTokens]
    rfl
  have ofWhole : whole.1 = .ok (.number 1) := by
    simp only [whole]
    rw [evaluate, joined, runTokens_of_ok rfl rfl, runTokens_of_ok rfl rfl, runTokens]
    rfl
  have apart {one two : Float} (different : one ≠ two) :
      ¬Both (Value.Like .placeless) (Error.Like .placeless) (.ok (.number one))
        (.ok (.number two)) := by
    intro both
    cases both with
    | answer alike =>
      cases alike
      exact different rfl
  refine ⟨fun _ _ _ _ _ => rfl, by decide, ofFirst, by simp [back], ofSecond, ofWhole, ?_⟩
  rw [ofSecond, ofWhole]
  exact apart (by decide)

end Interpreter
end EagerLisp
