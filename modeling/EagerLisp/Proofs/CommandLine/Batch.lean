import EagerLisp.CommandLine.Batch
import EagerLisp.Proofs.Interpreter.Splitting

namespace EagerLisp

mutual
theorem Node.like_bare (node : Node) : node.Like .placeless node.bare := by
  cases node with
  | leaf atom span => exact .leaf (fun _ _ => trivial) trivial
  | list elements span => exact .list (Node.all_like_bare elements) trivial

theorem Node.all_like_bare (nodes : List Node) :
    List.Forall₂ (Node.Like .placeless) nodes (Node.bareAll nodes) := by
  cases nodes with
  | nil => exact .nil
  | cons node rest => exact .cons (Node.like_bare node) (Node.all_like_bare rest)
end

private theorem Procedure.Like.text {like : Likeness} {procedure twin : Procedure}
    (alike : procedure.Like like twin) : procedure.text = twin.text := by
  cases alike with
  | native native => rfl
  | closure alike => simp only [Procedure.text, alike.name?]

mutual
theorem Value.Like.text {like : Likeness} (value : Value) {twin : Value}
    (alike : value.Like like twin) : value.text = twin.text := by
  cases alike with
  | nil => rfl
  | number value => rfl
  | boolean value => rfl
  | string text => rfl
  | list items => rw [Value.text, Value.text, Value.Like.texts _ items]
  | procedure alike => exact alike.text

theorem Value.Like.texts {like : Likeness} (values : List Value) {twins : List Value}
    (alike : List.Forall₂ (Value.Like like) values twins) :
    Value.texts values = Value.texts twins := by
  cases alike with
  | nil => rfl
  | cons first rest =>
    rw [Value.texts, Value.texts, Value.Like.text _ first, Value.Like.texts _ rest]
end

/-- The expressions of several texts in order, their places forgotten. -/
def program (texts : List String) : List Node :=
  texts.flatMap fun text => (Reader.readable (Token.ofString text)).map Node.bare

theorem program_cons (text : String) (rest : List String) :
    program (text :: rest) = program [text] ++ program rest := by
  simp [program]

theorem program_singleton (text : String) :
    program [text] = (Reader.readable (Token.ofString text)).map Node.bare := by
  simp [program]

namespace Interpreter

variable {σ : Type} {states : σ → σ → Prop} {past : List Event} {context : Context σ}

/-- Evaluates expressions one after the other, all of them for the text of number one; the answer
is the last value. -/
def runNodes (context : Context σ) (last : Value) (store : Store σ) :
    List Node → Except EvalError Value × Store σ
  | [] => (.ok last, store)
  | node :: rest =>
    match runNode context 1 node store with
    | (.ok value, after) => runNodes context value after rest
    | (.error error, after) => (.error error, after)

theorem runNodes_of_ok {last value : Value} {store after : Store σ} {node : Node}
    (run : runNode context 1 node store = (.ok value, after)) (rest : List Node) :
    runNodes context last store (node :: rest) = runNodes context value after rest := by
  rw [runNodes, run]

theorem runNodes_append {last value : Value} {store after : Store σ} {nodes : List Node}
    (run : runNodes context last store nodes = (.ok value, after)) (more : List Node) :
    runNodes context last store (nodes ++ more) = runNodes context value after more := by
  induction nodes generalizing last store with
  | nil =>
    cases run
    rfl
  | cons node rest ih =>
    cases first : runNode context 1 node store with
    | mk outcome next =>
      cases outcome with
      | error error => simp [runNodes, first] at run
      | ok answer =>
        rw [runNodes_of_ok first] at run
        rw [List.cons_append, runNodes_of_ok first]
        exact ih run

private theorem runNodes_readable (around : context.Like .placeless states context) {source : Nat}
    {last lastTwin value : Value} {store storeTwin after : Store σ} {tokens : List Token}
    (run : runTokens context source last store tokens = (.ok value, after))
    (earlier : last.Like .placeless lastTwin)
    (initial : store.Like .placeless states past past storeTwin) :
    ∃ other afterTwin, runNodes context lastTwin storeTwin
        ((Reader.readable tokens).map Node.bare) = (.ok other, afterTwin) ∧
      value.Like .placeless other ∧ after.Like .placeless states past past afterTwin := by
  fun_induction runTokens context source last store tokens generalizing lastTwin storeTwin with
  | case1 last store =>
    cases run
    rw [Reader.readable]
    exact ⟨lastTwin, storeTwin, rfl, earlier, initial⟩
  | case2 => cases run
  | case3 => cases run
  | case4 last store token rest node unread read value after first ih =>
    obtain ⟨valueTwin, afterTwin, runTwin, valued, reached⟩ :=
      (runNode_alike around source 1 node.like_bare).of_ok initial first
    rw [Reader.readable_cons read, List.map_cons, runNodes_of_ok runTwin]
    exact ih run valued reached

theorem run_of_evaluate {host : Host σ} {interpreter after : Interpreter σ} {text : String}
    {outcome : Except Error Value} (evaluated : interpreter.evaluate host text = (outcome, after)) :
    runTokens (interpreter.context host) (interpreter.sources + 1) .nil interpreter.store
        (Token.ofString text) = (outcome, after.store) ∧
      after.context host = interpreter.context host := by
  cases run : runTokens (interpreter.context host) (interpreter.sources + 1) .nil interpreter.store
      (Token.ofString text) with
  | mk answer store =>
    rw [evaluate_of_run run] at evaluated
    cases evaluated
    exact ⟨rfl, rfl⟩

/-- The texts evaluate without an error, one after the other. -/
def EvaluatesAll (host : Host σ) : Interpreter σ → List String → Prop
  | _, [] => True
  | interpreter, text :: rest =>
    ∃ value after, interpreter.evaluate host text = (.ok value, after) ∧
      EvaluatesAll host after rest

theorem EvaluatesAll.cons_of_ok {host : Host σ} {interpreter : Interpreter σ} {text : String}
    {value : Value} (answered : (interpreter.evaluate host text).1 = .ok value)
    {rest : List String}
    (further : EvaluatesAll host (interpreter.evaluate host text).2 rest) :
    EvaluatesAll host interpreter (text :: rest) :=
  ⟨value, _, Prod.ext answered rfl, further⟩

end Interpreter

private theorem Host.none_like : Host.none.Like .placeless Eq Host.none :=
  fun _ _ _ _ _ _ _ _ _ same => ⟨.answer .nil, same⟩

namespace CommandLine

open Interpreter

/-- The texts of a batch: its expressions and then the texts of its files, all of which can be
read. -/
def BatchOptions.Reads (options : BatchOptions) (readFile : String → Except FileFault String)
    (texts : List String) : Prop :=
  ∃ files, options.files.map readFile = files.map .ok ∧ texts = options.expressions ++ files

/-- What the last of the expressions comes to when a new interpreter evaluates them in order. -/
def valueOfLast (limit : Nat) (expressions : List Node) : Except EvalError Value :=
  let interpreter : Interpreter Unit := .new () limit
  (runNodes (interpreter.context Host.none) .nil interpreter.store expressions).1

private theorem fileSources_of_readable {readFile : String → Except FileFault String}
    {names files : List String} (readable : names.map readFile = files.map .ok) :
    ∃ sources, fileSources readFile names = .ok sources ∧ sources.map Source.text = files := by
  induction names generalizing files with
  | nil =>
    obtain rfl := List.map_eq_nil_iff.mp readable.symm
    exact ⟨[], rfl, rfl⟩
  | cons name rest ih =>
    obtain ⟨text, others, rfl, here, further⟩ := List.map_eq_cons_iff.mp readable.symm
    obtain ⟨sources, read, texts⟩ := ih further.symm
    refine ⟨⟨name, text⟩ :: sources, ?_, by rw [List.map_cons, texts]⟩
    rw [fileSources, ← here, read]
    rfl

private theorem texts_expressionSources (expressions : List String) :
    (expressionSources expressions).map Source.text = expressions := by
  rw [expressionSources, List.map_map]
  exact List.zipIdx_map_fst 0 expressions

section Evaluated

variable {interpreter after : Interpreter Unit} {text : String} {value : Value}
  (evaluated : interpreter.evaluate Host.none text = (.ok value, after))

include evaluated

theorem program_eq_nil_iff : program [text] = [] ↔ Token.ofString text = [] := by
  rw [program_singleton, List.map_eq_nil_iff]
  constructor
  · intro none
    obtain ⟨run, _⟩ := run_of_evaluate evaluated
    cases tokens : Token.ofString text with
    | nil => rfl
    | cons token rest =>
      rw [tokens] at run none
      cases read : Reader.read (token :: rest) with
      | mk outcome unread =>
        cases outcome with
        | error error =>
          rw [runTokens_of_unreadable read] at run
          cases run
        | ok node =>
          rw [Reader.readable_cons read] at none
          cases none
  · intro none
    rw [none, Reader.readable]

private theorem eq_nil_of_no_expression (none : program [text] = []) : value = .nil := by
  obtain ⟨run, _⟩ := run_of_evaluate evaluated
  rw [(program_eq_nil_iff evaluated).mp none, runTokens, Prod.mk.injEq] at run
  exact (Except.ok.inj run.1).symm

/-- A text that evaluates does what its expressions do by themselves, and its value is that of the
last of them, if it holds any. -/
theorem runNodes_program (lastTwin : Value) {storeTwin : Store Unit} {past : List Event}
    (initial : interpreter.store.Like .placeless Eq past past storeTwin) :
    ∃ other afterTwin, runNodes (interpreter.context Host.none) lastTwin storeTwin
        (program [text]) = (.ok other, afterTwin) ∧
      (program [text] ≠ [] → value.Like .placeless other) ∧
      after.store.Like .placeless Eq past past afterTwin := by
  have around : (interpreter.context Host.none).Like .placeless Eq
      (interpreter.context Host.none) := ⟨Host.none_like, fun _ _ _ => rfl, rfl⟩
  obtain ⟨run, _⟩ := run_of_evaluate evaluated
  by_cases none : program [text] = []
  · rw [(program_eq_nil_iff evaluated).mp none, runTokens, Prod.mk.injEq] at run
    rw [none, ← run.2]
    exact ⟨lastTwin, storeTwin, rfl, fun some => absurd rfl some, initial⟩
  · have some := mt (program_eq_nil_iff evaluated).mpr none
    rw [runTokens_last some lastTwin] at run
    obtain ⟨other, afterTwin, runTwin, alike, reached⟩ :=
      runNodes_readable around run (.placeless lastTwin) initial
    rw [program_singleton]
    exact ⟨other, afterTwin, runTwin, fun _ => alike, reached⟩

end Evaluated

/-- What the sources come to: the value of the last expression of all if the last source holds
it, and nil if that source holds none. -/
theorem runSources_prints {interpreter : Interpreter Unit} {sources : List Source}
    (evaluates : EvaluatesAll Host.none interpreter (sources.map Source.text))
    (last lastTwin : Value) {storeTwin : Store Unit} {past : List Event}
    (initial : interpreter.store.Like .placeless Eq past past storeTwin) :
    ∃ value other afterTwin, runSources interpreter last sources = .ok value ∧
      runNodes (interpreter.context Host.none) lastTwin storeTwin
        (program (sources.map Source.text)) = (.ok other, afterTwin) ∧
      ∀ text, (sources.map Source.text).getLast? = some text →
        value.text = if (program [text]).isEmpty then "nil" else other.text := by
  induction sources generalizing interpreter last lastTwin storeTwin with
  | nil => exact ⟨last, lastTwin, storeTwin, rfl, rfl, by simp⟩
  | cons source rest ih =>
    obtain ⟨value, after, evaluated, further⟩ := evaluates
    obtain ⟨_, same⟩ := run_of_evaluate evaluated
    obtain ⟨other, afterTwin, run, valued, reached⟩ := runNodes_program evaluated lastTwin initial
    obtain ⟨result, final, finalTwin, runs, runsTwin, printed⟩ :=
      ih further value other reached
    rw [same] at runsTwin
    refine ⟨result, final, finalTwin, ?_, ?_, ?_⟩
    · rw [runSources, evaluated]
      exact runs
    · rw [List.map_cons, program_cons, runNodes_append run, runsTwin]
    · intro text ends
      cases rest with
      | nil =>
        obtain rfl : source.text = text := by simpa using ends
        cases runs
        cases runsTwin
        by_cases none : program [source.text] = []
        · rw [eq_nil_of_no_expression evaluated none, none]
          rfl
        · rw [if_neg (by simpa using none)]
          exact (valued none).text
      | cons next rest =>
        rw [List.map_cons, List.map_cons, List.getLast?_cons_cons] at ends
        exact printed text ends

section Words

variable {interpreter : Interpreter Unit} (limited : interpreter.limit = defaultLimit)

theorem ofString_t : Token.ofString "t" = [⟨.atom "t", ⟨0, 1⟩⟩] := by
  rw [Token.ofString, Token.Pass.scan_eq_foldl_step]
  decide +kernel

theorem ofString_nil : Token.ofString "nil" = [⟨.atom "nil", ⟨0, 3⟩⟩] := by
  rw [Token.ofString, Token.Pass.scan_eq_foldl_step]
  decide +kernel

theorem program_t : program ["t"] = [.leaf (.boolean true) ⟨0, 0⟩] := by
  rw [program_singleton, ofString_t, Reader.readable_cons rfl, Reader.readable]
  rfl

theorem program_nil : program ["nil"] = [.leaf (.boolean false) ⟨0, 0⟩] := by
  rw [program_singleton, ofString_nil, Reader.readable_cons rfl, Reader.readable]
  rfl

theorem program_of_no_token {text : String} (nothing : Token.ofString text = []) :
    program [text] = [] := by
  rw [program_singleton, nothing, Reader.readable, List.map_nil]

include limited

theorem evaluate_t : (interpreter.evaluate Host.none "t").1 = .ok (.boolean true) := by
  obtain ⟨store, natives, limit, sources⟩ := interpreter
  subst limited
  rw [evaluate, ofString_t, runTokens_of_ok rfl rfl, runTokens]

theorem evaluate_nil : (interpreter.evaluate Host.none "nil").1 = .ok (.boolean false) := by
  obtain ⟨store, natives, limit, sources⟩ := interpreter
  subst limited
  rw [evaluate, ofString_nil, runTokens_of_ok rfl rfl, runTokens]

end Words

theorem evaluate_of_no_token {text : String} (nothing : Token.ofString text = [])
    (interpreter : Interpreter Unit) : (interpreter.evaluate Host.none text).1 = .ok .nil := by
  rw [evaluate, nothing, runTokens]

/-- A batch whose texts evaluate prints what the last of all its expressions comes to, however they
are spread over the texts, as long as the last text holds one, and nil otherwise. -/
theorem runBatch_prints_last (options : BatchOptions)
    (readFile : String → Except FileFault String) {texts : List String} {text : String}
    (reads : options.Reads readFile texts)
    (evaluates : EvaluatesAll Host.none (.new () options.limit) texts)
    (ends : texts.getLast? = some text) :
    ∃ value, valueOfLast options.limit (program texts) = .ok value ∧
      runBatch options readFile =
        ⟨0, (if (program [text]).isEmpty then "nil" else value.text) ++ "\n", ""⟩ := by
  obtain ⟨files, readable, rfl⟩ := reads
  obtain ⟨fileTexts, read, named⟩ := fileSources_of_readable readable
  have every : (expressionSources options.expressions ++ fileTexts).map Source.text =
      options.expressions ++ files := by
    rw [List.map_append, texts_expressionSources, named]
  rw [← every] at evaluates ends ⊢
  obtain ⟨value, other, after, runs, runsTwin, printed⟩ := runSources_prints evaluates .nil .nil
    (store_alike rfl)
  have present : (expressionSources options.expressions ++ fileTexts).isEmpty = false := by
    rw [List.isEmpty_eq_false_iff]
    intro none
    rw [none] at ends
    cases ends
  refine ⟨other, congrArg Prod.fst runsTwin, ?_⟩
  rw [← printed text ends]
  simp only [runBatch, read, runs, present]
  rfl

/-- A text without an expression does no harm in front of the last one, which may be that of a
file. -/
theorem runBatch_prints_last_of_file :
    let options : BatchOptions := ⟨defaultLimit, ["nil", "; none"], ["f"]⟩
    let readFile : String → Except FileFault String := fun _ => .ok "t"
    options.Reads readFile ["nil", "; none", "t"] ∧
      EvaluatesAll Host.none (.new () options.limit) ["nil", "; none", "t"] ∧
      runBatch options readFile = ⟨0, "t\n", ""⟩ := by
  intro options readFile
  have nothing : Token.ofString "; none" = [] := by
    rw [Token.ofString, Token.Pass.scan_eq_foldl_step]
    decide +kernel
  have reads : options.Reads readFile ["nil", "; none", "t"] := ⟨["t"], rfl, rfl⟩
  have evaluates : EvaluatesAll Host.none (.new () options.limit) ["nil", "; none", "t"] :=
    .cons_of_ok (evaluate_nil rfl) (.cons_of_ok (evaluate_of_no_token nothing _)
      (.cons_of_ok (evaluate_t rfl) trivial))
  have ends : ["nil", "; none", "t"].getLast? = some "t" := rfl
  obtain ⟨value, last, printed⟩ := runBatch_prints_last options readFile reads evaluates ends
  have nodes : program ["nil", "; none", "t"] =
      [.leaf (.boolean false) ⟨0, 0⟩, .leaf (.boolean true) ⟨0, 0⟩] := by
    rw [program_cons, program_cons "; none", program_nil, program_of_no_token nothing, program_t]
    rfl
  rw [nodes] at last
  obtain rfl : Value.boolean true = value := Except.ok.inj last
  rw [program_t] at printed
  exact ⟨reads, evaluates, printed⟩

/-- A batch of `t` and an empty text prints nil, although its last expression comes to `t`. -/
theorem runBatch_not_prints_last_before_empty :
    let options : BatchOptions := ⟨defaultLimit, ["t", ""], []⟩
    let readFile : String → Except FileFault String := fun _ => .error .absent
    options.Reads readFile ["t", ""] ∧
      EvaluatesAll Host.none (.new () options.limit) ["t", ""] ∧
      valueOfLast options.limit (program ["t", ""]) = .ok (.boolean true) ∧
      runBatch options readFile = ⟨0, "nil\n", ""⟩ ∧
      runBatch options readFile ≠ ⟨0, (Value.boolean true).text ++ "\n", ""⟩ := by
  intro options readFile
  have nothing : Token.ofString "" = [] := by
    rw [Token.ofString, Token.Pass.scan_eq_foldl_step]
    decide +kernel
  have evaluates : EvaluatesAll Host.none (.new () options.limit) ["t", ""] :=
    .cons_of_ok (evaluate_t rfl) (.cons_of_ok (evaluate_of_no_token nothing _) trivial)
  have nodes : program ["t", ""] = [.leaf (.boolean true) ⟨0, 0⟩] := by
    rw [program_cons, program_t, program_of_no_token nothing]
    rfl
  have printed : runBatch options readFile = ⟨0, "nil\n", ""⟩ := by
    have first : ((Interpreter.new () defaultLimit).evaluate Host.none "t").1 = _ := evaluate_t rfl
    cases run : (Interpreter.new () defaultLimit).evaluate Host.none "t" with
    | mk outcome after =>
      rw [run] at first
      subst first
      have second := evaluate_of_no_token nothing after
      cases runEmpty : after.evaluate Host.none "" with
      | mk outcome final =>
        rw [runEmpty] at second
        subst second
        simp only [runBatch, fileSources, expressionSources, List.zipIdx_cons, List.zipIdx_nil,
          List.map_cons, List.map_nil, List.append_nil, runSources, options, run, runEmpty]
        rfl
  refine ⟨⟨[], rfl, rfl⟩, evaluates, ?_, printed, ?_⟩
  · rw [nodes]
    rfl
  · rw [printed]
    decide

end CommandLine
end EagerLisp
