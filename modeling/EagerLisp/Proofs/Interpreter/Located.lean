import EagerLisp.Proofs.Eval.Provenance
import EagerLisp.Proofs.Interpreter.Session

namespace EagerLisp

/-- What is written in the texts of a session stays so when the session goes on. -/
theorem Value.WrittenIn.append {requests : List Request} {value : Value}
    (written : value.WrittenIn (textsOf requests)) (more : List Request) :
    value.WrittenIn (textsOf (requests ++ more)) := by
  intro closure holds node member
  exact textsOf_append more (written closure holds node member)

namespace Interpreter

variable {σ : Type} {carries : σ → Closure → Prop} {texts : Nat → List Node}

theorem runNode_provenance {context : Context σ} (faithful : context.host.Faithful carries)
    {source : Nat} {node : Node} (among : node.Among (texts source)) :
    Action.Keeps (Store.WrittenIn carries texts) (Value.WrittenIn texts)
      (EvalError.PlacedIn (texts source)) (runNode context source node) := by
  intro store written
  have keeps := Eval.evaluateWithin_provenance faithful context.limit source node among
  have started : Store.WrittenIn carries texts
      { store with events := .started node :: store.events } :=
    written.record (by simp [Event.values])
  obtain ⟨after, met⟩ := keeps _ started
  unfold runNode Eval.evaluate
  split
  case h_1 value later same =>
    rw [same] at after met
    exact ⟨after, met⟩
  case h_2 error later same =>
    rw [same] at after met
    exact ⟨after.record (by simp [Event.values]), met⟩

/-- Where an error of running tokens comes from: a parenthesis among them, or the text. -/
inductive FailsIn (tokens : List Token) (text : List Node) : Error → Prop where
  | reading {error : SyntaxError} {token : Token} (member : token ∈ tokens)
      (blames : Reader.Blames token.span error) : FailsIn tokens text (.reading error)
  | running {error : EvalError} (placed : error.PlacedIn text) :
      FailsIn tokens text (.running error)

private theorem FailsIn.later {tokens unread : List Token} {text : List Node} {error : Error}
    (suffix : unread <:+ tokens) (fails : FailsIn unread text error) :
    FailsIn tokens text error := by
  cases fails with
  | reading member blames => exact .reading (suffix.subset member) blames
  | running placed => exact .running placed

/-- Running a text keeps the provenance of closures; it fails at one of its parentheses or in an
expression of the text. -/
theorem runTokens_provenance {context : Context σ} (faithful : context.host.Faithful carries)
    {source : Nat} {last : Value} {store : Store σ} {tokens : List Token}
    (written : store.WrittenIn carries texts) (good : last.WrittenIn texts)
    (readable : ∀ node ∈ Reader.readable tokens, node.Among (texts source)) :
    (runTokens context source last store tokens).2.WrittenIn carries texts ∧
      Meets (Value.WrittenIn texts) (FailsIn tokens (texts source))
        (runTokens context source last store tokens).1 := by
  fun_induction runTokens context source last store tokens with
  | case1 => exact ⟨written, good⟩
  | case2 last store token rest error unread same =>
    obtain ⟨blamed, member, blames⟩ := Reader.read_blames same
    exact ⟨written, .reading member blames⟩
  | case3 last store token rest node unread same error after run =>
    have among := readable node (by simp [Reader.readable_cons same])
    have kept := runNode_provenance faithful among store written
    rw [run] at kept
    exact ⟨kept.1, .running kept.2⟩
  | case4 last store token rest node unread same value after run ih =>
    have among := readable node (by simp [Reader.readable_cons same])
    have kept := runNode_provenance faithful among store written
    rw [run] at kept
    obtain ⟨reached, met⟩ := ih kept.1 kept.2 fun other member =>
      readable other (by simp [Reader.readable_cons same, member])
    refine ⟨reached, ?_⟩
    cases outcome : (runTokens context source value after unread).1 with
    | ok answer =>
      rw [outcome] at met
      exact met
    | error error =>
      rw [outcome] at met
      exact FailsIn.later (Reader.read_suffix same) met

/-- What evaluating a text does, if the text has the next number. -/
theorem evaluate_provenance {host : Host σ} (faithful : host.Faithful carries)
    {interpreter : Interpreter σ} {source : String}
    (written : interpreter.store.WrittenIn carries texts)
    (numbered : texts (interpreter.sources + 1) = Reader.readable (Token.ofString source)) :
    (interpreter.evaluate host source).2.store.WrittenIn carries texts ∧
      Meets (Value.WrittenIn texts)
        (FailsIn (Token.ofString source) (Reader.readable (Token.ofString source)))
        (interpreter.evaluate host source).1 := by
  have readable : ∀ node ∈ Reader.readable (Token.ofString source),
      node.Among (texts (interpreter.sources + 1)) := by
    intro node member
    rw [numbered]
    exact .of_mem member
  have trusted : (interpreter.context host).host.Faithful carries := faithful
  have ran := runTokens_provenance trusted written Value.writtenIn_nil readable
  rw [numbered] at ran
  exact ran

theorem evaluateNode_provenance {host : Host σ} (faithful : host.Faithful carries)
    {interpreter : Interpreter σ} {node : Node}
    (written : interpreter.store.WrittenIn carries texts)
    (numbered : texts (interpreter.sources + 1) = [node]) :
    (interpreter.evaluateNode host node).2.store.WrittenIn carries texts ∧
      Meets (Value.WrittenIn texts) (EvalError.PlacedIn [node])
        (interpreter.evaluateNode host node).1 := by
  have among : node.Among (texts (interpreter.sources + 1)) := by
    rw [numbered]
    exact .of_mem (by simp)
  have trusted : (interpreter.context host).host.Faithful carries := faithful
  have ran := runNode_provenance trusted among _ written
  rw [numbered] at ran
  exact ran

theorem serve_written {host : Host σ} (faithful : host.Faithful carries)
    {interpreter : Interpreter σ} {request : Request}
    (written : interpreter.store.WrittenIn carries texts)
    (numbered : ∀ nodes, request.text? = some nodes → texts (interpreter.sources + 1) = nodes)
    (given : ∀ name value, request = .setVariable name value → value.WrittenIn texts) :
    (serve host interpreter request).store.WrittenIn carries texts := by
  cases request with
  | evaluate source => exact (evaluate_provenance faithful written (numbered _ rfl)).1
  | evaluateNode node => exact (evaluateNode_provenance faithful written (numbered _ rfl)).1
  | register name index =>
    refine written.record fun value member => ?_
    split at member <;> cases member
  | setVariable name value =>
    have good := given name value rfl
    exact (written.record (by simpa [Event.values] using good)).insert name good

private theorem answer_written {host : Host σ} (faithful : host.Faithful carries)
    {interpreter : Interpreter σ} {request : Request} {value : Value}
    (written : interpreter.store.WrittenIn carries texts)
    (numbered : ∀ nodes, request.text? = some nodes → texts (interpreter.sources + 1) = nodes)
    (answered : answer? host interpreter request = some value) : value.WrittenIn texts := by
  cases request with
  | evaluate source =>
    have met := (evaluate_provenance faithful written (numbered _ rfl)).2
    rwa [eq_ok_of_toOption answered] at met
  | evaluateNode node =>
    have met := (evaluateNode_provenance faithful written (numbered _ rfl)).2
    rwa [eq_ok_of_toOption answered] at met
  | register name index => cases answered
  | setVariable name value => cases answered

/-- However many requests an interpreter has served, every closure it knows is written in the
texts, and the next requests go on with the numbers. -/
theorem serveAll_written {host : Host σ} (faithful : host.Faithful carries)
    {requests next : List Request} : ∀ {interpreter : Interpreter σ},
      interpreter.store.WrittenIn carries texts →
        Numbers texts interpreter.sources (requests ++ next) →
          (∀ name value, .setVariable name value ∈ requests → value.WrittenIn texts) →
            (serveAll host interpreter requests).store.WrittenIn carries texts ∧
              Numbers texts (serveAll host interpreter requests).sources next := by
  induction requests with
  | nil =>
    intro interpreter written numbers _
    exact ⟨written, numbers⟩
  | cons request rest ih =>
    intro interpreter written numbers given
    have served := serve_written faithful written (fun nodes same => numbers.head same)
      fun name value same => given name value (by simp [same])
    have counted : Numbers texts (serve host interpreter request).sources (rest ++ next) := by
      rw [serve_sources]
      exact numbers.tail
    exact ih served counted fun name value member => given name value (by simp [member])

end Interpreter

/-- The stretch is that of a token of the text, or of an expression read from it. -/
def Span.Marks (span : Span) (source : String) : Prop :=
  (∃ token ∈ Token.ofString source, token.span = span) ∨
    ∃ node : Node, node.Among (Reader.readable (Token.ofString source)) ∧ node.span = span

private theorem Span.Marks.fitsIn {span : Span} {source : String} (marks : span.Marks source) :
    span.FitsIn source.toList := by
  rcases marks with ⟨token, member, rfl⟩ | ⟨node, among, rfl⟩
  · exact Token.fitsIn_of_mem member
  · exact Reader.fitsIn_of_readable among

/-- The error has a place, and the place is a token or an expression of the text, a stretch of whole
characters. -/
structure Error.LocatedIn (error : Error) (source : String) (span : Span) : Prop where
  readable : error ≠ .reading .unexpectedEnd
  lexed : ∀ other, error ≠ .reading (.invalidToken other)
  placed : error.span? = some span
  marks : span.Marks source
  ordered : span.start ≤ span.stop
  bounded : span.stop ≤ source.utf8ByteSize
  starts : String.Pos.Raw.IsValid source ⟨span.start⟩
  stops : String.Pos.Raw.IsValid source ⟨span.stop⟩

namespace Interpreter

variable {σ : Type} {carries : σ → Closure → Prop}

private theorem FailsIn.locatedIn {source : String} {error : Error}
    (fails : FailsIn (Token.ofString source) (Reader.readable (Token.ofString source)) error) :
    ∃ span, error.LocatedIn source span := by
  have located (span : Span) (marks : span.Marks source) (placed : error.span? = some span)
      (readable : error ≠ .reading .unexpectedEnd)
      (lexed : ∀ other, error ≠ .reading (.invalidToken other)) : error.LocatedIn source span := by
    have fits := marks.fitsIn
    have bounded := fits.stops.le
    rw [Token.byteLength_eq_utf8ByteSize, String.ofList_toList] at bounded
    exact ⟨readable, lexed, placed, marks, fits.ordered, bounded, fits.starts.isValid,
      fits.stops.isValid⟩
  cases fails with
  | @reading cause token member blames =>
    refine ⟨token.span, ?_⟩
    have marks : token.span.Marks source := .inl ⟨token, member, rfl⟩
    cases blames with
    | unclosed => exact located _ marks rfl (by simp) (by simp)
    | unopened => exact located _ marks rfl (by simp) (by simp)
    | tooDeep => exact located _ marks rfl (by simp) (by simp)
  | @running failure placed =>
    obtain ⟨node, among, here⟩ := placed
    exact ⟨failure.span, located _ (.inr ⟨node, among, here.symm⟩) rfl (by simp) (by simp)⟩

section Session

variable {host : Host σ} {state : σ} {requests : List Request} {request : Request}
  {source : String}

/-- A session comes to its last request with every closure written in its texts if no closure comes
in from outside: the closures that the host brings along and those in values from outside are. -/
theorem serveAll_new_written (faithful : host.Faithful carries) (limit : Nat)
    (carried : ∀ closure, carries state closure →
      closure.WrittenIn (textsOf (requests ++ [request])))
    (given : ∀ name value, .setVariable name value ∈ requests →
      value.WrittenIn (textsOf (requests ++ [request]))) :
    (serveAll host (new state limit) requests).store.WrittenIn carries
        (textsOf (requests ++ [request])) ∧
      Numbers (textsOf (requests ++ [request])) (serveAll host (new state limit) requests).sources
        [request] := by
  have initial : Store.WrittenIn carries (textsOf (requests ++ [request]))
      (new state limit).store := by
    refine ⟨fun name value found => ?_, carried, fun event member => ?_⟩
    · cases found
    · cases member
  exact serveAll_written faithful initial (numbers_textsOf _) given

/-- Whatever an interpreter gives out is written in its texts, so that it may be given back to it
however the session goes on: its answers, the values of its variables and the arguments that it
calls natives with. -/
theorem given_out_written (faithful : host.Faithful carries) (limit : Nat)
    (carried : ∀ closure, carries state closure →
      closure.WrittenIn (textsOf (requests ++ [request])))
    (given : ∀ name value, .setVariable name value ∈ requests ++ [request] →
      value.WrittenIn (textsOf (requests ++ [request])))
    (more : List Request) :
    let reached := serveAll host (new state limit) requests
    let after := serve host reached request
    let texts := textsOf (requests ++ [request] ++ more)
    (∀ value, answer? host reached request = some value → value.WrittenIn texts) ∧
    (∀ name value, after.valueOf? name = some value → value.WrittenIn texts) ∧
    ∀ native arguments span, .nativeCalled native arguments span ∈ after.store.events →
      ∀ argument ∈ arguments, argument.WrittenIn texts := by
  intro reached after texts
  obtain ⟨written, last⟩ := serveAll_new_written faithful limit carried
    fun name value member => given name value (by simp [member])
  have numbered (nodes : List Node) (same : request.text? = some nodes) :
      textsOf (requests ++ [request]) (reached.sources + 1) = nodes := last.head same
  have later : after.store.WrittenIn carries (textsOf (requests ++ [request])) :=
    serve_written faithful written numbered fun name value same => given name value (by simp [same])
  refine ⟨fun value answered => ?_, fun name value found => ?_,
    fun native arguments span member argument among => ?_⟩
  · exact (answer_written faithful written numbered answered).append more
  · exact (later.environment name value found).append more
  · exact (later.noted _ member argument among).append more

/-- The last evaluation of a session, if no closure comes in from outside. -/
theorem serveAll_evaluate_provenance (faithful : host.Faithful carries) (limit : Nat)
    (carried : ∀ closure, carries state closure →
      closure.WrittenIn (textsOf (requests ++ [.evaluate source])))
    (given : ∀ name value, .setVariable name value ∈ requests →
      value.WrittenIn (textsOf (requests ++ [.evaluate source]))) :
    Meets (Value.WrittenIn (textsOf (requests ++ [.evaluate source])))
      (FailsIn (Token.ofString source) (Reader.readable (Token.ofString source)))
      ((serveAll host (new state limit) requests).evaluate host source).1 := by
  obtain ⟨written, last⟩ := serveAll_new_written faithful limit carried given
  exact (evaluate_provenance faithful written (last.head rfl)).2

end Session

/-- A failed evaluation points into the text that was evaluated, whatever was asked of the
interpreter before. -/
theorem evaluate_error_located (host : Host σ) (carries : σ → Closure → Prop)
    (faithful : host.Faithful carries) (state : σ) (limit : Nat) (requests : List Request)
    (source : String)
    (carried : ∀ closure, carries state closure →
      closure.WrittenIn (textsOf (requests ++ [.evaluate source])))
    (given : ∀ name value, .setVariable name value ∈ requests →
      value.WrittenIn (textsOf (requests ++ [.evaluate source])))
    (error : Error)
    (failed : ((serveAll host (new state limit) requests).evaluate host source).1 =
      .error error) :
    ∃ span, error.LocatedIn source span := by
  have met := serveAll_evaluate_provenance faithful limit carried given
  rw [failed] at met
  exact FailsIn.locatedIn met

/-- A host that remembers the last argument it was given and answers with the one before. -/
def rememberingHost : Host Value :=
  ⟨fun _ arguments _ state => (.ok state, arguments.head?.getD .nil)⟩

private theorem rememberingHost_faithful :
    rememberingHost.Faithful fun state closure => state.Holds closure := by
  refine ⟨?_, ?_, ?_⟩
  · intro index arguments span state error same
    cases same
  · intro index arguments span state value closure same holds
    cases same
    exact .inr holds
  · intro index arguments span state closure holds
    cases arguments with
    | nil => cases holds
    | cons first rest => exact .inl ⟨first, by simp, holds⟩

/-- A closure of the first text goes out, comes back as a variable, stays with the host for a while
and fails at the place where the last text calls it. -/
theorem evaluate_error_located_after_return :
    let name (text : String) : Node := .leaf (.symbol text) ⟨0, 1⟩
    let body : Node := .leaf (.symbol "z") ⟨70, 71⟩
    let definition : Node := .list [name "defun", name "g", .list [] ⟨0, 2⟩, body] ⟨0, 80⟩
    let closure : Closure := ⟨.made 0, some "g", [], [body], 1⟩
    let requests : List Request := [.register "swap" 0, .evaluateNode definition,
      .setVariable "k" (.procedure (.closure closure)),
      .evaluateNode (.list [name "swap", name "k"] ⟨0, 8⟩)]
    let error : Error := .running ⟨.undefinedSymbol "z", ⟨0, 10⟩⟩
    ((serveAll rememberingHost (new .nil 128) requests).evaluate rememberingHost
        "((swap g))").1 = .error error ∧
      ∃ span, error.LocatedIn "((swap g))" span := by
  intro name body definition closure requests error
  have tokens : Token.ofString "((swap g))" = [⟨.openParen, ⟨0, 1⟩⟩, ⟨.openParen, ⟨1, 2⟩⟩,
      ⟨.atom "swap", ⟨2, 6⟩⟩, ⟨.atom "g", ⟨7, 8⟩⟩, ⟨.closeParen, ⟨8, 9⟩⟩,
      ⟨.closeParen, ⟨9, 10⟩⟩] := by
    rw [Token.ofString, Token.Pass.scan_eq_foldl_step]
    decide +kernel
  have failed : ((serveAll rememberingHost (new .nil 128) requests).evaluate rememberingHost
      "((swap g))").1 = .error error := by
    rw [evaluate, tokens, runTokens]
    rfl
  refine ⟨failed, evaluate_error_located rememberingHost _ rememberingHost_faithful .nil 128
    requests "((swap g))" ?_ ?_ error failed⟩
  · intro other holds
    cases holds
  · intro target value member
    obtain ⟨_, same⟩ : target = "k" ∧ value = .procedure (.closure closure) := by
      simpa [requests] using member
    have first : textsOf (requests ++ [.evaluate "((swap g))"]) closure.source = [definition] :=
      numbers_textsOf _ 0 _ rfl
    rw [same, Value.writtenIn_procedure]
    intro node inside
    cases List.mem_singleton.mp inside
    rw [first]
    exact ⟨definition, by simp, .of_mem (by simp)⟩

/-- A host whose procedure answers with a closure from nowhere that claims to be of the first
text. -/
def strayHost : Host Unit :=
  ⟨fun _ _ _ state =>
    (.ok (.procedure (.closure ⟨.given 0, none, [], [.leaf (.symbol "xyz") ⟨10, 13⟩], 1⟩)), state)⟩

/-- Placing its errors at the call is not enough for a host: with a closure from outside an error
can point past the end of the text. -/
theorem evaluate_error_not_located_of_stray_closure :
    (∀ index arguments span state error,
      (strayHost.call index arguments span state).1 = .error error → error.span = span) ∧
    ∃ error, ((serveAll strayHost (new () 128) [.register "f" 0]).evaluate strayHost "((f))").1 =
        .error error ∧
      ¬∃ span, error.LocatedIn "((f))" span := by
  constructor
  · intro index arguments span state error same
    cases same
  · have tokens : Token.ofString "((f))" = [⟨.openParen, ⟨0, 1⟩⟩, ⟨.openParen, ⟨1, 2⟩⟩,
        ⟨.atom "f", ⟨2, 3⟩⟩, ⟨.closeParen, ⟨3, 4⟩⟩, ⟨.closeParen, ⟨4, 5⟩⟩] := by
      rw [Token.ofString, Token.Pass.scan_eq_foldl_step]
      decide +kernel
    refine ⟨.running ⟨.undefinedSymbol "xyz", ⟨10, 13⟩⟩, ?_, ?_⟩
    · rw [evaluate, tokens, runTokens]
      rfl
    · rintro ⟨span, located⟩
      have same : span = ⟨10, 13⟩ := (Option.some.inj located.placed).symm
      have bounded := located.bounded
      rw [same] at bounded
      exact absurd bounded (by decide)

end Interpreter
end EagerLisp
