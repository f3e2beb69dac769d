import EagerLisp.Proofs.Eval.Flow
import EagerLisp.Proofs.Eval.Fresh
import EagerLisp.Proofs.Interpreter.Located
import EagerLisp.Proofs.Interpreter.Passing

namespace EagerLisp

variable {σ : Type}

namespace Interpreter

open EagerLisp.Action EagerLisp.Eval

variable {host : Host σ} {outside : Outside σ} {made : List Closure} {interpreter : Interpreter σ}

section Text

variable {context : Context σ} {source : Nat}

theorem runNode_extends (passesOn : context.host.PassesOn outside) (node : Node)
    (made : List Closure) : Discovers outside made (runNode context source node) := by
  intro store ledger
  have started : Ledger outside made { store with events := .started node :: store.events } :=
    ledger.record (by simp [Event.values])
  obtain ⟨later, grows, reached, known⟩ :=
    evaluateWithin_extends passesOn context.limit source node made _ started
  refine ⟨later, grows, ?_⟩
  unfold runNode Eval.evaluate
  split
  case h_1 value after same =>
    rw [same] at reached known
    exact ⟨reached, known⟩
  case h_2 error after same =>
    rw [same] at reached
    exact ⟨reached.record (by simp [Event.values]), fun _ failed => by cases failed⟩

private theorem runTokens_extends (passesOn : context.host.PassesOn outside) (tokens : List Token)
    {last : Value} (answer : last.KnownTo outside made) {store : Store σ}
    (ledger : Ledger outside made store) :
    ∃ later, made <+: later ∧
      Ledger outside later (runTokens context source last store tokens).2 ∧
        ∀ value, (runTokens context source last store tokens).1 = .ok value →
          value.KnownTo outside later := by
  fun_induction runTokens context source last store tokens generalizing made with
  | case1 last store =>
    refine ⟨made, List.prefix_rfl, ledger, fun value same => ?_⟩
    cases same
    exact answer
  | case2 => exact ⟨made, List.prefix_rfl, ledger, fun _ failed => by cases failed⟩
  | case3 last store token rest node unread same error after run =>
    obtain ⟨later, grows, reached, _⟩ := runNode_extends passesOn node made store ledger
    rw [run] at reached
    exact ⟨later, grows, reached, fun _ failed => by cases failed⟩
  | case4 last store token rest node unread same value after run ih =>
    obtain ⟨middle, grows, ledger, known⟩ := (runNode_extends passesOn node made).of_ok ledger run
    obtain ⟨later, further, reached⟩ := ih known ledger
    exact ⟨later, grows.trans further, reached⟩

private theorem passesText_extends (passesOn : context.host.PassesOn outside) {tokens : List Token}
    {store state : Store σ} (passes : PassesText context source tokens store state)
    (ledger : Ledger outside made store) :
    ∃ later, made <+: later ∧ Ledger outside later state := by
  induction passes generalizing made with
  | start => exact ⟨made, List.prefix_rfl, ledger⟩
  | inside _ passes => exact passes_extends passesOn passes (ledger.record (by simp [Event.values]))
  | later _ run _ ih =>
    obtain ⟨middle, grows, ledger, _⟩ := (runNode_extends passesOn _ made).of_ok ledger run
    obtain ⟨later, further, ledger⟩ := ih ledger
    exact ⟨later, grows.trans further, ledger⟩

end Text

theorem serve_extends (passesOn : host.PassesOn outside) (request : Request)
    (given : ∀ name value, request = .setVariable name value → value.KnownTo outside made)
    (ledger : Ledger outside made interpreter.store) :
    ∃ later, made <+: later ∧ Ledger outside later (serve host interpreter request).store ∧
      ∀ value, answer? host interpreter request = some value → value.KnownTo outside later := by
  have trusted : (interpreter.context host).host.PassesOn outside := passesOn
  cases request with
  | evaluate source =>
    obtain ⟨later, grows, reached, known⟩ :=
      runTokens_extends trusted (Token.ofString source) Value.knownTo_nil ledger
    exact ⟨later, grows, reached, fun value answered => known value (eq_ok_of_toOption answered)⟩
  | evaluateNode node =>
    obtain ⟨later, grows, reached, known⟩ := runNode_extends trusted node made _ ledger
    exact ⟨later, grows, reached, fun value answered => known value (eq_ok_of_toOption answered)⟩
  | register name index =>
    refine ⟨made, List.prefix_rfl, ledger.record ?_, fun _ answered => by cases answered⟩
    intro value member
    split at member <;> cases member
  | setVariable name value =>
    have known := given name value rfl
    have noted : Ledger outside made (interpreter.record (.hostAssigned name value)).store :=
      ledger.record (by simpa [Event.values])
    exact ⟨made, List.prefix_rfl, noted.insert name known, fun _ answered => by cases answered⟩

private theorem passesRequest_extends (passesOn : host.PassesOn outside) {request : Request}
    (given : ∀ name value, request = .setVariable name value → value.KnownTo outside made)
    {during : Store σ} (passes : PassesRequest host interpreter request during)
    (ledger : Ledger outside made interpreter.store) :
    ∃ later, made <+: later ∧ Ledger outside later during := by
  cases passes with
  | start => exact ⟨made, List.prefix_rfl, ledger⟩
  | finish =>
    obtain ⟨later, grows, reached, _⟩ := serve_extends passesOn request given ledger
    exact ⟨later, grows, reached⟩
  | text passes => exact passesText_extends passesOn passes ledger
  | node passes => exact passes_extends passesOn passes (ledger.record (by simp [Event.values]))

/-- The procedure came out of the session: it is in the answer to a request, or around when a
request has been served. -/
def Shown (host : Host σ) (carries : σ → Procedure → Prop) (initial : Interpreter σ)
    (requests : List Request) (procedure : Procedure) : Prop :=
  ∃ front request back, requests = front ++ request :: back ∧
    ((∃ value, answer? host (serveAll host initial front) request = some value ∧
        value.Has procedure) ∨
      (serve host (serveAll host initial front) request).store.Has carries procedure)

/-- Whatever procedures are in the values that variables are given from outside, they came from
there or the session has shown them before. -/
def HandsIn (host : Host σ) (outside : Outside σ) (initial : Interpreter σ)
    (requests : List Request) : Prop :=
  ∀ front name value back, requests = front ++ .setVariable name value :: back →
    ∀ procedure, value.Has procedure →
      outside.gives procedure ∨ Shown host outside.carries initial front procedure

section Shown

variable {carries : σ → Procedure → Prop} {initial : Interpreter σ} {requests : List Request}
  {request : Request} {procedure : Procedure}

theorem not_shown_nil : ¬Shown host carries initial [] procedure := by
  rintro ⟨front, request, back, split, _⟩
  simp at split

private theorem Shown.of_snoc
    (shown : Shown host carries initial (requests ++ [request]) procedure) :
    Shown host carries initial requests procedure ∨
      (∃ value, answer? host (serveAll host initial requests) request = some value ∧
        value.Has procedure) ∨
      (serve host (serveAll host initial requests) request).store.Has carries procedure := by
  obtain ⟨front, other, back, split, found⟩ := shown
  rcases List.eq_nil_or_concat back with rfl | ⟨more, last, rfl⟩
  · obtain ⟨rfl, same⟩ := List.append_inj' split rfl
    cases same
    exact .inr found
  · rw [List.concat_eq_append, ← List.cons_append, ← List.append_assoc] at split
    obtain ⟨rfl, _⟩ := List.append_inj' split rfl
    exact .inl ⟨front, other, more, rfl, found⟩

theorem HandsIn.of_snoc (handsIn : HandsIn host outside initial (requests ++ [request])) :
    HandsIn host outside initial requests := by
  intro front name value back split
  exact handsIn front name value (back ++ [request]) (by simp [split])

theorem HandsIn.known (handsIn : HandsIn host outside initial (requests ++ [request]))
    (earlier : ∀ procedure, Shown host outside.carries initial requests procedure →
      procedure.KnownTo outside made) (name : String) (value : Value)
    (same : request = .setVariable name value) : value.KnownTo outside made := by
  intro procedure inside
  rcases handsIn requests name value [] (by rw [same]) procedure inside with foreign | shown
  · exact .inl foreign
  · exact earlier procedure shown

private theorem serveAll_snoc : serveAll host initial (requests ++ [request]) =
    serve host (serveAll host initial requests) request := by
  rw [serveAll, List.foldl_append]
  rfl

/-- After any requests there is a ledger that accounts for all that is around and has been shown. -/
theorem exists_ledger (passesOn : host.PassesOn outside)
    (ledger : Ledger outside [] initial.store) (handsIn : HandsIn host outside initial requests) :
    ∃ made, Ledger outside made (serveAll host initial requests).store ∧
      ∀ procedure, Shown host outside.carries initial requests procedure →
        procedure.KnownTo outside made := by
  induction requests using List.reverseRecOn with
  | nil => exact ⟨[], ledger, fun procedure shown => absurd shown not_shown_nil⟩
  | append_singleton requests request ih =>
    obtain ⟨made, reached, earlier⟩ := ih handsIn.of_snoc
    obtain ⟨later, grows, after, answers⟩ :=
      serve_extends passesOn request (handsIn.known earlier) reached
    refine ⟨later, serveAll_snoc ▸ after, fun procedure shown => ?_⟩
    rcases shown.of_snoc with before | ⟨value, answered, inside⟩ | around
    · exact (earlier procedure before).grow grows
    · exact answers value answered procedure inside
    · exact after.known procedure around

end Shown

private theorem ledger_new {state : σ}
    (initial : ∀ procedure, outside.carries state procedure → outside.gives procedure)
    (limit : Nat) : Ledger outside [] (new state limit).store := by
  refine ⟨rfl, fun index closure found => ?_, fun procedure has => ?_⟩
  · cases found
  · cases has with
    | bound found => cases found
    | noted happened => cases happened
    | carried carried => exact .inl (initial procedure carried)

/-- What equality says of procedures in a store. Those that are around are equal only if they are
one and the same. A `lambda` or `defun` that is evaluated makes a closure that equals none of them,
and none that such a form makes, be it the same one again, when as many closures have been made. -/
structure TellsApart (context : Context σ) (around : Procedure → Prop) (during : Store σ) :
    Prop where
  one : ∀ first second, around first → around second →
    (first.same second = true ↔ first.Identical second)
  new : ∀ (remaining source : Nat) (form : Node) (value : Value) (after : Store σ),
    form.MakesClosure →
      evaluateWithin context remaining source form during = (.ok value, after) →
        ∀ procedure, around procedure → value.same (.procedure procedure) = false
  twice : ∀ (remaining source : Nat) (form : Node) (value : Value) (after : Store σ),
    form.MakesClosure →
      evaluateWithin context remaining source form during = (.ok value, after) →
        ∀ (next : Context σ) (task : Eval.Task σ) (later : Store σ),
          after.closures ≤ task.store.closures → Passes next task later →
            ∀ (levels text : Nat) (other : Node) (twin : Value) (last : Store σ),
              other.MakesClosure →
                evaluateWithin next levels text other later = (.ok twin, last) →
                  value.same twin = false

private theorem tellsApart {context : Context σ} {around : Procedure → Prop} {during : Store σ}
    (ledger : Ledger outside made during)
    (known : ∀ procedure, around procedure → procedure.KnownTo outside made) :
    TellsApart context around during where
  one := fun first second here there =>
    (known first here).same_iff ledger.marked (known second there)
  new := by
    intro remaining source form value after makes run procedure here
    obtain ⟨closure, rfl, mark, _⟩ := evaluateWithin_makesClosure makes run
    exact ledger.not_same_of_next mark (known procedure here)
  twice := by
    intro remaining source form value after makes run next task later started passes levels text
      other twin last makesTwin again
    have passed := Nat.le_trans started (closures_le_of_passes passes)
    exact not_same_of_later makes run makesTwin again passed

/-- Equality of values is symmetric and transitive, holds of a value and itself unless the number
that is none is in it, tells values of different kinds apart and compares lists place by place. In
every session procedures are equal only if they are one and the same, wherever they are and whether
the session has shown them before, whatever host goes along with it that makes up no procedures of
others; and whatever is passed through variables, calls, lists, `car`, `cdr`, `cons` and `let`
arrives as it was, while a `lambda` or `defun` makes a new closure each time. -/
theorem procedures_equal_by_identity (host : Host σ) (outside : Outside σ) (state : σ) (limit : Nat)
    (requests : List Request) (request : Request) (passesOn : host.PassesOn outside)
    (initial : ∀ procedure, outside.carries state procedure → outside.gives procedure)
    (handsIn : HandsIn host outside (new state limit) (requests ++ [request])) :
    Value.SameLaws ∧
    (∀ during, PassesRequest host (serveAll host (new state limit) requests) request during →
      TellsApart ((serveAll host (new state limit) requests).context host)
        (fun procedure => outside.gives procedure ∨ during.Has outside.carries procedure ∨
          Shown host outside.carries (new state limit) requests procedure) during) ∧
    ∀ (context : Context σ) (first second : Spot σ),
      Relation.ReflTransGen (Flows context) first second →
        ∀ value, first.value? context = some value → second.value? context = some value := by
  refine ⟨Value.sameLaws, fun during passes => ?_, fun context first second way value here =>
    flows_value? way here⟩
  obtain ⟨made, reached, earlier⟩ := exists_ledger passesOn (ledger_new initial limit)
    handsIn.of_snoc
  obtain ⟨later, grows, ledger⟩ :=
    passesRequest_extends passesOn (handsIn.known earlier) passes reached
  refine tellsApart ledger fun procedure around => ?_
  rcases around with foreign | here | shown
  · exact .inl foreign
  · exact ledger.known procedure here
  · exact (earlier procedure shown).grow grows

/-- A closure that comes from outside, and nothing else from there; the host holds on to what it was
given last. -/
def givenAlone (closure : Closure) (marked : ∃ index, closure.mark = .given index) :
    Outside Value where
  gives procedure := procedure = .closure closure
  carries state procedure := state.Has procedure
  given := by
    rintro other same
    cases same
    exact marked
  apart := by
    rintro first second same twin _
    cases same
    cases twin
    rfl

private theorem rememberingHost_passesOn (closure : Closure)
    (marked : ∃ index, closure.mark = .given index) :
    rememberingHost.PassesOn (givenAlone closure marked) := by
  constructor
  · intro index arguments span state value procedure same inside
    cases same
    exact .inr (.inl inside)
  · intro index arguments span state procedure carried
    cases arguments with
    | nil => cases carried
    | cons first rest => exact .inl ⟨first, by simp, carried⟩

/-- `mk` makes a closure each time, `f` is one of them and `k` one from outside. -/
theorem procedures_equal_by_identity_of_made_and_given :
    let name (text : String) : Node := .leaf (.symbol text) ⟨0, 1⟩
    let form (head : String) (operands : List Node) : Node :=
      .list (name head :: operands) ⟨0, 2⟩
    let lambda := form "lambda" [.list [] ⟨0, 1⟩]
    let given : Closure := ⟨.given 0, none, [], [], 0⟩
    let made (index : Nat) : Closure := ⟨.made index, none, [], [], 1⟩
    let requests : List Request :=
      [.register "swap" 0, .setVariable "k" (.procedure (.closure given)),
        .evaluateNode (form "defun" [name "mk", .list [] ⟨0, 1⟩, lambda]),
        .evaluateNode (form "setq" [name "f", form "mk" []])]
    let back := form "car" [form "list" [name "f"]]
    let request : Request := .evaluateNode (form "list" [form "=" [name "f", back],
      form "=" [form "mk" [], form "mk" []], form "=" [name "k", name "f"]])
    let reached := serveAll rememberingHost (new .nil 128) requests
    let context := reached.context rememberingHost
    (answer? rememberingHost reached request).map Value.text = some "(t nil nil)" ∧
      ((Procedure.closure (made 1)).same (.closure given) = true ↔
        (Procedure.closure (made 1)).Identical (.closure given)) ∧
      (Spot.inAnswer ⟨3, 3, back, reached.store⟩ []).value? context =
        some (.procedure (.closure (made 1))) ∧
      ∃ value after twin last,
        evaluateWithin context 1 1 lambda reached.store = (.ok value, after) ∧
          evaluateWithin context 1 1 lambda after = (.ok twin, last) ∧
          value.same twin = false := by
  intro name form lambda given made requests back request reached context
  have marked : ∃ index, given.mark = .given index := ⟨0, rfl⟩
  have handsIn : HandsIn rememberingHost (givenAlone given marked) (new .nil 128)
      (requests ++ [request]) := by
    intro front target value rest split procedure inside
    have member : .setVariable target value ∈ requests ++ [request] := by simp [split]
    obtain ⟨_, rfl⟩ : target = "k" ∧ value = .procedure (.closure given) := by
      simpa [requests, request] using member
    exact .inl (Value.has_procedure inside).symm
  obtain ⟨_, apart, passed⟩ := procedures_equal_by_identity rememberingHost
    (givenAlone given marked) .nil 128 requests request (rememberingHost_passesOn given marked)
    (fun procedure carried => by cases carried) handsIn
  have tells := apart reached.store (.start request)
  have found : reached.store.environment.find? "f" = some (.procedure (.closure (made 1))) := rfl
  have makes : lambda.MakesClosure := ⟨name "lambda", _, _, rfl, .inl rfl⟩
  refine ⟨by decide +kernel, ?_, ?_, _, _, _, _, rfl, rfl, ?_⟩
  · exact tells.one _ _ (.inr (.inl (.bound found .self))) (.inl rfl)
  · have read : Flows context (.inVariable reached.store "f" [])
        (.inAnswer ⟨1, 3, name "f", reached.store⟩ []) := .read
    have listed : Flows context (.inAnswer ⟨1, 3, name "f", reached.store⟩ [])
        (.inAnswer ⟨2, 3, form "list" [name "f"], reached.store⟩ [0]) :=
      .moved rfl rfl rfl rfl rfl rfl (by simp) (.list 0 [])
    have taken : Flows context (.inAnswer ⟨2, 3, form "list" [name "f"], reached.store⟩ [0])
        (.inAnswer ⟨3, 3, back, reached.store⟩ []) :=
      .moved rfl rfl rfl rfl rfl rfl (by simp) (.car [])
    exact passed context _ _ (((Relation.ReflTransGen.single read).tail listed).tail taken) _ found
  · exact tells.twice 1 1 lambda _ _ makes rfl context ⟨1, 1, lambda, _⟩ _ (Nat.le_refl _)
      (.start _) 1 1 lambda _ _ makes rfl

end Interpreter
end EagerLisp
