import EagerLisp.Proofs.Eval.Relating

/-! The names that evaluation depends on. Free names are looked up when they are met, and strings
are looked up as well, so an evaluation may read any variable that its expression mentions, or that
a closure mentions which it comes to call. It reads no other, and it looks for natives under no
other name and under no name of a special form. -/
namespace EagerLisp

/-- The host answers with no closure that is not inside the arguments. -/
def Host.GivesBack {σ : Type} (host : Host σ) : Prop :=
  ∀ index arguments span state value closure,
    (host.call index arguments span state).1 = .ok value → value.Holds closure →
      Builtin.AnyHolds closure arguments

/-- Nothing may differ between things that are alike, and only these names may be mentioned. -/
def Likeness.mentioning (names : String → Prop) : Likeness where
  name := names
  span := Eq
  source := Eq
  mark := Eq
  count := Eq
  made := ClosureMark.made_of_eq
  one := Eq.congr
  moved := Likeness.moved_of_eq

theorem Likeness.reflexive_mentioning (names : String → Prop) :
    (mentioning names).Reflexive :=
  ⟨fun _ => rfl, fun _ => rfl, fun _ => rfl⟩

variable {names : String → Prop}

namespace Node

mutual
theorem Like.exact (node : Node) {twin : Node} (alike : node.Like (.mentioning names) twin) :
    twin = node ∧ ∀ name ∈ node.names, names name := by
  cases alike with
  | leaf mentioned placed =>
    cases placed
    exact ⟨rfl, mentioned⟩
  | list each placed =>
    cases placed
    obtain ⟨rfl, mentioned⟩ := Like.exactAll _ each
    exact ⟨rfl, mentioned⟩

theorem Like.exactAll (nodes : List Node) {twins : List Node}
    (each : List.Forall₂ (Node.Like (.mentioning names)) nodes twins) :
    twins = nodes ∧ ∀ name ∈ namesOfAll nodes, names name := by
  cases each with
  | nil => exact ⟨rfl, by simp [Node.namesOfAll]⟩
  | cons first rest =>
    obtain ⟨rfl, here⟩ := Like.exact _ first
    obtain ⟨rfl, later⟩ := Like.exactAll _ rest
    refine ⟨rfl, fun name member => ?_⟩
    rw [Node.namesOfAll, List.mem_append] at member
    exact member.elim (here name) (later name)
end

end Node

theorem Closure.Like.exact {closure twin : Closure}
    (alike : closure.Like (.mentioning names) twin) :
    twin = closure ∧ ∀ name ∈ closure.names, names name := by
  obtain ⟨body, mentioned⟩ := Node.Like.exactAll _ alike.body
  constructor
  · obtain ⟨mark, name?, parameters, nodes, source⟩ := closure
    obtain ⟨markTwin, nameTwin?, parametersTwin, nodesTwin, sourceTwin⟩ := twin
    obtain ⟨marked, named, bound, _, _, texts⟩ := alike
    cases marked
    cases named
    cases bound
    cases body
    cases texts
    rfl
  · intro name member
    rw [Closure.names, List.mem_append] at member
    exact member.elim (alike.mentioned name) (mentioned name)

namespace Value

mutual
theorem Like.exact (value : Value) {twin : Value}
    (alike : value.Like (.mentioning names) twin) : twin = value ∧ value.MentionsOnly names := by
  cases alike with
  | list each =>
    obtain ⟨rfl, mention⟩ := Like.exactAll _ each
    refine ⟨rfl, fun closure holds => ?_⟩
    obtain ⟨item, member, deeper⟩ := has_list holds
    exact mention item member closure deeper
  | procedure alike =>
    cases alike with
    | native native => exact ⟨rfl, fun closure holds => by cases holds⟩
    | closure alike =>
      obtain ⟨rfl, mentioned⟩ := alike.exact
      refine ⟨rfl, fun closure holds => ?_⟩
      cases has_procedure holds
      exact mentioned
  | _ => exact ⟨rfl, fun closure holds => by cases holds⟩

theorem Like.exactAll (values : List Value) {twins : List Value}
    (each : List.Forall₂ (Value.Like (.mentioning names)) values twins) :
    twins = values ∧ ∀ value ∈ values, value.MentionsOnly names := by
  cases each with
  | nil => exact ⟨rfl, by simp⟩
  | cons first rest =>
    obtain ⟨rfl, here⟩ := Like.exact _ first
    obtain ⟨rfl, later⟩ := Like.exactAll _ rest
    refine ⟨rfl, fun value member => ?_⟩
    rcases List.mem_cons.mp member with rfl | member
    · exact here
    · exact later value member
end

end Value

private theorem Environment.Like.exact {environment twin : Environment}
    (alike : environment.Like (.mentioning names) twin) (name : String) (member : names name) :
    environment.find? name = twin.find? name := by
  have related := alike name member
  generalize environment.find? name = value? at related ⊢
  generalize twin.find? name = twin? at related ⊢
  cases related with
  | none => rfl
  | some alike => rw [(Value.Like.exact _ alike).1]

theorem EvalError.Like.exact {error twin : EvalError}
    (alike : error.Like (.mentioning names) twin) : twin = error := by
  obtain ⟨cause, span⟩ := error
  obtain ⟨causeTwin, spanTwin⟩ := twin
  obtain ⟨same, placed⟩ := alike
  cases same
  cases placed
  rfl

private theorem Event.Like.exact {event twin : Event}
    (alike : event.Like (.mentioning names) twin) :
    twin = event := by
  cases alike with
  | nativeCalled native each placed =>
    cases placed
    rw [(Value.Like.exactAll _ each).1]
  | closureCalled alike each => rw [alike.exact.1, (Value.Like.exactAll _ each).1]
  | assigned name alike => rw [(Value.Like.exact _ alike).1]
  | bound name alike => rw [(Value.Like.exact _ alike).1]
  | defined name parameters => rfl
  | started alike => rw [(Node.Like.exact _ alike).1]
  | failed alike => rw [alike.exact]

theorem Both.exact {outcome twin : Except EvalError Value}
    (alike : Both (Value.Like (.mentioning names)) (EvalError.Like (.mentioning names)) outcome
      twin) : twin = outcome := by
  cases alike with
  | answer alike => rw [(Value.Like.exact _ alike).1]
  | failure alike => rw [alike.exact]

variable {σ : Type}

private theorem Store.Like.exact {past : List Event} {store twin : Store σ}
    (alike : store.Like (.mentioning names) Eq past past twin) :
    twin = { store with environment := twin.environment } := by
  obtain ⟨events, eventsTwin, since, sinceTwin, each⟩ := alike.events
  have same : events = eventsTwin := by
    rw [← List.forall₂_eq_eq_eq]
    exact each.imp fun _ _ alike => alike.exact.symm
  obtain ⟨environment, host, closures, history⟩ := store
  obtain ⟨environmentTwin, hostTwin, closuresTwin, historyTwin⟩ := twin
  obtain rfl : host = hostTwin := alike.host
  obtain rfl : closures = closuresTwin := alike.closures
  obtain rfl : history = historyTwin := since.trans (same ▸ sinceTwin.symm)
  rfl

/-- A host gives like answers to like arguments if it brings in no names with its closures. -/
theorem Host.GivesBack.like {host : Host σ} (givesBack : host.GivesBack) :
    host.Like (.mentioning names) Eq host := by
  intro index arguments twins span spanTwin state stateTwin each placed same
  cases placed
  cases same
  obtain ⟨rfl, mention⟩ := Value.Like.exactAll _ each
  refine ⟨?_, rfl⟩
  cases answered : (host.call index twins span state).1 with
  | error error => exact .failure ⟨rfl, rfl⟩
  | ok value =>
    refine .answer (.refl (Likeness.reflexive_mentioning names) value fun closure holds => ?_)
    obtain ⟨argument, member, inside⟩ :=
      givesBack index twins span state value closure answered holds
    exact mention argument member closure inside

private theorem SpecialForm.ofName?_ne_none {name : String} (member : name ∈ SpecialForm.names) :
    SpecialForm.ofName? name ≠ none := by
  simp only [SpecialForm.names, List.mem_cons, List.not_mem_nil, or_false] at member
  rcases member with rfl | rfl | rfl | rfl | rfl | rfl <;> decide

namespace Eval

/-- Evaluation depends only on the names that it can mention. Let these be names among which are
all that the expression mentions, and all that closures mention in the value of any variable among
them. If two environments agree on these variables, and two native tables agree on those of these
names that are no special form, both evaluations have the same outcome, the same events and the same
effects on the host, and the environments they leave agree on these variables. -/
theorem evaluate_depends_on_mentioned (host : Host σ) (givesBack : host.GivesBack)
    (names : String → Prop) (source limit : Nat) (node : Node)
    (mentioned : ∀ name ∈ node.names, names name) (store : Store σ)
    (closed : ∀ name value, names name → store.environment.find? name = some value →
      value.MentionsOnly names)
    (environment : Environment)
    (agree : ∀ name, names name → store.environment.find? name = environment.find? name)
    (natives others : NativeTable)
    (listed : ∀ name, names name → name ∉ SpecialForm.names →
      natives.find? name = others.find? name) :
    ∃ outcome after environmentAfter,
      evaluate ⟨host, natives, limit⟩ source node store = (outcome, after) ∧
      evaluate ⟨host, others, limit⟩ source node { store with environment } =
        (outcome, { after with environment := environmentAfter }) ∧
      ∀ name, names name → after.environment.find? name = environmentAfter.find? name := by
  have around :
      Context.Like (.mentioning names) Eq ⟨host, natives, limit⟩ ⟨host, others, limit⟩ := by
    refine ⟨givesBack.like, fun name member plain => listed name member fun special => ?_, rfl⟩
    exact SpecialForm.ofName?_ne_none special plain
  have reflexive := Likeness.reflexive_mentioning names
  have initial : Store.Like (.mentioning names) Eq store.events store.events store
      { store with environment } := by
    refine ⟨fun name member => ?_, rfl, rfl, [], [], rfl, rfl, .nil⟩
    rw [← agree name member]
    cases found : store.environment.find? name with
    | none => exact .none
    | some value => exact .some (.refl reflexive value (closed name value member found))
  obtain ⟨stores, outcomes⟩ := evaluateWithin_alike around limit source source node node rfl
    (.refl reflexive node mentioned) store { store with environment } initial
  let second := evaluate ⟨host, others, limit⟩ source node { store with environment }
  exact ⟨_, _, second.2.environment, rfl, Prod.ext outcomes.exact stores.exact,
    stores.environment.exact⟩

/-- `(f (quote x))`, where `(defun f () y)` has been evaluated, answers with the value of `y`,
whatever the variable `z`, a native called `z` and one called `quote` are. -/
theorem evaluate_depends_on_mentioned_in_call :
    let closure : Closure := ⟨.made 0, some "f", [], [.leaf (.symbol "y") ⟨12, 13⟩], 1⟩
    let quoted : Node :=
      .list [.leaf (.symbol "quote") ⟨4, 9⟩, .leaf (.symbol "x") ⟨10, 11⟩] ⟨3, 12⟩
    let node : Node := .list [.leaf (.symbol "f") ⟨1, 2⟩, quoted] ⟨0, 13⟩
    let environment :=
      (Table.empty.insert "f" (.procedure (.closure closure))).insert "y" (.string "free")
    let store : Store Unit := ⟨environment, (), 1, []⟩
    let others := (NativeTable.builtins.insert "z" ⟨"z", .host 0⟩).insert "quote" ⟨"quote", .host 1⟩
    ∃ after environmentAfter,
      evaluate ⟨Host.none, NativeTable.builtins, 128⟩ 2 node store =
        (.ok (.string "free"), after) ∧
      evaluate ⟨Host.none, others, 128⟩ 2 node
          { store with environment := environment.insert "z" (.boolean true) } =
        (.ok (.string "free"), { after with environment := environmentAfter }) ∧
      ∀ name, name ∈ ["f", "quote", "x", "y"] →
        after.environment.find? name = environmentAfter.find? name := by
  intro closure quoted node environment store others
  have givesBack : Host.none.GivesBack := by
    intro index arguments span state value closure answered holds
    cases answered
    cases holds
  have absent (name : String) (member : name ∈ ["f", "quote", "x", "y"]) : name ≠ "z" := by
    rintro rfl
    revert member
    decide
  have closed (name : String) (value : Value) (_ : name ∈ ["f", "quote", "x", "y"])
      (found : store.environment.find? name = some value) :
      value.MentionsOnly (· ∈ ["f", "quote", "x", "y"]) := by
    intro inner holds
    simp only [store, environment, Table.find?_insert, Table.find?_empty] at found
    split at found
    · cases found
      cases holds
    · split at found
      · cases found
        cases Value.has_procedure holds
        decide
      · cases found
  have same (name : String) (member : name ∈ ["f", "quote", "x", "y"]) :
      environment.find? name = (environment.insert "z" (.boolean true)).find? name := by
    rw [Table.find?_insert environment "z", if_neg (absent name member)]
  have listed (name : String) (member : name ∈ ["f", "quote", "x", "y"])
      (plain : name ∉ SpecialForm.names) :
      NativeTable.builtins.find? name = others.find? name := by
    have different : name ≠ "quote" := by
      rintro rfl
      exact plain (by decide)
    rw [Table.find?_insert, if_neg different, Table.find?_insert, if_neg (absent name member)]
  obtain ⟨outcome, after, environmentAfter, first, second, agree⟩ :=
    evaluate_depends_on_mentioned Host.none givesBack (· ∈ ["f", "quote", "x", "y"]) 2 128 node
      (by decide) store closed _ same NativeTable.builtins others listed
  have answered : (evaluate ⟨Host.none, NativeTable.builtins, 128⟩ 2 node store).1 =
      .ok (.string "free") := rfl
  rw [first] at answered
  cases answered
  exact ⟨after, environmentAfter, first, second, agree⟩

end Eval
end EagerLisp
