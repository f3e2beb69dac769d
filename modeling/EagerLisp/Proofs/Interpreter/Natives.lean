import EagerLisp.Proofs.Interpreter.Located
import EagerLisp.Proofs.Interpreter.Passing

/-! Natives are no values. A call finds its native in the native table and uses it there and then,
so a program comes by a native as a value only if one is given to it from outside. An interpreter
that is never given one keeps all of its variables, arguments and answers free of natives, and the
name of a native, read as a variable, is just another name. -/
namespace EagerLisp

variable {σ : Type} {trusted : σ → Prop}

/-- The procedure of this number gives back no native if its arguments have none. Its state may take
part in that: `trusted` tells of which states it does not hold on to natives. -/
structure Host.GivesNoNative (host : Host σ) (trusted : σ → Prop) (index : Nat) : Prop where
  answers : ∀ arguments span state value, trusted state →
    (∀ argument ∈ arguments, argument.NativeFree) →
      (host.call index arguments span state).1 = .ok value → value.NativeFree
  keeps : ∀ arguments span state, trusted state →
    (∀ argument ∈ arguments, argument.NativeFree) →
      trusted (host.call index arguments span state).2

/-- No variable has a native in its value, and none has been passed to a procedure or assigned. -/
structure Store.NativeFree (store : Store σ) : Prop where
  environment : ∀ name value, store.environment.find? name = some value → value.NativeFree
  events : ∀ event ∈ store.events, ∀ value ∈ event.values, value.NativeFree

/-- The host's procedures in the table give back no natives. -/
def NativeTable.GiveNoNative (natives : NativeTable) (host : Host σ) (trusted : σ → Prop) : Prop :=
  ∀ name native index, natives.find? name = some native → native.action = .host index →
    host.GivesNoNative trusted index

namespace NativeTable

private theorem builtins_giveNoNative (host : Host σ) : builtins.GiveNoNative host trusted := by
  intro name native index found same
  obtain ⟨builtin, _, equal⟩ := List.mem_map.mp (Table.mem_of_find?_ofList found)
  cases equal
  cases same

private theorem GiveNoNative.insert {natives : NativeTable} {host : Host σ}
    (guarded : natives.GiveNoNative host trusted) {index : Nat}
    (gives : host.GivesNoNative trusted index) (name : String) :
    GiveNoNative (natives.insert name ⟨name, .host index⟩) host trusted := by
  intro other native number found same
  rw [Table.find?_insert] at found
  split at found
  · cases found
    cases same
    exact gives
  · exact guarded other native number found same

end NativeTable

namespace Store.NativeFree

variable {store : Store σ}

theorem record (free : store.NativeFree) {event : Event}
    (values : ∀ value ∈ event.values, value.NativeFree) :
    Store.NativeFree { store with events := event :: store.events } := by
  refine ⟨free.environment, fun other member => ?_⟩
  rcases List.mem_cons.mp member with rfl | earlier
  · exact values
  · exact free.events other earlier

theorem insert (free : store.NativeFree) (name : String) {value : Value}
    (good : value.NativeFree) :
    Store.NativeFree { store with environment := store.environment.insert name value } := by
  refine ⟨fun other found same => ?_, free.events⟩
  rw [Table.find?_insert] at same
  split at same
  · cases same
    exact good
  · exact free.environment other found same

end Store.NativeFree

namespace Eval

/-- Evaluation keeps the store free of natives: a builtin answers with none that its arguments lack,
and no procedure that was a value is a native. -/
theorem invariant_nativeFree {context : Context σ}
    (guarded : context.natives.GiveNoNative context.host trusted) :
    Invariant context (fun store => store.NativeFree ∧ trusted store.host) Value.NativeFree where
  data := Value.nativeFree_ofNode
  empty := Value.nativeFree_nil
  closure := Value.nativeFree_closure
  held := fun _ name value initial => initial.1.environment name value
  noted := fun _ _ values initial => ⟨initial.1.record values, initial.2⟩
  changed := fun name _ _ good initial => ⟨initial.1.insert name good, initial.2⟩
  counted := fun _ initial => ⟨⟨initial.1.environment, initial.1.events⟩, initial.2⟩
  back := fun _ _ initial later => ⟨⟨initial.1.environment, later.1.events⟩, later.2⟩
  builtin := by
    intro builtin arguments span given
    unfold Builtin.call
    split
    case h_1 value same => exact builtin.nativeFree_answer same given
    case h_2 => trivial
  foreign := by
    intro native index arguments span store callable same given initial
    rcases callable with value | ⟨name, own, found, equal⟩
    · exact absurd value (Value.not_nativeFree_native native)
    · cases equal
      have gives := guarded name native index found same
      refine ⟨⟨⟨initial.1.environment, initial.1.events⟩, ?_⟩, ?_⟩
      · exact gives.keeps arguments span store.host initial.2 given
      · cases outcome : (context.host.call index arguments span store.host).1 with
        | error error => trivial
        | ok value => exact gives.answers arguments span store.host value initial.2 given outcome

end Eval

namespace Interpreter

variable {host : Host σ} {interpreter : Interpreter σ}

/-- The interpreter has come by no native as a value, and its host will not give it one. -/
structure NativeFree (host : Host σ) (trusted : σ → Prop) (interpreter : Interpreter σ) : Prop where
  store : interpreter.store.NativeFree
  state : trusted interpreter.store.host
  natives : interpreter.natives.GiveNoNative host trusted

namespace NativeFree

private theorem new {state : σ} (initial : trusted state) (limit : Nat) :
    (Interpreter.new state limit).NativeFree host trusted := by
  refine ⟨⟨?_, ?_⟩, initial, NativeTable.builtins_giveNoNative host⟩
  · intro name value found
    cases found
  · intro event member
    cases member

theorem invariant (free : interpreter.NativeFree host trusted) :
    Eval.Invariant (interpreter.context host)
      (fun store => store.NativeFree ∧ trusted store.host) Value.NativeFree :=
  Eval.invariant_nativeFree free.natives

theorem evaluate (free : interpreter.NativeFree host trusted) (source : String) :
    (interpreter.evaluate host source).2.NativeFree host trusted ∧
      Meets Value.NativeFree (fun _ => True) (interpreter.evaluate host source).1 := by
  have ran : _ ∧ Meets _ _ (runTokens (interpreter.context host) (interpreter.sources + 1) .nil
      interpreter.store (Token.ofString source)).1 :=
    free.invariant.runTokens_keeps (Token.ofString source) Value.nativeFree_nil
      ⟨free.store, free.state⟩
  obtain ⟨⟨store, state⟩, answer⟩ := ran
  exact ⟨⟨store, state, free.natives⟩, answer⟩

theorem evaluateNode (free : interpreter.NativeFree host trusted) (node : Node) :
    (interpreter.evaluateNode host node).2.NativeFree host trusted ∧
      Meets Value.NativeFree (fun _ => True) (interpreter.evaluateNode host node).1 := by
  have ran : _ ∧ Meets _ _ (runNode (interpreter.context host) (interpreter.sources + 1) node
      interpreter.store).1 :=
    free.invariant.runNode_keeps node interpreter.store ⟨free.store, free.state⟩
  obtain ⟨⟨store, state⟩, answer⟩ := ran
  exact ⟨⟨store, state, free.natives⟩, answer⟩

theorem serve (free : interpreter.NativeFree host trusted) {request : Request}
    (registered : ∀ name index, request = .register name index →
      host.GivesNoNative trusted index)
    (given : ∀ name value, request = .setVariable name value → value.NativeFree) :
    (serve host interpreter request).NativeFree host trusted := by
  cases request with
  | evaluate source => exact (free.evaluate source).1
  | evaluateNode node => exact (free.evaluateNode node).1
  | register name index =>
    refine ⟨free.store.record ?_, free.state, free.natives.insert (registered name index rfl) name⟩
    intro value member
    split at member <;> cases member
  | setVariable name value =>
    have good := given name value rfl
    refine ⟨(free.store.record ?_).insert name good, free.state, free.natives⟩
    intro other member
    rw [List.mem_singleton.mp member]
    exact good

theorem serveAll {requests : List Request}
    (registered : ∀ name index, .register name index ∈ requests →
      host.GivesNoNative trusted index)
    (given : ∀ name value, .setVariable name value ∈ requests → value.NativeFree) :
    ∀ {interpreter : Interpreter σ}, interpreter.NativeFree host trusted →
      (serveAll host interpreter requests).NativeFree host trusted := by
  induction requests with
  | nil => exact fun free => free
  | cons request rest ih =>
    intro interpreter free
    have served : (Interpreter.serve host interpreter request).NativeFree host trusted :=
      free.serve (fun name index same => registered name index (by simp [same]))
        fun name value same => given name value (by simp [same])
    exact ih (fun name index member => registered name index (by simp [member]))
      (fun name value member => given name value (by simp [member])) served

private theorem answer (free : interpreter.NativeFree host trusted) {request : Request}
    {value : Value}
    (answered : answer? host interpreter request = some value) : value.NativeFree := by
  cases request with
  | evaluate source =>
    have met := (free.evaluate source).2
    rwa [eq_ok_of_toOption answered] at met
  | evaluateNode node =>
    have met := (free.evaluateNode node).2
    rwa [eq_ok_of_toOption answered] at met
  | register name index => cases answered
  | setVariable name value => cases answered

private theorem passesRequest (free : interpreter.NativeFree host trusted) {request : Request}
    (after : (Interpreter.serve host interpreter request).NativeFree host trusted)
    {during : Store σ} (passes : PassesRequest host interpreter request during) :
    during.NativeFree := by
  cases passes with
  | start => exact free.store
  | finish => exact after.store
  | text passes => exact (free.invariant.passesText passes ⟨free.store, free.state⟩).1
  | node passes =>
    exact (free.invariant.passes passes
      (free.invariant.started _ ⟨free.store, free.state⟩)).1

end NativeFree

/-- In every session that is given no native as a value, no answer, no argument and no variable has
a native in it, at the end and at any time on the way. A name in evaluated position reads the
variable of that name, whether or not there is a native of that name too. -/
theorem session_native_free (host : Host σ) (trusted : σ → Prop) (state : σ) (limit : Nat)
    (requests : List Request) (request : Request) (initial : trusted state)
    (registered : ∀ name index, .register name index ∈ requests ++ [request] →
      host.GivesNoNative trusted index)
    (given : ∀ name value, .setVariable name value ∈ requests ++ [request] →
      value.NativeFree) :
    (∀ value, answer? host (serveAll host (new state limit) requests) request = some value →
      value.NativeFree) ∧
    ∀ during, PassesRequest host (serveAll host (new state limit) requests) request during →
      during.NativeFree ∧
      ∀ (name : String) (span : Span) (remaining source : Nat),
        Eval.evaluateWithin ((serveAll host (new state limit) requests).context host)
            (remaining + 1) source (.leaf (.symbol name) span) during =
          match during.environment.find? name with
          | some value => (.ok value, during)
          | none => (.error ⟨.undefinedSymbol name, span⟩, during) := by
  have reached : (serveAll host (new state limit) requests).NativeFree host trusted :=
    NativeFree.serveAll (fun name index member => registered name index (by simp [member]))
      (fun name value member => given name value (by simp [member])) (.new initial limit)
  have after : (serve host (serveAll host (new state limit) requests) request).NativeFree host
      trusted :=
    reached.serve (fun name index same => registered name index (by simp [same]))
      fun name value same => given name value (by simp [same])
  refine ⟨fun value answered => reached.answer answered, fun during passes => ?_⟩
  refine ⟨reached.passesRequest after passes, fun name span remaining source => ?_⟩
  exact Eval.evaluateWithin_symbol _ remaining source name span during

private theorem rememberingHost_givesNoNative :
    rememberingHost.GivesNoNative Value.NativeFree 0 := by
  constructor
  · intro arguments span state value trusted _ same
    cases same
    exact trusted
  · intro arguments span state _ given
    cases arguments with
    | nil => exact Value.nativeFree_nil
    | cons first rest => exact given first (by simp)

/-- A host with a memory is given a list by way of a variable and gives it back later. -/
theorem session_native_free_with_memory :
    let requests : List Request :=
      [.register "swap" 0, .setVariable "k" (.list [.string "a"])]
    let name (text : String) : Node := .leaf (.symbol text) ⟨0, 1⟩
    let call : Node := .list [name "swap", name "k"] ⟨0, 8⟩
    let request : Request := .evaluateNode (.list [name "list", call, call] ⟨0, 20⟩)
    let reached := serveAll rememberingHost (new .nil 128) requests
    let value : Value := .list [.nil, .list [.string "a"]]
    answer? rememberingHost reached request = some value ∧ value.NativeFree ∧
      (∀ during, PassesRequest rememberingHost reached request during → during.NativeFree) ∧
      reached.hasNative "swap" = true ∧
      Eval.evaluateWithin (reached.context rememberingHost) 1 1 (.leaf (.symbol "swap") ⟨0, 4⟩)
        reached.store = (.error ⟨.undefinedSymbol "swap", ⟨0, 4⟩⟩, reached.store) := by
  intro requests name call request reached value
  have answered : answer? rememberingHost reached request = some value := rfl
  have registered (name : String) (index : Nat)
      (member : .register name index ∈ requests ++ [request]) :
      rememberingHost.GivesNoNative Value.NativeFree index := by
    obtain ⟨_, rfl⟩ : name = "swap" ∧ index = 0 := by simpa [requests, request] using member
    exact rememberingHost_givesNoNative
  have given (name : String) (value : Value)
      (member : .setVariable name value ∈ requests ++ [request]) : value.NativeFree := by
    obtain ⟨_, rfl⟩ : name = "k" ∧ value = .list [.string "a"] := by
      simpa [requests, request] using member
    exact Value.nativeFree_ofNode (.list [.leaf (.string "a") ⟨0, 0⟩] ⟨0, 0⟩)
  obtain ⟨free, passed⟩ := session_native_free rememberingHost Value.NativeFree .nil 128 requests
    request Value.nativeFree_nil registered given
  refine ⟨answered, free value answered, fun during passes => (passed during passes).1, rfl, ?_⟩
  exact (passed reached.store (.start request)).2 "swap" ⟨0, 4⟩ 0 1

end Interpreter
end EagerLisp
