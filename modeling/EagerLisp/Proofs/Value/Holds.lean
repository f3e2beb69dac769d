import EagerLisp.Builtin

namespace EagerLisp

namespace Value

/-- The value is the procedure or has it somewhere among its items. -/
inductive Has (procedure : Procedure) : Value → Prop where
  | self : Has procedure (.procedure procedure)
  | item {items : List Value} {value : Value} (member : value ∈ items)
      (deeper : Has procedure value) : Has procedure (.list items)

variable {procedure : Procedure}

theorem has_procedure {other : Procedure} (has : (Value.procedure other).Has procedure) :
    other = procedure := by
  cases has with
  | self => rfl

theorem has_list {items : List Value} (has : (Value.list items).Has procedure) :
    ∃ value ∈ items, value.Has procedure := by
  cases has with
  | item member deeper => exact ⟨_, member, deeper⟩

private theorem not_has_ofAtom (atom : Atom) : ¬(ofAtom atom).Has procedure := by
  intro has
  cases atom <;> cases has

theorem not_has_ofNode (node : Node) : ¬(ofNode node).Has procedure := by
  cases node with
  | leaf atom span =>
    rw [ofNode]
    exact not_has_ofAtom atom
  | list elements span =>
    intro has
    rw [ofNode, ofNodes_eq_map] at has
    obtain ⟨value, member, deeper⟩ := has_list has
    obtain ⟨element, _, rfl⟩ := List.mem_map.mp member
    exact not_has_ofNode element deeper

end Value

namespace Builtin

open Value

variable {procedure : Procedure} {arguments : List Value} {value : Value}

/-- One of the values holds the procedure. -/
def AnyHas (procedure : Procedure) (values : List Value) : Prop :=
  ∃ value ∈ values, value.Has procedure

theorem not_has_foldNumbers {operator : String} {combine : Float → Float → Float}
    {total : Float} {position : Nat}
    (same : foldNumbers operator combine total position arguments = .ok value) :
    ¬value.Has procedure := by
  fun_induction foldNumbers operator combine total position arguments with
  | case1 =>
    cases same
    intro has
    cases has
  | case2 total position first rest ih => exact ih same
  | case3 => cases same

private theorem not_has_foldOntoFirst {operator : String} {combine : Float → Float → Float}
    (same : foldOntoFirst operator combine arguments = .ok value) : ¬value.Has procedure := by
  unfold foldOntoFirst at same
  split at same
  · cases same
  · exact not_has_foldNumbers same
  · cases same

private theorem not_has_compareNumbers {operator : String} {test : Float → Float → Bool}
    (same : compareNumbers operator test arguments = .ok value) : ¬value.Has procedure := by
  unfold compareNumbers at same
  split at same <;> cases same
  intro has
  cases has

private theorem not_has_compareValues (same : compareValues arguments = .ok value) :
    ¬value.Has procedure := by
  unfold compareValues at same
  split at same <;> cases same
  intro has
  cases has

private theorem has_argument {place : Nat} (has : (argument arguments place).Has procedure) :
    AnyHas procedure arguments := by
  unfold argument at has
  cases present : arguments[place]? with
  | none =>
    rw [present] at has
    cases has
  | some value =>
    rw [present] at has
    exact ⟨value, List.mem_of_getElem? present, has⟩

private theorem has_items {argument? : Option Value} {items : List Value}
    (same : items? argument? = .ok items) (has : AnyHas procedure items) :
    ∃ value, argument? = some value ∧ value.Has procedure := by
  unfold items? at same
  split at same <;> cases same
  · obtain ⟨_, member, _⟩ := has
    cases member
  · obtain ⟨_, member, _⟩ := has
    cases member
  · obtain ⟨_, member, _⟩ := has
    cases member
  · obtain ⟨value, member, deeper⟩ := has
    exact ⟨.list items, rfl, .item member deeper⟩

/-- What is made of the items of an argument holds a procedure only if the argument does, or one of
the values that `use` adds. -/
theorem has_onItems {native expected : String} {argument? : Option Value}
    {use : List Value → Value} {added : Prop}
    (used : ∀ items, (use items).Has procedure → AnyHas procedure items ∨ added)
    (same : onItems native expected argument? use = .ok value) (has : value.Has procedure) :
    (∃ value, argument? = some value ∧ value.Has procedure) ∨ added := by
  unfold onItems at same
  split at same
  case h_2 => cases same
  case h_1 items listed =>
    cases same
    rcases used items has with inside | extra
    · exact .inl (has_items listed inside)
    · exact .inr extra

private theorem has_firstTrueClause (has : (firstTrueClause arguments).Has procedure) :
    AnyHas procedure arguments := by
  fun_induction firstTrueClause arguments with
  | case1 => cases has
  | case2 test value more rest isTrue =>
    exact ⟨_, List.mem_cons_self .., .item (List.mem_cons_of_mem _ (List.mem_cons_self ..)) has⟩
  | case3 test value more rest isFalse ih =>
    obtain ⟨found, member, deeper⟩ := ih has
    exact ⟨found, List.mem_cons_of_mem _ member, deeper⟩
  | case4 first rest _ ih =>
    obtain ⟨found, member, deeper⟩ := ih has
    exact ⟨found, List.mem_cons_of_mem _ member, deeper⟩

private theorem not_has_lengthOf {argument? : Option Value}
    (same : lengthOf argument? = .ok value) :
    ¬value.Has procedure := by
  unfold lengthOf onItems at same
  intro has
  split at same
  · cases same
    cases has
  · split at same <;> cases same
    cases has

private theorem anyHas_of_head? {first : Value} (same : arguments.head? = some first)
    (has : first.Has procedure) : AnyHas procedure arguments :=
  ⟨first, List.mem_of_mem_head? same, has⟩

/-- A builtin makes no procedures: what it answers holds only what its arguments hold. -/
theorem has_answer (builtin : Builtin) (same : builtin.answer arguments = .ok value)
    (has : value.Has procedure) : AnyHas procedure arguments := by
  cases builtin with
  | add => exact absurd has (not_has_foldNumbers same)
  | subtract => exact absurd has (not_has_foldOntoFirst same)
  | multiply => exact absurd has (not_has_foldNumbers same)
  | divide => exact absurd has (not_has_foldOntoFirst same)
  | equal => exact absurd has (not_has_compareValues same)
  | less => exact absurd has (not_has_compareNumbers same)
  | lessOrEqual => exact absurd has (not_has_compareNumbers same)
  | greater => exact absurd has (not_has_compareNumbers same)
  | greaterOrEqual => exact absurd has (not_has_compareNumbers same)
  | list =>
    cases same
    exact has_list has
  | car =>
    have used (items : List Value) (has : (argument items 0).Has procedure) :
        AnyHas procedure items ∨ False := .inl (has_argument has)
    rcases has_onItems used same has with ⟨first, present, inside⟩ | impossible
    · exact anyHas_of_head? present inside
    · exact impossible.elim
  | cdr =>
    have used (items : List Value) (has : (Value.list items.tail).Has procedure) :
        AnyHas procedure items ∨ False := by
      obtain ⟨found, member, deeper⟩ := has_list has
      exact .inl ⟨found, List.mem_of_mem_tail member, deeper⟩
    rcases has_onItems used same has with ⟨first, present, inside⟩ | impossible
    · exact anyHas_of_head? present inside
    · exact impossible.elim
  | cons =>
    have used (items : List Value)
        (has : (Value.list (argument arguments 0 :: items)).Has procedure) :
        AnyHas procedure items ∨ AnyHas procedure arguments := by
      obtain ⟨found, member, deeper⟩ := has_list has
      rcases List.mem_cons.mp member with rfl | member
      · exact .inr (has_argument deeper)
      · exact .inl ⟨found, member, deeper⟩
    rcases has_onItems used same has with ⟨second, present, inside⟩ | first
    · exact ⟨second, List.mem_of_getElem? present, inside⟩
    · exact first
  | length => exact absurd has (not_has_lengthOf same)
  | choose =>
    rw [answer] at same
    split at same
    · cases same
      exact has_argument has
    · cases same
      exact has_argument has
  | cond =>
    cases same
    exact has_firstTrueClause has
  | and =>
    cases same
    cases has
  | or =>
    cases same
    cases has
  | not =>
    cases same
    cases has

end Builtin

/-- The value is the closure or has it somewhere among its items. -/
abbrev Value.Holds (closure : Closure) (value : Value) : Prop :=
  value.Has (.closure closure)

/-- One of the values holds the closure. -/
abbrev Builtin.AnyHolds (closure : Closure) (values : List Value) : Prop :=
  AnyHas (.closure closure) values

/-- The value is no native and has none among its items at any depth. -/
def Value.NativeFree (value : Value) : Prop :=
  ∀ native, ¬value.Has (.native native)

namespace Value

theorem nativeFree_ofNode (node : Node) : (ofNode node).NativeFree :=
  fun _ => not_has_ofNode node

theorem nativeFree_nil : Value.nil.NativeFree := by
  intro native has
  cases has

theorem nativeFree_closure (closure : Closure) :
    (Value.procedure (.closure closure)).NativeFree := by
  intro native has
  cases has_procedure has

theorem not_nativeFree_native (native : Native) :
    ¬(Value.procedure (.native native)).NativeFree :=
  fun free => free native .self

end Value

theorem Builtin.nativeFree_answer (builtin : Builtin) {arguments : List Value} {value : Value}
    (same : builtin.answer arguments = .ok value)
    (free : ∀ argument ∈ arguments, argument.NativeFree) : value.NativeFree := by
  intro native has
  obtain ⟨argument, member, inside⟩ := has_answer builtin same has
  exact free argument member native inside

end EagerLisp
