import EagerLisp.Builtin

namespace EagerLisp

/-- The value that a path leads to; its places are those in the lists, from the outside in. -/
def Value.at? : List Nat → Value → Option Value
  | [], value => some value
  | place :: path, .list items => items[place]?.bind (at? path)
  | _ :: _, _ => none

namespace Value

variable {value whole : Value} {path : List Nat} {place : Nat}

theorem at?_list (items : List Value) (place : Nat) (path : List Nat) :
    (list items).at? (place :: path) = items[place]?.bind (at? path) := rfl

private theorem at?_list_of_item {items : List Value} (item : items[place]? = some whole)
    (inside : whole.at? path = some value) : (list items).at? (place :: path) = some value := by
  rw [at?_list, item, Option.bind_some, inside]

private theorem exists_item_of_at? (inside : whole.at? (place :: path) = some value) :
    ∃ items item, whole = .list items ∧ items[place]? = some item ∧
      item.at? path = some value := by
  cases whole with
  | list items =>
    rw [at?_list] at inside
    obtain ⟨item, found, deeper⟩ := Option.bind_eq_some_iff.mp inside
    exact ⟨items, item, rfl, found, deeper⟩
  | _ => cases inside

end Value

namespace Builtin

/-- What stands at the first path in the argument at the place stands at the second path in the
answer. -/
inductive Moves : Builtin → Nat → List Nat → List Nat → Prop where
  | list (place : Nat) (path : List Nat) : Moves .list place path (place :: path)
  | car (path : List Nat) : Moves .car 0 (0 :: path) path
  | cdr (place : Nat) (path : List Nat) : Moves .cdr 0 ((place + 1) :: path) (place :: path)
  | consFirst (path : List Nat) : Moves .cons 0 path (0 :: path)
  | consRest (place : Nat) (path : List Nat) : Moves .cons 1 (place :: path) ((place + 1) :: path)

private theorem argument_of_getElem? {arguments : List Value} {place : Nat} {value : Value}
    (given : arguments[place]? = some value) : argument arguments place = value := by
  rw [argument, given, Option.getD_some]

/-- A builtin answers if it has a list where it needs one, and with the value moved. -/
theorem exists_answer {builtin : Builtin} {place : Nat} {path way : List Nat}
    (moves : builtin.Moves place path way) {arguments : List Value} {whole value : Value}
    (given : arguments[place]? = some whole) (inside : whole.at? path = some value)
    (fits : builtin = .cons → ∃ items, items? arguments[1]? = .ok items) :
    ∃ answer, builtin.answer arguments = .ok answer ∧ answer.at? way = some value := by
  cases moves with
  | list => exact ⟨.list arguments, rfl, Value.at?_list_of_item given inside⟩
  | car =>
    obtain ⟨items, item, rfl, found, deeper⟩ := Value.exists_item_of_at? inside
    refine ⟨argument items 0, ?_, ?_⟩
    · rw [Builtin.answer, List.head?_eq_getElem?, given]
      rfl
    · rw [argument_of_getElem? found, deeper]
  | cdr =>
    obtain ⟨items, item, rfl, found, deeper⟩ := Value.exists_item_of_at? inside
    refine ⟨.list items.tail, ?_, Value.at?_list_of_item ?_ deeper⟩
    · rw [Builtin.answer, List.head?_eq_getElem?, given]
      rfl
    · rw [List.getElem?_tail, found]
  | consFirst =>
    obtain ⟨items, listed⟩ := fits rfl
    refine ⟨.list (argument arguments 0 :: items), ?_, Value.at?_list_of_item ?_ inside⟩
    · rw [Builtin.answer, onItems, listed]
    · rw [List.getElem?_cons_zero, argument_of_getElem? given]
  | consRest =>
    obtain ⟨items, item, rfl, found, deeper⟩ := Value.exists_item_of_at? inside
    refine ⟨.list (argument arguments 0 :: items), ?_, Value.at?_list_of_item ?_ deeper⟩
    · rw [Builtin.answer, given]
      rfl
    · rw [List.getElem?_cons_succ, found]

end Builtin
end EagerLisp
