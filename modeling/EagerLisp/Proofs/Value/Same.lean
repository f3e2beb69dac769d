import EagerLisp.Proofs.Number.Infinite
import EagerLisp.Proofs.Value.Holds

namespace EagerLisp

namespace Procedure

theorem same_self (procedure : Procedure) : procedure.same procedure = true := by
  cases procedure <;> simp [same]

theorem same_comm (first second : Procedure) : first.same second = second.same first := by
  cases first <;> cases second <;> simp [same, eq_comm]

theorem same_trans {first second third : Procedure} (left : first.same second = true)
    (right : second.same third = true) : first.same third = true := by
  cases first <;> cases second <;> cases third <;> simp_all [same]

end Procedure

namespace Value

/-- The value is the other one, or stands somewhere among its items. -/
inductive Within (inner : Value) : Value → Prop where
  | self : Within inner inner
  | item {items : List Value} {value : Value} (member : value ∈ items)
      (deeper : Within inner value) : Within inner (.list items)

/-- The number that is none is in the value, at some depth. -/
def HasNaN (value : Value) : Prop :=
  ∃ number : Float, number.isNaN = true ∧ (Value.number number).Within value

theorem hasNaN_number {number : Float} : (Value.number number).HasNaN ↔ number.isNaN = true := by
  constructor
  · rintro ⟨other, unknown, within⟩
    cases within
    exact unknown
  · exact fun unknown => ⟨number, unknown, .self⟩

theorem hasNaN_list {items : List Value} :
    (Value.list items).HasNaN ↔ ∃ item ∈ items, item.HasNaN := by
  constructor
  · rintro ⟨number, unknown, within⟩
    cases within with
    | item member deeper => exact ⟨_, member, number, unknown, deeper⟩
  · rintro ⟨item, member, number, unknown, deeper⟩
    exact ⟨number, unknown, .item member deeper⟩

theorem not_hasNaN {value : Value} (noNumber : ∀ number, value ≠ .number number)
    (noList : ∀ items, value ≠ .list items) : ¬value.HasNaN := by
  rintro ⟨number, _, within⟩
  cases within with
  | self => exact noNumber number rfl
  | item => exact noList _ rfl

mutual
theorem same_comm (first second : Value) : first.same second = second.same first := by
  cases first with
  | nil => cases second <;> rfl
  | number value =>
    cases second with
    | number other => exact Number.beq_comm value other
    | _ => rfl
  | boolean value =>
    cases second with
    | boolean other => exact Bool.beq_comm
    | _ => rfl
  | string text =>
    cases second with
    | string other => exact Bool.beq_comm
    | _ => rfl
  | list items =>
    cases second with
    | list others =>
      simp only [same]
      exact sameItems_comm items others
    | _ => rfl
  | procedure callee =>
    cases second with
    | procedure other => exact callee.same_comm other
    | _ => rfl

theorem sameItems_comm (firsts seconds : List Value) :
    sameItems firsts seconds = sameItems seconds firsts := by
  cases firsts with
  | nil => cases seconds <;> rfl
  | cons first firsts =>
    cases seconds with
    | nil => rfl
    | cons second seconds =>
      rw [sameItems, sameItems, same_comm first second, sameItems_comm firsts seconds]
end

mutual
theorem same_trans (first second third : Value) (left : first.same second = true)
    (right : second.same third = true) : first.same third = true := by
  cases first with
  | nil =>
    cases second with
    | nil => exact right
    | _ => cases left
  | number value =>
    cases second with
    | number other =>
      cases third with
      | number last => exact Number.beq_trans left right
      | _ => cases right
    | _ => cases left
  | boolean value =>
    cases second with
    | boolean other =>
      obtain rfl : value = other := by simpa [same] using left
      exact right
    | _ => cases left
  | string text =>
    cases second with
    | string other =>
      obtain rfl : text = other := by simpa [same] using left
      exact right
    | _ => cases left
  | list items =>
    cases second with
    | list others =>
      cases third with
      | list lasts =>
        simp only [same] at left right ⊢
        exact sameItems_trans items others lasts left right
      | _ => cases right
    | _ => cases left
  | procedure callee =>
    cases second with
    | procedure other =>
      cases third with
      | procedure last => exact Procedure.same_trans left right
      | _ => cases right
    | _ => cases left

theorem sameItems_trans (firsts seconds thirds : List Value)
    (left : sameItems firsts seconds = true) (right : sameItems seconds thirds = true) :
    sameItems firsts thirds = true := by
  cases firsts with
  | nil =>
    cases seconds with
    | nil => exact right
    | cons => cases left
  | cons first firsts =>
    cases seconds with
    | nil => cases left
    | cons second seconds =>
      cases thirds with
      | nil => cases right
      | cons third thirds =>
        simp only [sameItems, Bool.and_eq_true] at left right ⊢
        exact ⟨same_trans first second third left.1 right.1,
          sameItems_trans firsts seconds thirds left.2 right.2⟩
end

mutual
theorem same_self_iff (value : Value) : value.same value = true ↔ ¬value.HasNaN := by
  cases value with
  | number value =>
    rw [hasNaN_number, Bool.not_eq_true]
    exact Number.beq_self_iff
  | list items =>
    rw [hasNaN_list, same, sameItems_self_iff items]
    simp
  | nil => exact iff_of_true rfl (not_hasNaN (by simp) (by simp))
  | boolean value => exact iff_of_true (beq_self_eq_true value) (not_hasNaN (by simp) (by simp))
  | string text => exact iff_of_true (beq_self_eq_true text) (not_hasNaN (by simp) (by simp))
  | procedure callee => exact iff_of_true callee.same_self (not_hasNaN (by simp) (by simp))

theorem sameItems_self_iff (items : List Value) :
    sameItems items items = true ↔ ∀ item ∈ items, ¬item.HasNaN := by
  cases items with
  | nil => simp [sameItems]
  | cons item rest =>
    rw [sameItems, Bool.and_eq_true, same_self_iff item, sameItems_self_iff rest]
    simp
end

theorem kind_of_same {first second : Value} (equal : first.same second = true) :
    first.kind = second.kind := by
  cases first <;> cases second <;> first | rfl | cases equal

theorem sameItems_iff (firsts seconds : List Value) :
    sameItems firsts seconds = true ↔ firsts.length = seconds.length ∧
      ∀ (place : Nat) (first second : Value), firsts[place]? = some first →
        seconds[place]? = some second → first.same second = true := by
  induction firsts generalizing seconds with
  | nil => cases seconds <;> simp [sameItems]
  | cons first firsts ih =>
    cases seconds with
    | nil => simp [sameItems]
    | cons second seconds =>
      rw [sameItems, Bool.and_eq_true, ih, List.length_cons, List.length_cons,
        Nat.add_right_cancel_iff]
      constructor
      · rintro ⟨head, length, places⟩
        refine ⟨length, fun place other twin found beside => ?_⟩
        cases place with
        | zero =>
          cases found
          cases beside
          exact head
        | succ place => exact places place other twin found beside
      · rintro ⟨length, places⟩
        exact ⟨places 0 first second rfl rfl, length,
          fun place other twin found beside => places (place + 1) other twin found beside⟩

end Value

/-- What equality of values is, and that the native `=` answers with it. -/
structure Value.SameLaws : Prop where
  symmetric : ∀ first second : Value, first.same second = second.same first
  transitive : ∀ first second third : Value, first.same second = true →
    second.same third = true → first.same third = true
  itself : ∀ value : Value, value.same value = true ↔ ¬value.HasNaN
  kinds : ∀ first second : Value, first.same second = true → first.kind = second.kind
  lists : ∀ firsts seconds : List Value, (list firsts).same (list seconds) = true ↔
    firsts.length = seconds.length ∧
      ∀ (place : Nat) (first second : Value), firsts[place]? = some first →
        seconds[place]? = some second → first.same second = true
  native : ∀ (first second : Value) (more : List Value) (span : Span),
    Builtin.equal.call (first :: second :: more) span = .ok (.boolean (first.same second))

theorem Value.sameLaws : Value.SameLaws where
  symmetric := same_comm
  transitive := same_trans
  itself := same_self_iff
  kinds := fun _ _ => kind_of_same
  lists := fun firsts seconds => by rw [same, sameItems_iff]
  native := fun _ _ _ _ => rfl

end EagerLisp
