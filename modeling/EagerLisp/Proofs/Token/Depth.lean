import EagerLisp.Token

namespace EagerLisp.Token

/-- The opening parentheses among the tokens less the closing ones. -/
def depth (tokens : List Token) : Int :=
  (tokens.countP fun token => token.lexeme = .openParen : Nat)
    - (tokens.countP fun token => token.lexeme = .closeParen : Nat)

/-- The depth behind the first `count` tokens. -/
def depthAt (tokens : List Token) (count : Nat) : Int :=
  depth (tokens.take count)

@[simp] theorem depth_nil : depth [] = 0 := rfl

@[simp] theorem depth_append (first second : List Token) :
    depth (first ++ second) = depth first + depth second := by
  simp only [depth, List.countP_append]
  omega

@[simp] theorem depth_cons_open (span : Span) (rest : List Token) :
    depth (⟨.openParen, span⟩ :: rest) = 1 + depth rest := by
  simp [depth]
  omega

@[simp] theorem depth_cons_close (span : Span) (rest : List Token) :
    depth (⟨.closeParen, span⟩ :: rest) = depth rest - 1 := by
  simp [depth]
  omega

@[simp] theorem depth_cons_atom (text : String) (span : Span) (rest : List Token) :
    depth (⟨.atom text, span⟩ :: rest) = depth rest := by
  simp [depth]

theorem depthAt_append (first second : List Token) (count : Nat) :
    depthAt (first ++ second) count =
      depthAt first count + depthAt second (count - first.length) := by
  rw [depthAt, List.take_append, depth_append, depthAt, depthAt]

theorem depthAt_of_length_le {tokens : List Token} {count : Nat} (beyond : tokens.length ≤ count) :
    depthAt tokens count = depth tokens := by
  rw [depthAt, List.take_of_length_le beyond]

theorem depthAt_length (tokens : List Token) : depthAt tokens tokens.length = depth tokens :=
  depthAt_of_length_le (Nat.le_refl _)

theorem depthAt_take {tokens : List Token} {count stop : Nat} (early : count ≤ stop) :
    depthAt (tokens.take stop) count = depthAt tokens count := by
  rw [depthAt, List.take_take, Nat.min_eq_left early, depthAt]

/-- No beginning of the tokens closes more parentheses than it opens, and the whole closes all. -/
structure Balanced (tokens : List Token) : Prop where
  nonneg : ∀ count, 0 ≤ depthAt tokens count
  closed : depth tokens = 0

theorem Balanced.nil : Balanced [] :=
  ⟨fun count => by simp [depthAt], rfl⟩

theorem Balanced.append {first second : List Token} (left : Balanced first)
    (right : Balanced second) : Balanced (first ++ second) := by
  refine ⟨fun count => ?_, by simp [left.closed, right.closed]⟩
  have before := left.nonneg count
  have behind := right.nonneg (count - first.length)
  rw [depthAt_append]
  omega

theorem Balanced.atom (text : String) (span : Span) : Balanced [⟨.atom text, span⟩] := by
  refine ⟨fun count => ?_, by simp⟩
  cases count <;> simp [depthAt]

theorem Balanced.parens {inside : List Token} (balanced : Balanced inside)
    (opening closing : Span) :
    Balanced (⟨.openParen, opening⟩ :: inside ++ [⟨.closeParen, closing⟩]) := by
  refine ⟨fun count => ?_, by simp [balanced.closed]⟩
  rw [depthAt_append]
  cases count with
  | zero => simp [depthAt]
  | succ count =>
    have within := balanced.nonneg count
    have opened : depthAt (⟨.openParen, opening⟩ :: inside) (count + 1) =
        1 + depthAt inside count := by
      simp [depthAt]
    have shut : -1 ≤ depthAt [⟨.closeParen, closing⟩]
        (count + 1 - (⟨.openParen, opening⟩ :: inside : List Token).length) := by
      rw [depthAt]
      cases count + 1 - (⟨.openParen, opening⟩ :: inside : List Token).length <;> simp
    rw [opened]
    omega

/-- The parentheses that the tokens leave open, innermost first. -/
inductive LeavesOpen : List Token → List Span → Prop where
  | none {tokens : List Token} (balanced : Balanced tokens) : LeavesOpen tokens []
  | more {outer inside : List Token} {span : Span} {around : List Span}
      (left : LeavesOpen outer around) (balanced : Balanced inside) :
      LeavesOpen (outer ++ ⟨.openParen, span⟩ :: inside) (span :: around)

namespace LeavesOpen

variable {tokens more : List Token} {stack : List Span} {span : Span}

theorem append (left : LeavesOpen tokens stack) (balanced : Balanced more) :
    LeavesOpen (tokens ++ more) stack := by
  cases left with
  | none whole => exact .none (whole.append balanced)
  | more left inside =>
    rw [List.append_assoc, List.cons_append]
    exact .more left (inside.append balanced)

theorem opening (left : LeavesOpen tokens stack) (span : Span) :
    LeavesOpen (tokens ++ [⟨.openParen, span⟩]) (span :: stack) :=
  .more left .nil

theorem closing (left : LeavesOpen tokens (span :: stack)) (place : Span) :
    LeavesOpen (tokens ++ [⟨.closeParen, place⟩]) stack := by
  cases left with
  | more left inside =>
    rw [List.append_assoc]
    exact left.append (inside.parens span place)

theorem depth_eq (left : LeavesOpen tokens stack) : depth tokens = stack.length := by
  induction left with
  | none balanced => simp [balanced.closed]
  | more left balanced ih =>
    rw [depth_append, depth_cons_open, ih, balanced.closed, List.length_cons]
    omega

theorem nonneg (left : LeavesOpen tokens stack) (count : Nat) : 0 ≤ depthAt tokens count := by
  induction left generalizing count with
  | none balanced => exact balanced.nonneg count
  | @more outer inside span around left balanced ih =>
    have before := ih count
    have behind : 0 ≤ depthAt (⟨.openParen, span⟩ :: inside) (count - outer.length) := by
      cases count - outer.length with
      | zero => simp [depthAt]
      | succ further =>
        have within := balanced.nonneg further
        rw [depthAt, List.take_succ_cons, depth_cons_open]
        rw [depthAt] at within
        omega
    rw [depthAt_append]
    omega

end LeavesOpen

/-- The token at this place opens a parenthesis that no later token closes. -/
def StillOpen (tokens : List Token) (place : Nat) (span : Span) : Prop :=
  tokens[place]? = some ⟨.openParen, span⟩ ∧
    ∀ count, place < count → depthAt tokens (place + 1) ≤ depthAt tokens count

/-- The parenthesis is the last one that is still open where the tokens end. -/
def InnermostOpen (tokens : List Token) (span : Span) : Prop :=
  ∃ place, StillOpen tokens place span ∧
    ∀ later other, StillOpen tokens later other → later ≤ place

/-- Behind an opening parenthesis the depths are those of what follows it, one level down. -/
theorem depthAt_behind_open (outer inside : List Token) (span : Span) (count : Nat) :
    depthAt (outer ++ ⟨.openParen, span⟩ :: inside) (outer.length + 1 + count) =
      depth outer + 1 + depthAt inside count := by
  have further : outer.length + 1 + count - outer.length = count + 1 := by omega
  rw [depthAt_append, depthAt_of_length_le (by omega), further, depthAt, List.take_succ_cons,
    depth_cons_open, depthAt]
  omega

theorem depthAt_succ {tokens : List Token} {token : Token} {place : Nat}
    (found : tokens[place]? = some token) :
    depthAt tokens (place + 1) = depthAt tokens place + depth [token] := by
  obtain ⟨bound, same⟩ := List.getElem?_eq_some_iff.mp found
  rw [depthAt, ← List.take_append_getElem bound, depth_append, same, depthAt]

theorem Balanced.not_stillOpen {tokens : List Token} (balanced : Balanced tokens) {place : Nat}
    {span : Span} : ¬StillOpen tokens place span := by
  intro still
  obtain ⟨found, kept⟩ := still
  have bound := (List.getElem?_eq_some_iff.mp found).1
  have before := balanced.nonneg place
  have last := kept tokens.length bound
  rw [depthAt_succ found, depthAt_length, balanced.closed, depth_cons_open, depth_nil] at last
  omega

private theorem StillOpen.inside {outer inside : List Token} {span other : Span} {place : Nat}
    (still : StillOpen (outer ++ ⟨.openParen, span⟩ :: inside) (outer.length + 1 + place) other) :
    StillOpen inside place other := by
  obtain ⟨found, kept⟩ := still
  constructor
  · rw [List.getElem?_append_right (by omega)] at found
    have here : outer.length + 1 + place - outer.length = place + 1 := by omega
    rwa [here, List.getElem?_cons_succ] at found
  · intro count behind
    have shifted := kept (outer.length + 1 + count) (by omega)
    rw [Nat.add_assoc _ place 1, depthAt_behind_open, depthAt_behind_open] at shifted
    omega

theorem LeavesOpen.innermost {tokens : List Token} {stack : List Span} {span : Span}
    (left : LeavesOpen tokens (span :: stack)) : InnermostOpen tokens span := by
  cases left with
  | @more outer inside _ _ left balanced =>
    refine ⟨outer.length, ⟨by simp, fun count behind => ?_⟩, fun later other still => ?_⟩
    · obtain ⟨further, rfl⟩ := Nat.exists_eq_add_of_lt behind
      have within := balanced.nonneg further
      have first := depthAt_behind_open outer inside span 0
      rw [Nat.add_zero] at first
      rw [first, Nat.add_right_comm, depthAt_behind_open, depthAt, List.take_zero, depth_nil]
      omega
    · refine Nat.le_of_not_lt fun behind => ?_
      obtain ⟨further, rfl⟩ := Nat.exists_eq_add_of_lt behind
      rw [Nat.add_right_comm] at still
      exact balanced.not_stillOpen still.inside

end EagerLisp.Token
