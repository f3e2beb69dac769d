import EagerLisp.Proofs.Node.Program
import EagerLisp.Proofs.Value.Likeness

namespace EagerLisp

/-- Places and the numbers of texts may differ in any way, and nothing else. -/
def Likeness.placeless : Likeness where
  name _ := True
  span _ _ := True
  source _ _ := True
  mark := Eq
  count := Eq
  made := ClosureMark.made_of_eq
  one := Eq.congr
  moved _ _ := .inr fun _ _ => trivial

private theorem Likeness.reflexive_placeless : placeless.Reflexive :=
  ⟨fun _ => trivial, fun _ => trivial, fun _ => rfl⟩

theorem Value.Like.placeless (value : Value) : value.Like .placeless value :=
  .refl Likeness.reflexive_placeless value fun _ _ _ _ => trivial

/-- The syntax errors are of one kind, at corresponding places. -/
inductive SyntaxError.Like (like : Likeness) : SyntaxError → SyntaxError → Prop where
  | unexpectedEnd : SyntaxError.Like like .unexpectedEnd .unexpectedEnd
  | unclosed {span spanTwin : Span} (placed : like.span span spanTwin) :
      SyntaxError.Like like (.unclosed span) (.unclosed spanTwin)
  | unopened {span spanTwin : Span} (placed : like.span span spanTwin) :
      SyntaxError.Like like (.unopened span) (.unopened spanTwin)
  | tooDeep (limit : Nat) {span spanTwin : Span} (placed : like.span span spanTwin) :
      SyntaxError.Like like (.tooDeep limit span) (.tooDeep limit spanTwin)
  | invalidToken {span spanTwin : Span} (placed : like.span span spanTwin) :
      SyntaxError.Like like (.invalidToken span) (.invalidToken spanTwin)

namespace Reader

/-- The elements read so far are alike. -/
def OpenList.Like (openList twin : OpenList) : Prop :=
  List.Forall₂ (Node.Like .placeless) openList.elements twin.elements

/-- The tokens stand for the same. -/
abbrev SameLexemes (tokens twins : List Token) : Prop :=
  tokens.map Token.lexeme = twins.map Token.lexeme

/-- The outcomes are alike, and so is what is left unread. -/
structure ReadAlike {α β : Type} (answers : α → β → Prop) (reading : Reading α)
    (twin : Reading β) : Prop where
  outcome : Both answers (SyntaxError.Like .placeless) reading.1 twin.1
  unread : SameLexemes reading.2 twin.2

private theorem skip_alike {tokens twins : List Token} (same : SameLexemes tokens twins)
    (opening openingTwin innermost innermostTwin : Span) {around aroundTwin : List Span}
    (deep : around.length = aroundTwin.length) :
    (skip opening innermost around tokens).1.Like .placeless
        (skip openingTwin innermostTwin aroundTwin twins).1 ∧
      SameLexemes (skip opening innermost around tokens).2
        (skip openingTwin innermostTwin aroundTwin twins).2 := by
  induction tokens generalizing twins innermost innermostTwin around aroundTwin with
  | nil =>
    obtain rfl := List.map_eq_nil_iff.mp same.symm
    exact ⟨.unclosed trivial, rfl⟩
  | cons token rest ih =>
    obtain ⟨_, span⟩ := token
    obtain ⟨⟨lexeme, spanTwin⟩, restTwin, rfl, rfl, later⟩ := List.map_eq_cons_iff.mp same.symm
    cases lexeme with
    | openParen => exact ih later.symm _ _ (by simp [deep])
    | atom text => exact ih later.symm _ _ deep
    | closeParen =>
      cases around with
      | nil =>
        obtain rfl := List.length_eq_zero_iff.mp deep.symm
        exact ⟨.tooDeep nestingLimit trivial, later.symm⟩
      | cons next others =>
        cases aroundTwin with
        | nil => cases deep
        | cons nextTwin othersTwin => exact ih later.symm _ _ (by simpa using deep)

private theorem deliver_alike {node twin : Node} (alike : node.Like .placeless twin)
    {stack stackTwin : List OpenList} (opened : List.Forall₂ OpenList.Like stack stackTwin) :
    Both (List.Forall₂ OpenList.Like) (Node.Like .placeless) (deliver node stack)
      (deliver twin stackTwin) := by
  cases opened with
  | nil => exact .failure alike
  | cons innermost around => exact .answer (.cons (.cons alike innermost) around)

private theorem readInto_alike {tokens twins : List Token} (same : SameLexemes tokens twins)
    {stack stackTwin : List OpenList} (opened : List.Forall₂ OpenList.Like stack stackTwin) :
    ReadAlike (Node.Like .placeless) (readInto stack tokens) (readInto stackTwin twins) := by
  induction tokens generalizing twins stack stackTwin with
  | nil =>
    obtain rfl := List.map_eq_nil_iff.mp same.symm
    cases opened with
    | nil => exact ⟨.failure .unexpectedEnd, rfl⟩
    | cons innermost around => exact ⟨.failure (.unclosed trivial), rfl⟩
  | cons token rest ih =>
    obtain ⟨_, span⟩ := token
    obtain ⟨⟨lexeme, spanTwin⟩, restTwin, rfl, rfl, later⟩ := List.map_eq_cons_iff.mp same.symm
    have onward {node twin : Node} (alike : node.Like .placeless twin)
        {stack stackTwin : List OpenList} (opened : List.Forall₂ OpenList.Like stack stackTwin) :
        ReadAlike (Node.Like .placeless) (resume node stack rest)
          (resume twin stackTwin restTwin) := by
      have delivered := deliver_alike alike opened
      rw [resume, resume]
      generalize deliver node stack = outcome at delivered ⊢
      generalize deliver twin stackTwin = outcomeTwin at delivered ⊢
      cases delivered with
      | failure alike => exact ⟨.answer alike, later.symm⟩
      | answer opened => exact ih later.symm opened
    cases lexeme with
    | openParen =>
      simp only [readInto, opened.length_eq]
      split
      · obtain ⟨kind, unread⟩ := skip_alike later.symm span spanTwin span spanTwin rfl
        exact ⟨.failure kind, unread⟩
      · exact ih later.symm (.cons .nil opened)
    | atom text =>
      rw [readInto_atom, readInto_atom]
      exact onward (.leaf (fun _ _ => trivial) trivial) opened
    | closeParen =>
      cases opened with
      | nil => exact ⟨.failure (.unopened trivial), later.symm⟩
      | cons innermost around =>
        exact onward (.list (List.forall₂_reverse_iff.mpr innermost) trivial) around

theorem read_alike {tokens twins : List Token} (same : SameLexemes tokens twins) :
    ReadAlike (Node.Like .placeless) (read tokens) (read twins) :=
  readInto_alike same .nil

theorem read_alike_of_ok {tokens twins unread : List Token} {node : Node}
    (same : SameLexemes tokens twins) (read : Reader.read tokens = (.ok node, unread)) :
    ∃ nodeTwin unreadTwin, Reader.read twins = (.ok nodeTwin, unreadTwin) ∧
      node.Like .placeless nodeTwin ∧ SameLexemes unread unreadTwin := by
  obtain ⟨outcome, later⟩ := read_alike same
  rw [read] at outcome later
  cases readTwin : Reader.read twins with
  | mk outcomeTwin unreadTwin =>
    rw [readTwin] at outcome later
    cases outcome with
    | answer alike => exact ⟨_, _, rfl, alike, later⟩

theorem read_alike_of_error {tokens twins unread : List Token} {error : SyntaxError}
    (same : SameLexemes tokens twins) (read : Reader.read tokens = (.error error, unread)) :
    ∃ errorTwin unreadTwin, Reader.read twins = (.error errorTwin, unreadTwin) ∧
      error.Like .placeless errorTwin := by
  obtain ⟨outcome, later⟩ := read_alike same
  rw [read] at outcome
  cases readTwin : Reader.read twins with
  | mk outcomeTwin unreadTwin =>
    rw [readTwin] at outcome
    cases outcome with
    | failure alike => exact ⟨_, _, rfl, alike⟩

/-- What has been read does not depend on the tokens behind it. -/
theorem read_append {tokens unread : List Token} {node : Node}
    (same : read tokens = (.ok node, unread)) (more : List Token) :
    read (tokens ++ more) = (.ok node, unread ++ more) := by
  obtain ⟨tree, fits, front, rfl⟩ := beginWith_of_readInto [] trivial same
  have tokens_eq : tokens = tree.flatten ++ unread := front
  rw [tokens_eq, List.append_assoc]
  exact read_flatten fits (unread ++ more)

end Reader
end EagerLisp
