import EagerLisp.Proofs.Node.Flatten
import EagerLisp.Proofs.Token.Place

namespace EagerLisp

namespace TokenTree

variable {holds : Span → Prop}

mutual
/-- What holds of the stretches of the tokens, and of the hull of any two stretches it holds of,
holds of the stretch of every expression in the tree. -/
theorem span_of_within (hulls : ∀ first second, holds first → holds second →
      holds (first.hull second)) (tree : TokenTree)
    (tokens : ∀ token ∈ tree.flatten, holds token.span) {inner : Node}
    (within : inner.Within tree.node) : holds inner.span := by
  cases tree with
  | atom text span =>
    cases within with
    | self => exact tokens ⟨.atom text, span⟩ (by simp [flatten])
  | list opening elements closing =>
    cases within with
    | self =>
      refine hulls opening closing ?_ ?_
      · exact tokens ⟨.openParen, opening⟩ (by simp [flatten])
      · exact tokens ⟨.closeParen, closing⟩ (by simp [flatten])
    | element member deeper =>
      refine span_of_among hulls elements (fun token present => ?_) ⟨_, member, deeper⟩
      exact tokens token (by simp [flatten, present])

theorem span_of_among (hulls : ∀ first second, holds first → holds second →
      holds (first.hull second)) (trees : List TokenTree)
    (tokens : ∀ token ∈ flattenAll trees, holds token.span) {inner : Node}
    (among : inner.Among (nodes trees)) : holds inner.span := by
  obtain ⟨node, member, deeper⟩ := among
  cases trees with
  | nil => cases member
  | cons tree rest =>
    rcases List.mem_cons.mp member with same | later
    · subst same
      refine span_of_within hulls tree (fun token present => ?_) deeper
      exact tokens token (by simp [flattenAll, present])
    · refine span_of_among hulls rest (fun token present => ?_) ⟨node, later, deeper⟩
      exact tokens token (by simp [flattenAll, present])
end

end TokenTree

namespace Reader

/-- The errors of reading that name a parenthesis, and the place of it. -/
inductive Blames (span : Span) : SyntaxError → Prop where
  | unclosed : Blames span (.unclosed span)
  | unopened : Blames span (.unopened span)
  | tooDeep : Blames span (.tooDeep nestingLimit span)

variable {holds : Span → Prop}

private theorem skip_blames {opening innermost : Span} {around : List Span} {tokens : List Token}
    (first : holds opening) (inner : holds innermost) (outer : ∀ span ∈ around, holds span)
    (ahead : ∀ token ∈ tokens, holds token.span) :
    ∃ span, Blames span (skip opening innermost around tokens).1 ∧ holds span := by
  fun_induction skip opening innermost around tokens with
  | case1 innermost around => exact ⟨innermost, .unclosed, inner⟩
  | case2 innermost around span rest ih =>
    have here := ahead ⟨.openParen, span⟩ (by simp)
    refine ih here (fun other member => ?_) fun token member => ahead token (by simp [member])
    rcases List.mem_cons.mp member with rfl | member
    · exact inner
    · exact outer other member
  | case3 innermost span rest => exact ⟨opening, .tooDeep, first⟩
  | case4 innermost span rest next others ih =>
    exact ih (outer next (by simp)) (fun other member => outer other (by simp [member]))
      fun token member => ahead token (by simp [member])
  | case5 innermost around text span rest ih =>
    exact ih inner outer fun token member => ahead token (by simp [member])

/-- An error of reading names one of the parentheses that were read, or one that was open before,
unless there was nothing to read. -/
theorem readInto_blames {tokens rest : List Token} {error : SyntaxError} :
    ∀ stack, (∀ frame ∈ stack, holds frame.opening) → (∀ token ∈ tokens, holds token.span) →
      (stack = [] → tokens ≠ []) → readInto stack tokens = (.error error, rest) →
        ∃ span, Blames span error ∧ holds span := by
  induction tokens with
  | nil =>
    intro stack opened _ something same
    cases stack with
    | nil => exact absurd rfl (something rfl)
    | cons innermost around =>
      cases same
      exact ⟨innermost.opening, .unclosed, opened innermost (by simp)⟩
  | cons token tokens ih =>
    intro stack opened ahead _ same
    have here := ahead token (by simp)
    have later : ∀ token ∈ tokens, holds token.span :=
      fun other member => ahead other (by simp [member])
    have onward (node : Node) (stack : List OpenList)
        (opened : ∀ frame ∈ stack, holds frame.opening)
        (same : resume node stack tokens = (.error error, rest)) :
        ∃ span, Blames span error ∧ holds span := by
      cases stack with
      | nil => cases same
      | cons innermost around =>
        refine ih (⟨innermost.opening, node :: innermost.elements⟩ :: around) ?_ later (by simp)
          same
        intro frame member
        rcases List.mem_cons.mp member with rfl | member
        · exact opened innermost (by simp)
        · exact opened frame (by simp [member])
    obtain ⟨lexeme, span⟩ := token
    cases lexeme with
    | openParen =>
      by_cases full : stack.length = nestingLimit
      · have none : ∀ other ∈ ([] : List Span), holds other := by simp
        have blamed := skip_blames here here none later
        rw [readInto_full full] at same
        cases same
        exact blamed
      · rw [readInto_open full] at same
        refine ih (⟨span, []⟩ :: stack) (fun frame member => ?_) later (by simp) same
        rcases List.mem_cons.mp member with rfl | member
        · exact here
        · exact opened frame member
    | atom text =>
      rw [readInto_atom] at same
      exact onward _ stack opened same
    | closeParen =>
      cases stack with
      | nil =>
        cases same
        exact ⟨span, .unopened, here⟩
      | cons innermost around =>
        exact onward _ around (fun frame member => opened frame (by simp [member])) same

theorem read_blames {token : Token} {rest unread : List Token} {error : SyntaxError}
    (same : read (token :: rest) = (.error error, unread)) :
    ∃ blamed ∈ token :: rest, Blames blamed.span error := by
  let spans := (token :: rest).map Token.span
  have ahead : ∀ other ∈ token :: rest, other.span ∈ spans :=
    fun other member => List.mem_map_of_mem member
  have none : ∀ frame ∈ ([] : List OpenList), frame.opening ∈ spans := by simp
  obtain ⟨span, blames, member⟩ := readInto_blames [] none ahead (by simp) same
  obtain ⟨blamed, present, rfl⟩ := List.mem_map.mp member
  exact ⟨blamed, present, blames⟩

/-- The expressions at the front of a token sequence, up to the first that cannot be read. -/
def readable : List Token → List Node
  | [] => []
  | token :: rest =>
    match _same : read (token :: rest) with
    | (.ok node, unread) => node :: readable unread
    | (.error _, _) => []
termination_by tokens => tokens.length
decreasing_by exact read_length_lt _same

theorem readable_cons {token : Token} {rest unread : List Token} {node : Node}
    (same : read (token :: rest) = (.ok node, unread)) :
    readable (token :: rest) = node :: readable unread := by
  rw [readable]
  split
  · simp_all
  · simp_all

theorem read_suffix {tokens unread : List Token} {node : Node}
    (same : read tokens = (.ok node, unread)) : unread <:+ tokens := by
  obtain ⟨tree, _, whole, _⟩ := beginWith_of_readInto [] trivial same
  exact ⟨tree.flatten, whole.symm⟩

private theorem span_of_read (hulls : ∀ first second, holds first → holds second →
      holds (first.hull second)) {tokens unread : List Token} {node inner : Node}
    (ahead : ∀ token ∈ tokens, holds token.span) (same : read tokens = (.ok node, unread))
    (within : inner.Within node) : holds inner.span := by
  obtain ⟨tree, _, whole, rfl⟩ := beginWith_of_readInto [] trivial same
  refine tree.span_of_within hulls (fun token member => ?_) within
  refine ahead token ?_
  rw [show tokens = tree.flatten ++ unread from whole]
  exact List.mem_append_left _ member

private theorem span_of_readable (hulls : ∀ first second, holds first → holds second →
      holds (first.hull second)) {tokens : List Token} {inner : Node}
    (ahead : ∀ token ∈ tokens, holds token.span) (among : inner.Among (readable tokens)) :
    holds inner.span := by
  fun_induction readable tokens with
  | case1 =>
    obtain ⟨_, member, _⟩ := among
    cases member
  | case2 token rest node unread same ih =>
    obtain ⟨outer, member, within⟩ := among
    rcases List.mem_cons.mp member with rfl | member
    · exact span_of_read hulls ahead same within
    · refine ih (fun other later => ?_) ⟨outer, member, within⟩
      exact ahead other ((read_suffix same).subset later)
  | case3 token rest error unread same =>
    obtain ⟨_, member, _⟩ := among
    cases member

/-- Every expression that can be read from a text stands on a stretch of whole characters. -/
theorem fitsIn_of_readable {source : String} {inner : Node}
    (among : inner.Among (readable (Token.ofString source))) :
    inner.span.FitsIn source.toList := by
  have hulls (first second : Span) (left : first.FitsIn source.toList)
      (right : second.FitsIn source.toList) : (first.hull second).FitsIn source.toList :=
    left.hull right
  exact span_of_readable hulls (fun _ => Token.fitsIn_of_mem) among

end Reader
end EagerLisp
