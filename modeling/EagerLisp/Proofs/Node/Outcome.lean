import EagerLisp.Proofs.Node.Flatten
import EagerLisp.Proofs.Token.Depth
import EagerLisp.Proofs.Token.OnePass

/-! Which programs can be read, and what is wrong with the others. The depth of the tokens alone
decides: a program is read exactly if the depth stays between zero and the limit and ends at zero,
and otherwise the first token that leads out of these bounds, or the innermost parenthesis that is
still open at the end, is named by the error. -/
namespace EagerLisp.Reader

open EagerLisp.Token

/-- The first token behind which the depth is below zero or one above the limit. -/
def LeavesAt (tokens : List Token) (place : Nat) : Prop :=
  (depthAt tokens (place + 1) < 0 ∨ depthAt tokens (place + 1) = nestingLimit + 1) ∧
    ∀ count ≤ place, 0 ≤ depthAt tokens count ∧ depthAt tokens count ≤ nestingLimit

instance (tokens : List Token) (place : Nat) : Decidable (LeavesAt tokens place) :=
  inferInstanceAs (Decidable (_ ∧ _))

/-- Lists that are never closed: the depth exceeds the limit and does not come back to it, or it
keeps to the bounds and ends above zero. -/
def StaysOpen (tokens : List Token) : Prop :=
  (∃ place, LeavesAt tokens place ∧ depthAt tokens (place + 1) = nestingLimit + 1 ∧
      ∀ later, place < later → depthAt tokens later ≠ nestingLimit) ∨
    ((∀ place, ¬LeavesAt tokens place) ∧ 0 < depth tokens)

theorem LeavesAt.unique {tokens : List Token} {first second : Nat}
    (left : LeavesAt tokens first) (right : LeavesAt tokens second) : first = second := by
  obtain ⟨out, within⟩ := left
  obtain ⟨out', within'⟩ := right
  rcases Nat.lt_trichotomy first second with before | same | behind
  · have inside := within' (first + 1) before
    omega
  · exact same
  · have inside := within (second + 1) behind
    omega

/-- What reading a whole program comes to, with the reason that the depth gives for it. -/
inductive Verdict (tokens : List Token) : Except SyntaxError (List Node) → Prop where
  | complete (nodes : List Node)
      (within : ∀ count, 0 ≤ depthAt tokens count ∧ depthAt tokens count ≤ nestingLimit)
      (closed : depth tokens = 0) : Verdict tokens (.ok nodes)
  | unopened {place : Nat} {span : Span} (leaves : LeavesAt tokens place)
      (found : tokens[place]? = some ⟨.closeParen, span⟩)
      (negative : depthAt tokens (place + 1) < 0) : Verdict tokens (.error (.unopened span))
  | tooDeep {place later : Nat} {span : Span} (leaves : LeavesAt tokens place)
      (found : tokens[place]? = some ⟨.openParen, span⟩)
      (full : depthAt tokens (place + 1) = nestingLimit + 1) (behind : place < later)
      (back : depthAt tokens later = nestingLimit) :
      Verdict tokens (.error (.tooDeep nestingLimit span))
  | unclosed {span : Span} (innermost : InnermostOpen tokens span)
      (nonneg : ∀ count, 0 ≤ depthAt tokens count) (stays : StaysOpen tokens) :
      Verdict tokens (.error (.unclosed span))

/-- A reader that has passed `count` tokens and has `rest` before it, with the parentheses that are
open there. -/
structure Reached (tokens : List Token) (stack : List Span) (count : Nat) (rest : List Token) :
    Prop where
  ahead : tokens.drop count = rest
  leaves : LeavesOpen (tokens.take count) stack

namespace Reached

variable {tokens rest : List Token} {stack : List Span} {count : Nat} {span place : Span}
  {token : Token} {text : String}

private theorem start (tokens : List Token) : Reached tokens [] 0 tokens :=
  ⟨rfl, .none .nil⟩

theorem found (reached : Reached tokens stack count (token :: rest)) :
    tokens[count]? = some token := by
  rw [← List.head?_drop, reached.ahead, List.head?_cons]

theorem drop_succ (reached : Reached tokens stack count (token :: rest)) :
    tokens.drop (count + 1) = rest := by
  rw [← List.drop_drop, reached.ahead, List.drop_succ_cons, List.drop_zero]

theorem take_succ (reached : Reached tokens stack count (token :: rest)) :
    tokens.take (count + 1) = tokens.take count ++ [token] := by
  rw [List.take_add_one, reached.found, Option.toList_some]

theorem depth_eq (reached : Reached tokens stack count rest) :
    depthAt tokens count = stack.length :=
  reached.leaves.depth_eq

theorem nonneg (reached : Reached tokens stack count rest) {earlier : Nat}
    (early : earlier ≤ count) : 0 ≤ depthAt tokens earlier := by
  rw [← depthAt_take early]
  exact reached.leaves.nonneg earlier

theorem opening (reached : Reached tokens stack count (⟨.openParen, span⟩ :: rest)) :
    Reached tokens (span :: stack) (count + 1) rest := by
  refine ⟨reached.drop_succ, ?_⟩
  rw [reached.take_succ]
  exact reached.leaves.opening span

theorem closing (reached : Reached tokens (span :: stack) count (⟨.closeParen, place⟩ :: rest)) :
    Reached tokens stack (count + 1) rest := by
  refine ⟨reached.drop_succ, ?_⟩
  rw [reached.take_succ]
  exact reached.leaves.closing place

theorem atom (reached : Reached tokens stack count (⟨.atom text, span⟩ :: rest)) :
    Reached tokens stack (count + 1) rest := by
  refine ⟨reached.drop_succ, ?_⟩
  rw [reached.take_succ]
  exact reached.leaves.append (.atom text span)

theorem length_le (reached : Reached tokens stack count []) : tokens.length ≤ count :=
  List.drop_eq_nil_iff.mp reached.ahead

private theorem leavesOpen (reached : Reached tokens stack count []) : LeavesOpen tokens stack := by
  have whole := reached.leaves
  rwa [List.take_of_length_le reached.length_le] at whole

end Reached

/-- The depth behind the first tokens, up to `count` of them, does not exceed the limit. -/
def Bounded (tokens : List Token) (count : Nat) : Prop :=
  ∀ earlier ≤ count, depthAt tokens earlier ≤ nestingLimit

variable {tokens rest : List Token} {stack : List Span} {count : Nat}

private theorem Bounded.succ (bounded : Bounded tokens count)
    (next : depthAt tokens (count + 1) ≤ nestingLimit) : Bounded tokens (count + 1) := by
  intro earlier early
  rcases Nat.lt_or_eq_of_le early with before | rfl
  · exact bounded earlier (Nat.le_of_lt_succ before)
  · exact next

private theorem Reached.leavesAt (reached : Reached tokens stack count rest)
    (bounded : Bounded tokens count)
    (out : depthAt tokens (count + 1) < 0 ∨ depthAt tokens (count + 1) = nestingLimit + 1) :
    LeavesAt tokens count :=
  ⟨out, fun earlier early => ⟨reached.nonneg early, bounded earlier early⟩⟩

/-- At the end of the tokens the bounds that held up to there hold for every count. -/
theorem Reached.within (reached : Reached tokens stack count []) (bounded : Bounded tokens count)
    (other : Nat) : 0 ≤ depthAt tokens other ∧ depthAt tokens other ≤ nestingLimit := by
  rcases Nat.le_total other count with early | late
  · exact ⟨reached.nonneg early, bounded other early⟩
  · have same : depthAt tokens other = depthAt tokens count := by
      rw [depthAt_of_length_le (Nat.le_trans reached.length_le late),
        depthAt_of_length_le reached.length_le]
    rw [same]
    exact ⟨reached.nonneg (Nat.le_refl _), bounded count (Nat.le_refl _)⟩

theorem Reached.unclosed {span : Span} (reached : Reached tokens (span :: stack) count [])
    (stays : StaysOpen tokens) : Verdict tokens (.error (.unclosed span)) :=
  .unclosed reached.leavesOpen.innermost reached.leavesOpen.nonneg stays

/-- From `place` on up to `count` tokens the depth has exceeded the limit. -/
def Exceeds (tokens : List Token) (place count : Nat) : Prop :=
  ∀ later, place < later → later ≤ count → nestingLimit < depthAt tokens later

private theorem Exceeds.succ {place : Nat} {inner outer : List Span}
    (exceeds : Exceeds tokens place count)
    (reached : Reached tokens (inner ++ outer) (count + 1) rest) (deeper : inner ≠ [])
    (limit : outer.length = nestingLimit) : Exceeds tokens place (count + 1) := by
  intro later behind early
  rcases Nat.lt_or_eq_of_le early with before | rfl
  · exact exceeds later behind (Nat.le_of_lt_succ before)
  · have more := List.length_pos_iff.mpr deeper
    rw [reached.depth_eq, List.length_append]
    omega

/-- A list that was opened one level too deep is passed over up to the token that brings the depth
back to the limit, or to the end if there is none. -/
theorem skip_verdict {place : Nat} {opening : Span} (leaves : LeavesAt tokens place)
    (found : tokens[place]? = some ⟨.openParen, opening⟩)
    (full : depthAt tokens (place + 1) = nestingLimit + 1) {outer : List Span}
    (limit : outer.length = nestingLimit) (innermost : Span) (around : List Span) (count : Nat)
    (reached : Reached tokens ((innermost :: around) ++ outer) count rest) (behind : place < count)
    (exceeds : Exceeds tokens place count) :
    Verdict tokens (.error (skip opening innermost around rest).1) := by
  fun_induction skip opening innermost around rest generalizing count with
  | case1 innermost around =>
    refine reached.unclosed (.inl ⟨place, leaves, full, fun later behind' => ?_⟩)
    rcases Nat.le_total later count with early | late
    · have deep := exceeds later behind' early
      omega
    · have deep := exceeds count behind (Nat.le_refl _)
      rw [depthAt_of_length_le reached.length_le] at deep
      rw [depthAt_of_length_le (Nat.le_trans reached.length_le late)]
      omega
  | case2 innermost around span rest ih =>
    have further : Reached tokens ((span :: innermost :: around) ++ outer) (count + 1) rest :=
      reached.opening
    exact ih (count + 1) further (Nat.lt_succ_of_lt behind) (exceeds.succ further (by simp) limit)
  | case3 innermost span rest =>
    have back : depthAt tokens (count + 1) = outer.length := reached.closing.depth_eq
    rw [limit] at back
    exact .tooDeep leaves found full (Nat.lt_succ_of_lt behind) back
  | case4 innermost span rest next others ih =>
    have further : Reached tokens ((next :: others) ++ outer) (count + 1) rest := reached.closing
    exact ih (count + 1) further (Nat.lt_succ_of_lt behind) (exceeds.succ further (by simp) limit)
  | case5 innermost around text span rest ih =>
    have further := reached.atom
    exact ih (count + 1) further (Nat.lt_succ_of_lt behind) (exceeds.succ further (by simp) limit)

/-- Where one expression ends, all of its parentheses are closed and the depth has kept to the
bounds. -/
def Read (tokens : List Token) : Reading Node → Prop
  | (.ok _, unread) => ∃ count, Reached tokens [] count unread ∧ Bounded tokens count
  | (.error error, _) => Verdict tokens (.error error)

/-- Reading on behind a finished expression keeps what reading on in front of every stack keeps. -/
theorem read_of_resume {node : Node} {stack : List OpenList}
    (reached : Reached tokens (stack.map OpenList.opening) count rest)
    (bounded : Bounded tokens count)
    (onward : ∀ stack : List OpenList, stack ≠ [] →
      Reached tokens (stack.map OpenList.opening) count rest → Read tokens (readInto stack rest)) :
    Read tokens (resume node stack rest) := by
  cases stack with
  | nil => exact ⟨count, reached, bounded⟩
  | cons innermost around => exact onward (⟨innermost.opening, _⟩ :: around) (by simp) reached

/-- The invariant of reading: the stack holds the parentheses that the tokens read so far leave
open, and the depth has kept to the bounds. -/
theorem read_of_readInto (stack : List OpenList) (count : Nat)
    (reached : Reached tokens (stack.map OpenList.opening) count rest)
    (bounded : Bounded tokens count) (something : stack = [] → rest ≠ []) :
    Read tokens (readInto stack rest) := by
  induction rest generalizing stack count with
  | nil =>
    cases stack with
    | nil => exact absurd rfl (something rfl)
    | cons innermost around =>
      have within := reached.within bounded
      refine reached.unclosed (.inr ⟨fun place leaves => ?_, ?_⟩)
      · have inside := within (place + 1)
        obtain ⟨out, _⟩ := leaves
        omega
      · rw [← depthAt_of_length_le reached.length_le, reached.depth_eq]
        simp
  | cons token rest ih =>
    have onward {count : Nat} (bounded : Bounded tokens count) (stack : List OpenList)
        (something : stack ≠ [])
        (reached : Reached tokens (stack.map OpenList.opening) count rest) :
        Read tokens (readInto stack rest) :=
      ih stack count reached bounded fun none => absurd none something
    have level : depthAt tokens count = stack.length := by
      rw [reached.depth_eq, List.length_map]
    have fits := bounded count (Nat.le_refl _)
    obtain ⟨lexeme, span⟩ := token
    cases lexeme with
    | openParen =>
      have further := reached.opening
      have deeper := further.depth_eq
      simp only [List.length_cons, List.length_map] at deeper
      by_cases full : stack.length = nestingLimit
      · have out : depthAt tokens (count + 1) = nestingLimit + 1 := by omega
        have leaves := reached.leavesAt bounded (.inr out)
        have exceeds : Exceeds tokens count (count + 1) := by
          intro later behind early
          rw [show later = count + 1 by omega]
          omega
        have skipped := skip_verdict leaves reached.found out (by simpa using full) span []
          (count + 1) further (Nat.lt_succ_self _) exceeds
        rw [readInto_full full]
        exact skipped
      · rw [readInto_open full]
        exact onward (bounded.succ (by omega)) (⟨span, []⟩ :: stack) (by simp) further
    | atom text =>
      have further := reached.atom
      have same := further.depth_eq
      rw [List.length_map] at same
      have bounded' := bounded.succ (by omega)
      rw [readInto_atom]
      exact read_of_resume further bounded' (onward bounded')
    | closeParen =>
      cases stack with
      | nil =>
        have up : depthAt tokens (count + 1) = depthAt tokens count - 1 := by
          rw [depthAt_succ reached.found]
          simp
          omega
        have negative : depthAt tokens (count + 1) < 0 := by
          simp only [List.length_nil] at level
          omega
        exact .unopened (reached.leavesAt bounded (.inl negative)) reached.found negative
      | cons innermost around =>
        have further := reached.closing
        have up := further.depth_eq
        rw [List.length_map] at up
        rw [List.length_cons] at level
        have bounded' := bounded.succ (by omega)
        exact read_of_resume further bounded' (onward bounded')

/-- Reading every expression comes to what the depth of all the tokens says. -/
theorem readAll_verdict (found : List Node) (count : Nat) (reached : Reached tokens [] count rest)
    (bounded : Bounded tokens count) : Verdict tokens (readAll found rest) := by
  fun_induction readAll found rest generalizing count with
  | case1 found =>
    refine .complete _ (reached.within bounded) ?_
    rw [← depthAt_of_length_le reached.length_le, reached.depth_eq]
    rfl
  | case2 found token rest node unread same ih =>
    have one := read_of_readInto [] count reached bounded (by simp)
    rw [← read, same] at one
    obtain ⟨further, reached', bounded'⟩ := one
    exact ih further reached' bounded'
  | case3 found token rest error unread same =>
    have one := read_of_readInto [] count reached bounded (by simp)
    rw [← read, same] at one
    exact one

theorem readProgram_verdict (source : String) :
    Verdict (Token.ofString source) (readProgram source) := by
  refine readAll_verdict [] 0 (.start _) fun earlier early => ?_
  rw [Nat.le_zero.mp early]
  simp [depthAt]

theorem LeavesAt.not_within {place : Nat} (leaves : LeavesAt tokens place) :
    ¬∀ count, 0 ≤ depthAt tokens count ∧ depthAt tokens count ≤ nestingLimit := by
  intro within
  have inside := within (place + 1)
  obtain ⟨out, _⟩ := leaves
  omega

private theorem StaysOpen.of_leaves {place : Nat} (stays : StaysOpen tokens)
    (leaves : LeavesAt tokens place) :
    depthAt tokens (place + 1) = nestingLimit + 1 ∧
      ∀ later, place < later → depthAt tokens later ≠ nestingLimit := by
  rcases stays with ⟨other, leaves', full, away⟩ | ⟨none, _⟩
  · cases leaves.unique leaves'
    exact ⟨full, away⟩
  · exact absurd leaves (none place)

private theorem StaysOpen.not_closed (stays : StaysOpen tokens)
    (within : ∀ count, 0 ≤ depthAt tokens count ∧ depthAt tokens count ≤ nestingLimit) :
    depth tokens ≠ 0 := by
  rcases stays with ⟨other, leaves, _, _⟩ | ⟨_, above⟩
  · exact absurd within leaves.not_within
  · omega

/-- The depth decides what becomes of a program. It is read if and only if the depth stays between
zero and the limit and ends at zero. Otherwise the first token that leads out of these bounds is to
blame if it closes what nothing opened, or opens a list too deep that is closed again; and failing
that, the innermost parenthesis that is open at the end. -/
theorem readProgram_decided_by_depth (source : String) :
    let tokens := Token.ofString source
    ((∃ nodes, readProgram source = .ok nodes) ↔
      (∀ count, 0 ≤ depthAt tokens count ∧ depthAt tokens count ≤ nestingLimit) ∧
        depth tokens = 0) ∧
    (∀ place token, tokens[place]? = some token → LeavesAt tokens place →
      (depthAt tokens (place + 1) < 0 → readProgram source = .error (.unopened token.span)) ∧
      (depthAt tokens (place + 1) = nestingLimit + 1 →
        (∃ later, place < later ∧ depthAt tokens later = nestingLimit) →
          readProgram source = .error (.tooDeep nestingLimit token.span))) ∧
    (StaysOpen tokens → ∃ span, InnermostOpen tokens span ∧
      readProgram source = .error (.unclosed span)) := by
  intro tokens
  have verdict : Verdict tokens (readProgram source) := readProgram_verdict source
  generalize readProgram source = outcome at verdict
  cases verdict with
  | complete nodes within closed =>
    refine ⟨⟨fun _ => ⟨within, closed⟩, fun _ => ⟨nodes, rfl⟩⟩, ?_, ?_⟩
    · intro place token _ leaves
      exact absurd within leaves.not_within
    · intro stays
      exact absurd closed (stays.not_closed within)
  | @unopened first span leaves found negative =>
    refine ⟨⟨by simp, fun kept => absurd kept.1 leaves.not_within⟩, ?_, ?_⟩
    · intro place token present leaves'
      cases leaves.unique leaves'
      cases found.symm.trans present
      exact ⟨fun _ => rfl, fun full => by omega⟩
    · intro stays
      have full := (stays.of_leaves leaves).1
      omega
  | @tooDeep first later span leaves found full behind back =>
    refine ⟨⟨by simp, fun kept => absurd kept.1 leaves.not_within⟩, ?_, ?_⟩
    · intro place token present leaves'
      cases leaves.unique leaves'
      cases found.symm.trans present
      exact ⟨fun negative => by omega, fun _ _ => rfl⟩
    · intro stays
      exact absurd back ((stays.of_leaves leaves).2 later behind)
  | @unclosed span innermost nonneg stays =>
    refine ⟨⟨by simp, fun kept => absurd kept.2 (stays.not_closed kept.1)⟩, ?_, ?_⟩
    · intro place token _ leaves
      obtain ⟨full, away⟩ := stays.of_leaves leaves
      refine ⟨fun negative => by omega, fun _ comesBack => ?_⟩
      obtain ⟨later, behind, back⟩ := comesBack
      exact absurd back (away later behind)
    · intro _
      exact ⟨span, innermost, rfl⟩

/-- The text `(a))((` closes a parenthesis too many before it leaves two open, and `(a) ((b)` keeps
to the bounds and leaves one open. -/
theorem readProgram_decided_by_depth_examples :
    LeavesAt (Token.ofString "(a))((") 3 ∧ depthAt (Token.ofString "(a))((") 4 < 0 ∧
      readProgram "(a))((" = .error (.unopened ⟨3, 4⟩) ∧
      StaysOpen (Token.ofString "(a) ((b)") ∧
      ∃ span, InnermostOpen (Token.ofString "(a) ((b)") span ∧
        readProgram "(a) ((b)" = .error (.unclosed span) := by
  have first : Token.ofString "(a))((" = [⟨.openParen, ⟨0, 1⟩⟩, ⟨.atom "a", ⟨1, 2⟩⟩,
      ⟨.closeParen, ⟨2, 3⟩⟩, ⟨.closeParen, ⟨3, 4⟩⟩, ⟨.openParen, ⟨4, 5⟩⟩,
      ⟨.openParen, ⟨5, 6⟩⟩] := by
    rw [Token.ofString, Token.Pass.scan_eq_foldl_step]
    decide +kernel
  have second : Token.ofString "(a) ((b)" = [⟨.openParen, ⟨0, 1⟩⟩, ⟨.atom "a", ⟨1, 2⟩⟩,
      ⟨.closeParen, ⟨2, 3⟩⟩, ⟨.openParen, ⟨4, 5⟩⟩, ⟨.openParen, ⟨5, 6⟩⟩, ⟨.atom "b", ⟨6, 7⟩⟩,
      ⟨.closeParen, ⟨7, 8⟩⟩] := by
    rw [Token.ofString, Token.Pass.scan_eq_foldl_step]
    decide +kernel
  have leaves : LeavesAt (Token.ofString "(a))((") 3 := by
    rw [first]
    decide
  have negative : depthAt (Token.ofString "(a))((") 4 < 0 := by
    rw [first]
    decide
  have stays : StaysOpen (Token.ofString "(a) ((b)") := by
    rw [second]
    refine .inr ⟨fun place leaves => ?_, by decide⟩
    rcases Nat.lt_or_ge place 7 with early | late
    · revert leaves
      revert place
      decide
    · have last := leaves.1
      rw [depthAt_of_length_le (by simp only [List.length_cons, List.length_nil]; omega)] at last
      revert last
      decide
  have named := (readProgram_decided_by_depth "(a))((").2.1 3 ⟨.closeParen, ⟨3, 4⟩⟩
    (by rw [first]; rfl) leaves
  exact ⟨leaves, negative, named.1 negative, stays,
    (readProgram_decided_by_depth "(a) ((b)").2.2 stays⟩

end EagerLisp.Reader
