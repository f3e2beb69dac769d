import EagerLisp.Proofs.Node.Program

/-! Reading again and again. Whatever comes of one reading, it has taken a stretch off the front of
the tokens that its outcome describes, and it leaves the tokens behind that stretch as they are. So
the outcomes of all readings together account for every token, and there are no more readings than
tokens. -/
namespace EagerLisp

open TokenTree

namespace Reader

variable {halves outer : List HalfTree} {opening : Span} {tokens rest front : List Token}
  {outcome : Except SyntaxError Node} {error : SyntaxError}

theorem HalfTree.flatten_append (inner outer : List HalfTree) :
    HalfTree.flatten (inner ++ outer) = HalfTree.flatten outer ++ HalfTree.flatten inner := by
  induction inner with
  | nil => simp [HalfTree.flatten]
  | cons half around ih => simp [HalfTree.flatten, ih]

/-- What a reading takes off the front of the tokens, with its outcome and with what is left:
`Takes front outcome rest`. -/
inductive Takes : List Token → Except SyntaxError Node → List Token → Prop where
  /-- The tokens of one expression. -/
  | expression (tree : TokenTree) (fits : tree.depth ≤ nestingLimit) (rest : List Token) :
      Takes tree.flatten (.ok tree.node) rest
  /-- A closing parenthesis alone. -/
  | unopened (span : Span) (rest : List Token) :
      Takes [⟨.closeParen, span⟩] (.error (.unopened span)) rest
  /-- As many open lists as there may be, and one list too many inside them up to its own closing
  parenthesis. -/
  | tooDeep (outer : List HalfTree) (full : outer.length = nestingLimit)
      (fits : HalfTree.Fits outer) (opening : Span) (trees : List TokenTree) (closing : Span)
      (rest : List Token) :
      Takes (HalfTree.flatten outer ++ (TokenTree.list opening trees closing).flatten)
        (.error (.tooDeep nestingLimit opening)) rest
  /-- All tokens, the innermost of the open lists being the one that is reported. -/
  | unclosed (half : HalfTree) (around : List HalfTree) (fits : HalfTree.Fits (half :: around)) :
      Takes (HalfTree.flatten (half :: around)) (.error (.unclosed half.opening)) []
  /-- All tokens again, where lists inside a list too many stay open. -/
  | unclosedTooDeep (half : HalfTree) (inner outer : List HalfTree)
      (full : outer.length = nestingLimit) (fits : HalfTree.Fits outer) :
      Takes (HalfTree.flatten (half :: inner ++ outer)) (.error (.unclosed half.opening)) []

theorem Takes.front_ne_nil (takes : Takes front outcome rest) : front ≠ [] := by
  cases takes with
  | expression tree _ _ => cases tree <;> simp [TokenTree.flatten]
  | unopened span _ => simp
  | tooDeep outer _ _ opening trees closing _ => simp [TokenTree.flatten]
  | unclosed half around _ => simp [HalfTree.flatten]
  | unclosedTooDeep half inner outer _ _ => simp [HalfTree.flatten]

/-- The tokens ran out only where there were none. -/
theorem Takes.outcome_ne_unexpectedEnd (takes : Takes front outcome rest) :
    outcome ≠ .error .unexpectedEnd := by
  cases takes <;> simp

/-! ### Reading takes such a stretch -/

/-- The lists that are open while one is passed over that was opened too deep at `opening`: the
outermost of them is that one. -/
def PassedFrom (opening : Span) (halves : List HalfTree) : Prop :=
  (halves.map HalfTree.opening).getLast? = some opening

/-- What passing over a list has taken when it ends, the list itself or all tokens. -/
def Passed (opening : Span) (tokens : List Token) (error : SyntaxError) (rest : List Token) :
    Prop :=
  (∃ trees closing, tokens = (TokenTree.list opening trees closing).flatten ++ rest ∧
      error = .tooDeep nestingLimit opening) ∨
    (∃ half inner, tokens = HalfTree.flatten (half :: inner) ∧
      error = .unclosed half.opening ∧ rest = [])

/-- The invariant of passing over a list: the tokens behind its open lists and those still to come
are together what is passed over in the end, and what is left. -/
theorem passed_of_skip : ∀ half around, PassedFrom opening (half :: around) →
    skip opening half.opening (around.map HalfTree.opening) tokens = (error, rest) →
      Passed opening (HalfTree.flatten (half :: around) ++ tokens) error rest := by
  induction tokens with
  | nil =>
    intro half around _ same
    cases same
    exact .inr ⟨half, around, by simp, rfl, rfl⟩
  | cons token tokens ih =>
    intro half around outermost same
    obtain ⟨lexeme, span⟩ := token
    cases lexeme with
    | openParen =>
      have whole := ih ⟨span, []⟩ (half :: around) (by simpa [PassedFrom] using outermost) same
      rwa [HalfTree.flatten_opened] at whole
    | atom text =>
      have whole := ih ⟨half.opening, .atom text span :: half.trees⟩ around outermost same
      rwa [HalfTree.flatten_joined] at whole
    | closeParen =>
      rw [HalfTree.flatten_closed]
      cases around with
      | nil =>
        obtain rfl : half.opening = opening := by simpa [PassedFrom] using outermost
        cases same
        exact .inl ⟨half.trees.reverse, span, rfl, rfl⟩
      | cons next others =>
        have whole := ih
          ⟨next.opening, .list half.opening half.trees.reverse span :: next.trees⟩ others
          (by simpa [PassedFrom] using outermost) same
        rwa [HalfTree.flatten_joined] at whole

/-- The tokens begin with a stretch that a reading with this outcome takes, and then `rest`. -/
def TakenFrom (tokens : List Token) (outcome : Except SyntaxError Node) (rest : List Token) :
    Prop :=
  ∃ front, tokens = front ++ rest ∧ Takes front outcome rest

private theorem takenFrom_of_skip (full : outer.length = nestingLimit) (fits : HalfTree.Fits outer)
    (same : skip opening opening [] tokens = (error, rest)) :
    TakenFrom (HalfTree.flatten outer ++ ⟨.openParen, opening⟩ :: tokens) (.error error) rest := by
  have outermost : PassedFrom opening [⟨opening, []⟩] := rfl
  have passed := passed_of_skip _ [] outermost same
  rw [HalfTree.flatten_opened] at passed
  obtain ⟨trees, closing, taken, rfl⟩ | ⟨half, inner, taken, rfl, rfl⟩ := passed
  · refine ⟨_, ?_, .tooDeep outer full fits opening trees closing rest⟩
    rw [List.append_assoc, ← taken]
    rfl
  · refine ⟨_, ?_, .unclosedTooDeep half inner outer full fits⟩
    rw [HalfTree.flatten_append, ← taken]
    simp [HalfTree.flatten]

/-- The invariant of reading where it fails: the tokens behind the open lists and those still to
come are together what is taken in the end, and what is left. -/
theorem takenFrom_of_error : ∀ halves, HalfTree.Fits halves →
    HalfTree.flatten halves ++ tokens ≠ [] →
    readInto (halves.map HalfTree.openList) tokens = (.error error, rest) →
      TakenFrom (HalfTree.flatten halves ++ tokens) (.error error) rest := by
  induction tokens with
  | nil =>
    intro halves fits some same
    cases halves with
    | nil => exact absurd rfl some
    | cons half around =>
      cases same
      exact ⟨_, rfl, .unclosed half around fits⟩
  | cons token tokens ih =>
    -- A tree that was finished inside an open list is an element of that list.
    have resumed : ∀ (tree : TokenTree) half around, HalfTree.Fits (half :: around) →
        tree.depth + (half :: around).length ≤ nestingLimit →
        resume tree.node ((half :: around).map HalfTree.openList) tokens = (.error error, rest) →
        TakenFrom (HalfTree.flatten (half :: around) ++ (tree.flatten ++ tokens))
          (.error error) rest := by
      intro tree half around fits small same
      have whole := ih _ (fits.joined small) (by simp [HalfTree.flatten]) same
      rwa [HalfTree.flatten_joined] at whole
    intro halves fits _ same
    obtain ⟨lexeme, span⟩ := token
    cases lexeme with
    | openParen =>
      by_cases full : (halves.map HalfTree.openList).length = nestingLimit
      · rw [readInto_full full] at same
        cases same
        exact takenFrom_of_skip (by simpa using full) fits rfl
      · rw [readInto_open full] at same
        have whole := ih _ (fits.opened (by simpa using full) span) (by simp [HalfTree.flatten])
          same
        rwa [HalfTree.flatten_opened] at whole
    | atom text =>
      rw [readInto_atom] at same
      cases halves with
      | nil => simp [resume, deliver] at same
      | cons half around =>
        have small : (TokenTree.atom text span).depth + (half :: around).length ≤ nestingLimit := by
          simpa [depth] using fits.length_le
        exact resumed (.atom text span) half around fits small same
    | closeParen =>
      cases halves with
      | nil =>
        cases same
        exact ⟨_, rfl, .unopened span _⟩
      | cons half around =>
        rw [List.map_cons, HalfTree.openList, readInto_close] at same
        rw [HalfTree.flatten_closed]
        cases around with
        | nil => simp [resume, deliver] at same
        | cons next others =>
          exact resumed (.list half.opening half.trees.reverse span) next others fits.2
            (fits.closed span) (by rw [HalfTree.node_closed]; exact same)

theorem takenFrom_of_read (some : tokens ≠ []) (same : read tokens = (outcome, rest)) :
    TakenFrom tokens outcome rest := by
  cases outcome with
  | error error => exact takenFrom_of_error [] trivial some same
  | ok node =>
    obtain ⟨tree, fits, taken, rfl⟩ := beginWith_of_readInto [] trivial same
    exact ⟨tree.flatten, taken, .expression tree fits rest⟩

/-! ### Whatever begins with such a stretch is read so -/

mutual
theorem skip_flatten (tree : TokenTree) (opening innermost : Span) (spans : List Span)
    (rest : List Token) :
    skip opening innermost spans (tree.flatten ++ rest) = skip opening innermost spans rest := by
  cases tree with
  | atom text span => rfl
  | list place elements closing =>
    have inner := skip_flattenAll elements opening place (innermost :: spans)
      (⟨.closeParen, closing⟩ :: rest)
    rw [TokenTree.flatten, List.cons_append, List.append_assoc, List.singleton_append, skip, inner,
      skip]

theorem skip_flattenAll (trees : List TokenTree) (opening innermost : Span) (spans : List Span)
    (rest : List Token) :
    skip opening innermost spans (flattenAll trees ++ rest) =
      skip opening innermost spans rest := by
  cases trees with
  | nil => rfl
  | cons tree others =>
    rw [flattenAll, List.append_assoc, skip_flatten tree, skip_flattenAll others]
end

private theorem skip_halves (half : HalfTree) (inner : List HalfTree) (opening innermost : Span)
    (spans : List Span) (rest : List Token) :
    skip opening innermost spans (HalfTree.flatten (half :: inner) ++ rest) =
      skip opening half.opening (inner.map HalfTree.opening ++ innermost :: spans) rest := by
  induction inner generalizing half rest with
  | nil =>
    rw [HalfTree.flatten, HalfTree.flatten, List.nil_append, List.cons_append, skip,
      skip_flattenAll]
    rfl
  | cons next others ih =>
    rw [HalfTree.flatten, List.append_assoc, ih, List.cons_append, skip, skip_flattenAll]
    rfl

theorem readInto_halves (fits : HalfTree.Fits halves) (rest : List Token) :
    readInto [] (HalfTree.flatten halves ++ rest) =
      readInto (halves.map HalfTree.openList) rest := by
  induction halves generalizing rest with
  | nil => rfl
  | cons half around ih =>
    obtain ⟨bound, outer⟩ := fits
    have room : (around.map HalfTree.openList).length ≠ nestingLimit := by
      rw [List.length_map]
      omega
    have elements := readInto_flattenAll half.trees.reverse half.opening []
      (around.map HalfTree.openList) rest
      (by simpa only [deepest_reverse, List.length_map] using bound)
    rw [HalfTree.flatten, List.append_assoc, ih outer, List.cons_append, readInto_open room,
      elements]
    simp [HalfTree.openList, nodesBy_eq_map]

private theorem read_full (full : outer.length = nestingLimit) (fits : HalfTree.Fits outer)
    (opening : Span) (rest : List Token) :
    read (HalfTree.flatten outer ++ ⟨.openParen, opening⟩ :: rest) =
      (.error (skip opening opening [] rest).1, (skip opening opening [] rest).2) := by
  rw [read, readInto_halves fits, readInto_full (by simpa using full)]

theorem read_of_takes (takes : Takes front outcome rest) :
    read (front ++ rest) = (outcome, rest) := by
  cases takes with
  | expression tree fits _ => exact read_flatten fits rest
  | unopened span _ => rfl
  | tooDeep outer full fits opening trees closing _ =>
    have passed : skip opening opening [] (flattenAll trees ++ ⟨.closeParen, closing⟩ :: rest) =
        (.tooDeep nestingLimit opening, rest) := by
      rw [skip_flattenAll, skip]
    rw [TokenTree.flatten, List.append_assoc, List.cons_append, List.append_assoc,
      List.singleton_append, read_full full fits, passed]
  | unclosed half around fits =>
    rw [read, readInto_halves fits]
    rfl
  | unclosedTooDeep half inner outer full fits =>
    -- The outermost of these lists is the one too many.
    obtain ⟨deeper, last, split⟩ := (half :: inner).eq_nil_or_concat.resolve_left (by simp)
    have passed : skip last.opening last.opening [] (HalfTree.flatten deeper) =
        (.unclosed half.opening, []) := by
      cases deeper with
      | nil =>
        cases split
        rfl
      | cons first others =>
        cases split
        rw [← List.append_nil (HalfTree.flatten _), skip_halves, skip]
    rw [split, List.concat_eq_append, List.append_assoc, HalfTree.flatten_append,
      List.singleton_append, HalfTree.flatten, List.append_nil, List.append_assoc, List.cons_append,
      read_full full fits, skip_flattenAll, passed]

/-! ### Reading on -/

/-- The tokens left after so many readings. -/
def remainder (tokens : List Token) : Nat → List Token
  | 0 => tokens
  | calls + 1 => (read (remainder tokens calls)).2

theorem remainder_succ (tokens : List Token) (calls : Nat) :
    remainder tokens (calls + 1) = remainder (read tokens).2 calls := by
  induction calls with
  | zero => rfl
  | succ calls ih => rw [remainder, ih, remainder]

theorem remainder_nil (calls : Nat) : remainder [] calls = [] := by
  induction calls with
  | zero => rfl
  | succ calls ih => rw [remainder, ih, read, readInto]

theorem hasMore_iff {tokens : List Token} : hasMore tokens = true ↔ tokens ≠ [] := by
  simp [hasMore]

/-- The outcomes account for all tokens, each for the stretch that its reading took. -/
inductive Reads : List Token → List (Except SyntaxError Node) → Prop where
  | done : Reads [] []
  | onward {front rest : List Token} {outcome : Except SyntaxError Node}
      {outcomes : List (Except SyntaxError Node)} (takes : Takes front outcome rest)
      (others : Reads rest outcomes) : Reads (front ++ rest) (outcome :: outcomes)

namespace Reads

variable {outcomes : List (Except SyntaxError Node)}

private theorem length_le (reads : Reads tokens outcomes) : outcomes.length ≤ tokens.length := by
  induction reads with
  | done => exact Nat.le_refl _
  | onward takes _ ih =>
    have taken := List.length_pos_iff.mpr takes.front_ne_nil
    simp only [List.length_cons, List.length_append]
    omega

theorem remainder_ne_nil_iff (reads : Reads tokens outcomes) (calls : Nat) :
    remainder tokens calls ≠ [] ↔ calls < outcomes.length := by
  induction reads generalizing calls with
  | done => simp [remainder_nil]
  | onward takes _ ih =>
    cases calls with
    | zero =>
      simpa only [remainder, List.length_cons, Nat.zero_lt_succ, iff_true] using
        List.append_ne_nil_of_left_ne_nil takes.front_ne_nil _
    | succ calls =>
      rw [remainder_succ, read_of_takes takes, ih, List.length_cons, Nat.succ_lt_succ_iff]

private theorem next_remainder (reads : Reads tokens outcomes) (calls : Nat) :
    next (remainder tokens calls) = (outcomes[calls]?, remainder tokens (calls + 1)) := by
  induction reads generalizing calls with
  | done => simp [remainder_nil, next, hasMore]
  | @onward front rest outcome outcomes takes _ ih =>
    cases calls with
    | zero =>
      have some : hasMore (front ++ rest) = true :=
        hasMore_iff.mpr (List.append_ne_nil_of_left_ne_nil takes.front_ne_nil rest)
      simp only [remainder, next, some, read_of_takes takes]
      rfl
    | succ calls =>
      rw [remainder_succ, remainder_succ, read_of_takes takes, ih]
      rfl

end Reads

private theorem reads_attempts (found : List (Except SyntaxError Node)) (tokens : List Token) :
    ∃ outcomes, attempts found tokens = found.reverse ++ outcomes ∧ Reads tokens outcomes := by
  fun_induction attempts found tokens with
  | case1 found => exact ⟨[], by simp, .done⟩
  | case2 found token tokens outcome unread same ih =>
    obtain ⟨outcomes, further, reads⟩ := ih
    obtain ⟨front, taken, takes⟩ := takenFrom_of_read (by simp) same
    refine ⟨outcome :: outcomes, by simp [further], ?_⟩
    rw [taken]
    exact .onward takes reads

/-- Reading on, errors included, makes progress and loses nothing. The outcomes account for all
tokens, and there are no more of them than tokens. As long as tokens remain, a reading takes a
stretch that is not empty off their front, the one that belongs to its outcome and no other, leaves
the rest, and does not report the end. From then on every reading does report it, and there is no
next outcome. -/
theorem reading_on_loses_nothing (tokens : List Token) :
    let outcomes := attempts [] tokens
    Reads tokens outcomes ∧ outcomes.length ≤ tokens.length ∧
    ∀ calls,
      let now := remainder tokens calls
      let later := remainder tokens (calls + 1)
      next now = (outcomes[calls]?, later) ∧
      (hasMore now = true ↔ calls < outcomes.length) ∧
      (hasMore now = true →
        (∃ front outcome, front ≠ [] ∧ outcome ≠ .error .unexpectedEnd ∧
          now = front ++ later ∧ read now = (outcome, later) ∧ Takes front outcome later) ∧
        ∀ front outcome rest, now = front ++ rest → Takes front outcome rest →
          read now = (outcome, rest)) ∧
      (hasMore now = false → read now = (.error .unexpectedEnd, []) ∧ next now = (none, [])) := by
  obtain ⟨outcomes, same, reads⟩ := reads_attempts [] tokens
  obtain rfl : attempts [] tokens = outcomes := same
  refine ⟨reads, reads.length_le, fun calls => ⟨reads.next_remainder calls, ?_, ?_, ?_⟩⟩
  · rw [hasMore_iff, reads.remainder_ne_nil_iff]
  · intro more
    obtain ⟨front, taken, takes⟩ := takenFrom_of_read (hasMore_iff.mp more) rfl
    refine ⟨⟨front, _, takes.front_ne_nil, takes.outcome_ne_unexpectedEnd, taken, rfl, takes⟩, ?_⟩
    intro front outcome rest split other
    rw [split]
    exact read_of_takes other
  · intro none
    have empty : remainder tokens calls = [] := by simpa [hasMore] using none
    rw [empty]
    exact ⟨rfl, rfl⟩

/-- The text `)a(`: three readings, two of which fail, and nothing is left behind them. -/
theorem reading_on_loses_nothing_between_errors :
    let tokens : List Token :=
      [⟨.closeParen, ⟨0, 1⟩⟩, ⟨.atom "a", ⟨1, 2⟩⟩, ⟨.openParen, ⟨2, 3⟩⟩]
    attempts [] tokens = [.error (.unopened ⟨0, 1⟩), .ok (.leaf (.ofText "a") ⟨1, 2⟩),
      .error (.unclosed ⟨2, 3⟩)] ∧
    hasMore (remainder tokens 2) = true ∧ hasMore (remainder tokens 3) = false ∧
    read (remainder tokens 3) = (.error .unexpectedEnd, []) ∧
    next (remainder tokens 3) = (none, []) := by
  intro tokens
  have outcomes : attempts [] tokens = [.error (.unopened ⟨0, 1⟩),
      .ok (.leaf (.ofText "a") ⟨1, 2⟩), .error (.unclosed ⟨2, 3⟩)] := by
    simp [tokens, attempts, read, readInto, deliver, nestingLimit]
  obtain ⟨_, _, each⟩ := reading_on_loses_nothing tokens
  have third := each 2
  have beyond := each 3
  simp only [outcomes] at third beyond
  have none : hasMore (remainder tokens 3) = false := by
    simpa using mt beyond.2.1.mp (by decide)
  exact ⟨outcomes, third.2.1.mpr (by decide), none, beyond.2.2.2 none⟩

end Reader
end EagerLisp
