import EagerLisp.Node.Reader

/-! Trees of tokens. Flattening a tree gives the tokens of one expression, and reading undoes
flattening: it takes the tokens of exactly one tree off the front, as long as no list in it is
nested deeper than the limit, and it takes nothing else. -/
namespace EagerLisp

/-- The expression is the other one, or stands somewhere inside it. -/
inductive Node.Within (inner : Node) : Node → Prop where
  | self : Within inner inner
  | element {elements : List Node} {span : Span} {node : Node} (member : node ∈ elements)
      (deeper : Within inner node) : Within inner (.list elements span)

/-- The expression stands in one of several. -/
def Node.Among (inner : Node) (nodes : List Node) : Prop :=
  ∃ node ∈ nodes, inner.Within node

namespace Node

theorem Within.trans {inner middle outer : Node} (first : inner.Within middle)
    (second : middle.Within outer) : inner.Within outer := by
  induction second with
  | self => exact first
  | element member _ ih => exact .element member ih

theorem Within.of_mem {node : Node} {elements : List Node} {span : Span}
    (member : node ∈ elements) : node.Within (.list elements span) :=
  .element member .self

theorem Within.among {inner outer : Node} {nodes : List Node} (first : inner.Within outer)
    (second : outer.Among nodes) : inner.Among nodes := by
  obtain ⟨node, member, deeper⟩ := second
  exact ⟨node, member, first.trans deeper⟩

theorem Among.of_mem {node : Node} {nodes : List Node} (member : node ∈ nodes) :
    node.Among nodes :=
  ⟨node, member, .self⟩

end Node

/-- One expression as tokens: an atom, or a list between its own parentheses. -/
inductive TokenTree where
  | atom (text : String) (span : Span)
  | list (opening : Span) (elements : List TokenTree) (closing : Span)

namespace TokenTree

mutual
/-- The tokens of a tree in order. -/
def flatten : TokenTree → List Token
  | .atom text span => [⟨.atom text, span⟩]
  | .list opening elements closing =>
    ⟨.openParen, opening⟩ :: (flattenAll elements ++ [⟨.closeParen, closing⟩])

def flattenAll : List TokenTree → List Token
  | [] => []
  | tree :: rest => flatten tree ++ flattenAll rest
end

mutual
/-- How deep the lists of a tree are nested; an atom has depth zero. -/
def depth : TokenTree → Nat
  | .atom _ _ => 0
  | .list _ elements _ => deepest elements + 1

def deepest : List TokenTree → Nat
  | [] => 0
  | tree :: rest => max (depth tree) (deepest rest)
end

mutual
/-- The expression that a tree stands for; `cover` places a list by its two parentheses. -/
def nodeBy (cover : Span → Span → Span) : TokenTree → Node
  | .atom text span => .leaf (.ofText text) span
  | .list opening elements closing =>
    .list (nodesBy cover elements) (cover opening closing)

def nodesBy (cover : Span → Span → Span) : List TokenTree → List Node
  | [] => []
  | tree :: rest => nodeBy cover tree :: nodesBy cover rest
end

/-- The expression that a tree stands for, each list on the least stretch that covers its two
parentheses. -/
abbrev node : TokenTree → Node := nodeBy Span.hull

abbrev nodes : List TokenTree → List Node := nodesBy Span.hull

theorem flattenAll_append (first second : List TokenTree) :
    flattenAll (first ++ second) = flattenAll first ++ flattenAll second := by
  induction first with
  | nil => rfl
  | cons tree rest ih => simp [flattenAll, ih]

theorem deepest_append (first second : List TokenTree) :
    deepest (first ++ second) = max (deepest first) (deepest second) := by
  induction first with
  | nil => simp [deepest]
  | cons tree rest ih => simp [deepest, ih, Nat.max_assoc]

theorem deepest_reverse (trees : List TokenTree) : deepest trees.reverse = deepest trees := by
  induction trees with
  | nil => rfl
  | cons tree rest ih =>
    simp only [List.reverse_cons, deepest_append, deepest, ih]
    omega

theorem nodesBy_eq_map (cover : Span → Span → Span) (trees : List TokenTree) :
    nodesBy cover trees = trees.map (nodeBy cover) := by
  induction trees with
  | nil => rfl
  | cons tree rest ih => simp [nodesBy, ih]

end TokenTree

namespace Reader

open TokenTree

/-- Reading goes on behind a finished expression. -/
def resume (node : Node) (stack : List OpenList) (rest : List Token) : Reading Node :=
  match deliver node stack with
  | .error node => (.ok node, rest)
  | .ok stack => readInto stack rest

theorem readInto_atom (stack : List OpenList) (text : String) (span : Span) (rest : List Token) :
    readInto stack (⟨.atom text, span⟩ :: rest) =
      resume (.leaf (.ofText text) span) stack rest := by
  cases stack <;> rfl

theorem readInto_close (opening span : Span) (elements : List Node) (around : List OpenList)
    (rest : List Token) :
    readInto (⟨opening, elements⟩ :: around) (⟨.closeParen, span⟩ :: rest) =
      resume (.list elements.reverse (opening.hull span)) around rest := rfl

theorem readInto_open {stack : List OpenList} (room : stack.length ≠ nestingLimit) (span : Span)
    (rest : List Token) :
    readInto stack (⟨.openParen, span⟩ :: rest) = readInto (⟨span, []⟩ :: stack) rest := by
  cases stack <;> simp_all [readInto]

theorem readInto_full {stack : List OpenList} (full : stack.length = nestingLimit) (span : Span)
    (rest : List Token) :
    readInto stack (⟨.openParen, span⟩ :: rest) =
      (.error (skip span span [] rest).1, (skip span span [] rest).2) := by
  cases stack <;> simp_all [readInto]

mutual
/-- A tree that fits below the open lists is read as one finished expression. -/
theorem readInto_flatten (tree : TokenTree) (stack : List OpenList) (rest : List Token)
    (fits : tree.depth + stack.length ≤ nestingLimit) :
    readInto stack (tree.flatten ++ rest) = resume tree.node stack rest := by
  cases tree with
  | atom text span => exact readInto_atom stack text span rest
  | list opening elements closing =>
    rw [depth] at fits
    have room : stack.length ≠ nestingLimit := by omega
    have inner := readInto_flattenAll elements opening [] stack (⟨.closeParen, closing⟩ :: rest)
      (by omega)
    rw [flatten, List.cons_append, readInto_open room, List.append_assoc, List.singleton_append,
      inner, readInto_close]
    simp [nodeBy]

/-- Trees that fit below the open lists become elements of the innermost one. -/
theorem readInto_flattenAll (trees : List TokenTree) (opening : Span) (elements : List Node)
    (around : List OpenList) (rest : List Token)
    (fits : deepest trees + (around.length + 1) ≤ nestingLimit) :
    readInto (⟨opening, elements⟩ :: around) (flattenAll trees ++ rest) =
      readInto (⟨opening, (nodes trees).reverse ++ elements⟩ :: around) rest := by
  cases trees with
  | nil => rfl
  | cons tree others =>
    rw [deepest] at fits
    have first := readInto_flatten tree (⟨opening, elements⟩ :: around)
      (flattenAll others ++ rest) (by simp only [List.length_cons]; omega)
    have second := readInto_flattenAll others opening (tree.node :: elements) around rest
      (by omega)
    rw [flattenAll, List.append_assoc, first, resume, deliver]
    simp only [second, nodesBy, List.reverse_cons, List.append_assoc, List.singleton_append]
end

theorem readAll_of_ok {token : Token} {rest unread : List Token} {node : Node}
    (same : read (token :: rest) = (.ok node, unread)) (found : List Node) :
    readAll found (token :: rest) = readAll (node :: found) unread := by
  rw [readAll]
  split <;> simp_all

theorem readAll_of_error {token : Token} {rest unread : List Token} {error : SyntaxError}
    (same : read (token :: rest) = (.error error, unread)) (found : List Node) :
    readAll found (token :: rest) = .error error := by
  rw [readAll]
  split <;> simp_all

/-- A list that has been opened, and the trees read into it so far, newest first. -/
structure HalfTree where
  opening : Span
  trees : List TokenTree

namespace HalfTree

def openList (half : HalfTree) : OpenList := ⟨half.opening, nodes half.trees⟩

/-- The tokens that the open lists were read from. -/
def flatten : List HalfTree → List Token
  | [] => []
  | half :: around =>
    flatten around ++ ⟨.openParen, half.opening⟩ :: flattenAll half.trees.reverse

/-- The trees read so far keep to the limit, counting the lists that are still open. -/
def Fits : List HalfTree → Prop
  | [] => True
  | half :: around => deepest half.trees + (around.length + 1) ≤ nestingLimit ∧ Fits around

end HalfTree

namespace HalfTree

theorem flatten_joined (half : HalfTree) (around : List HalfTree) (tree : TokenTree)
    (tokens : List Token) :
    flatten (⟨half.opening, tree :: half.trees⟩ :: around) ++ tokens =
      flatten (half :: around) ++ (tree.flatten ++ tokens) := by
  simp [flatten, flattenAll_append, flattenAll]

theorem flatten_closed (half : HalfTree) (around : List HalfTree) (span : Span)
    (tokens : List Token) :
    flatten (half :: around) ++ ⟨.closeParen, span⟩ :: tokens =
      flatten around ++
        ((TokenTree.list half.opening half.trees.reverse span).flatten ++ tokens) := by
  simp [flatten, TokenTree.flatten]

theorem flatten_opened (halves : List HalfTree) (span : Span) (tokens : List Token) :
    flatten (⟨span, []⟩ :: halves) ++ tokens = flatten halves ++ ⟨.openParen, span⟩ :: tokens := by
  simp [flatten, flattenAll]

theorem node_closed (half : HalfTree) (span : Span) :
    (TokenTree.list half.opening half.trees.reverse span).node =
      .list half.openList.elements.reverse (half.opening.hull span) := by
  simp [openList, nodeBy, nodesBy_eq_map]

namespace Fits

variable {half : HalfTree} {halves around : List HalfTree} {tree : TokenTree}

theorem length_le (fits : Fits halves) : halves.length ≤ nestingLimit := by
  cases halves with
  | nil => simp
  | cons half around =>
    obtain ⟨bound, _⟩ := fits
    simp only [List.length_cons]
    omega

theorem opened (fits : Fits halves) (room : halves.length ≠ nestingLimit) (span : Span) :
    Fits (⟨span, []⟩ :: halves) := by
  have bound := fits.length_le
  refine ⟨?_, fits⟩
  simp only [deepest]
  omega

theorem joined (fits : Fits (half :: around))
    (small : tree.depth + (half :: around).length ≤ nestingLimit) :
    Fits (⟨half.opening, tree :: half.trees⟩ :: around) := by
  obtain ⟨bound, outer⟩ := fits
  refine ⟨?_, outer⟩
  simp only [List.length_cons] at small
  simp only [deepest]
  omega

theorem closed (fits : Fits (half :: around)) (span : Span) :
    (TokenTree.list half.opening half.trees.reverse span).depth + around.length ≤
      nestingLimit := by
  obtain ⟨bound, _⟩ := fits
  simp only [depth, deepest_reverse]
  omega

end Fits
end HalfTree

/-- The tokens are those of one tree, the one that `node` stands for, and then `rest`. -/
def BeginWith (tokens : List Token) (node : Node) (rest : List Token) : Prop :=
  ∃ tree : TokenTree, tree.depth ≤ nestingLimit ∧ tokens = tree.flatten ++ rest ∧ node = tree.node

/-- What holds of every stack of open lists in front of some tokens also holds once a tree has been
finished there. -/
private theorem beginWith_of_resume {tokens rest : List Token} {node : Node}
    (onward : ∀ halves, HalfTree.Fits halves →
      readInto (halves.map HalfTree.openList) tokens = (.ok node, rest) →
        BeginWith (HalfTree.flatten halves ++ tokens) node rest)
    {tree : TokenTree} {halves : List HalfTree} (fits : HalfTree.Fits halves)
    (small : tree.depth + halves.length ≤ nestingLimit)
    (same : resume tree.node (halves.map HalfTree.openList) tokens = (.ok node, rest)) :
    BeginWith (HalfTree.flatten halves ++ (tree.flatten ++ tokens)) node rest := by
  cases halves with
  | nil =>
    have finished : (.ok tree.node, tokens) = ((.ok node, rest) : Reading Node) := same
    cases finished
    exact ⟨tree, by simpa using small, rfl, rfl⟩
  | cons half around =>
    have whole := onward _ (fits.joined small) same
    rwa [HalfTree.flatten_joined] at whole

/-- The invariant of reading: the tokens behind the open lists and those still to come are together
the tokens of one tree whenever reading succeeds. -/
theorem beginWith_of_readInto {tokens rest : List Token} {node : Node} :
    ∀ halves, HalfTree.Fits halves →
      readInto (halves.map HalfTree.openList) tokens = (.ok node, rest) →
        BeginWith (HalfTree.flatten halves ++ tokens) node rest := by
  induction tokens with
  | nil =>
    intro halves _ same
    cases halves <;> simp [readInto] at same
  | cons token tokens ih =>
    intro halves fits same
    obtain ⟨lexeme, span⟩ := token
    cases lexeme with
    | openParen =>
      by_cases full : (halves.map HalfTree.openList).length = nestingLimit
      · rw [readInto_full full] at same
        cases same
      · rw [readInto_open full] at same
        have whole := ih _ (fits.opened (by simpa using full) span) same
        rwa [HalfTree.flatten_opened] at whole
    | atom text =>
      rw [readInto_atom] at same
      have small : (TokenTree.atom text span).depth + halves.length ≤ nestingLimit := by
        simpa [depth] using fits.length_le
      exact beginWith_of_resume ih fits small same
    | closeParen =>
      cases halves with
      | nil => simp [readInto] at same
      | cons half around =>
        rw [List.map_cons, HalfTree.openList, readInto_close] at same
        have whole := beginWith_of_resume ih fits.2 (fits.closed span)
          (by rw [HalfTree.node_closed]; exact same)
        rwa [← HalfTree.flatten_closed] at whole

end Reader

/-- The stretch from the beginning of the first to the end of the second. -/
def Span.upTo (first second : Span) : Span := ⟨first.start, second.stop⟩

/-- The tokens stand in the order of the text they were read from. -/
def InOrder (tokens : List Token) : Prop :=
  tokens.Pairwise fun first second =>
    first.span.start ≤ second.span.start ∧ first.span.stop ≤ second.span.stop

instance (tokens : List Token) : Decidable (InOrder tokens) :=
  inferInstanceAs (Decidable (List.Pairwise _ _))

namespace TokenTree

mutual
/-- Between tokens in order, the least stretch that covers a list is that from its own opening
parenthesis to its own closing one. -/
theorem nodeBy_upTo_of_inOrder (tree : TokenTree) (ordered : InOrder tree.flatten) :
    tree.node = tree.nodeBy Span.upTo := by
  cases tree with
  | atom text span => rfl
  | list opening elements closing =>
    rw [InOrder, flatten, List.pairwise_cons, List.pairwise_append] at ordered
    obtain ⟨first, inner, _, _⟩ := ordered
    obtain ⟨starts, stops⟩ := first ⟨.closeParen, closing⟩ (by simp)
    have placed : opening.hull closing = opening.upTo closing :=
      Span.hull_of_ordered starts stops
    have below := nodesBy_upTo_of_inOrder elements inner
    simp only [nodes] at below
    simp only [node, nodeBy, placed, below]

theorem nodesBy_upTo_of_inOrder (trees : List TokenTree) (ordered : InOrder (flattenAll trees)) :
    nodes trees = nodesBy Span.upTo trees := by
  cases trees with
  | nil => rfl
  | cons tree rest =>
    rw [InOrder, flattenAll, List.pairwise_append] at ordered
    obtain ⟨first, others, _⟩ := ordered
    have head := nodeBy_upTo_of_inOrder tree first
    have tail := nodesBy_upTo_of_inOrder rest others
    simp only [node] at head
    simp only [nodes] at tail
    simp only [nodes, nodesBy, head, tail]
end

end TokenTree

namespace Reader

/-- Reading is the inverse of flattening. It succeeds on the tokens of every tree within the limit,
whatever comes behind them, with the expression that the tree stands for; and whenever it succeeds,
it has taken the tokens of such a tree. -/
theorem read_inverts_flatten :
    (∀ (tree : TokenTree) (rest : List Token), tree.depth ≤ nestingLimit →
      read (tree.flatten ++ rest) = (.ok tree.node, rest) ∧
        (InOrder tree.flatten → tree.node = tree.nodeBy Span.upTo)) ∧
    (∀ (tokens rest : List Token) (node : Node), read tokens = (.ok node, rest) →
      ∃ tree : TokenTree, tree.depth ≤ nestingLimit ∧ tokens = tree.flatten ++ rest ∧
        node = tree.node) := by
  constructor
  · intro tree rest small
    refine ⟨?_, tree.nodeBy_upTo_of_inOrder⟩
    rw [read, readInto_flatten tree [] rest (by simpa using small)]
    rfl
  · intro tokens rest node same
    exact beginWith_of_readInto [] trivial same

/-- The text `(a ()))`: the last parenthesis is left, and the tree of what was read is found
again. -/
theorem read_inverts_flatten_example :
    let tree : TokenTree := .list ⟨0, 1⟩ [.atom "a" ⟨1, 2⟩, .list ⟨3, 4⟩ [] ⟨4, 5⟩] ⟨5, 6⟩
    let rest : List Token := [⟨.closeParen, ⟨6, 7⟩⟩]
    tree.depth ≤ nestingLimit ∧ InOrder tree.flatten ∧
      read (tree.flatten ++ rest) =
        (.ok (.list [.leaf (.ofText "a") ⟨1, 2⟩, .list [] ⟨3, 5⟩] ⟨0, 6⟩), rest) ∧
      ∃ other : TokenTree, other.depth ≤ nestingLimit ∧
        tree.flatten ++ rest = other.flatten ++ rest ∧ tree.node = other.node := by
  intro tree rest
  have small : tree.depth ≤ nestingLimit := by decide
  have ordered : InOrder tree.flatten := by decide
  obtain ⟨same, placed⟩ := read_inverts_flatten.1 tree rest small
  refine ⟨small, ordered, ?_, read_inverts_flatten.2 _ rest tree.node same⟩
  rw [same, placed ordered]
  rfl

end Reader
end EagerLisp
