import EagerLisp.Proofs.Node.Flatten

namespace EagerLisp

namespace Node

mutual
/-- The expression with every place in it forgotten. -/
def bare : Node → Node
  | .leaf atom _ => .leaf atom ⟨0, 0⟩
  | .list elements _ => .list (bareAll elements) ⟨0, 0⟩

def bareAll : List Node → List Node
  | [] => []
  | node :: rest => bare node :: bareAll rest
end

theorem bareAll_eq_map (nodes : List Node) : bareAll nodes = nodes.map bare := by
  induction nodes with
  | nil => rfl
  | cons node rest ih => simp [bareAll, ih]

end Node

namespace TokenTree

theorem nodes_eq_map (trees : List TokenTree) : nodes trees = trees.map node :=
  nodesBy_eq_map Span.hull trees

/-- The trees have the same lexemes at the same depths, perhaps at other places. -/
structure Alike (first second : TokenTree) : Prop where
  depth : first.depth = second.depth
  bare : first.node.bare = second.node.bare

structure AllAlike (first second : List TokenTree) : Prop where
  deepest : deepest first = deepest second
  bare : (nodes first).map Node.bare = (nodes second).map Node.bare

mutual
theorem flatten_of_lexemes (tree : TokenTree) {tokens : List Token} {more : List Lexeme}
    (same : tokens.map Token.lexeme = tree.flatten.map Token.lexeme ++ more) :
    ∃ (other : TokenTree) (rest : List Token), tokens = other.flatten ++ rest ∧
      rest.map Token.lexeme = more ∧ other.Alike tree := by
  cases tree with
  | atom text span =>
    obtain ⟨⟨lexeme, place⟩, rest, rfl, first, behind⟩ := List.map_eq_cons_iff.mp same
    cases first
    exact ⟨.atom text place, rest, rfl, behind, ⟨rfl, rfl⟩⟩
  | list opening elements closing =>
    simp only [flatten, List.map_cons, List.map_append, List.cons_append, List.append_assoc]
      at same
    obtain ⟨⟨lexeme, place⟩, rest, rfl, first, behind⟩ := List.map_eq_cons_iff.mp same
    cases first
    obtain ⟨others, unread, rfl, last, alike⟩ := flattenAll_of_lexemes elements behind
    obtain ⟨⟨lexeme, stop⟩, rest, rfl, final, beyond⟩ := List.map_eq_cons_iff.mp last
    cases final
    refine ⟨.list place others stop, rest, by simp [flatten], beyond, ?_⟩
    constructor
    · simp only [depth, alike.deepest]
    · simpa [nodeBy, Node.bare, Node.bareAll_eq_map] using alike.bare

theorem flattenAll_of_lexemes (trees : List TokenTree) {tokens : List Token} {more : List Lexeme}
    (same : tokens.map Token.lexeme = (flattenAll trees).map Token.lexeme ++ more) :
    ∃ (others : List TokenTree) (rest : List Token), tokens = flattenAll others ++ rest ∧
      rest.map Token.lexeme = more ∧ AllAlike others trees := by
  cases trees with
  | nil => exact ⟨[], tokens, rfl, same, ⟨rfl, rfl⟩⟩
  | cons tree rest =>
    simp only [flattenAll, List.map_append, List.append_assoc] at same
    obtain ⟨other, behind, rfl, further, alike⟩ := flatten_of_lexemes tree same
    obtain ⟨others, unread, rfl, last, allAlike⟩ := flattenAll_of_lexemes rest further
    refine ⟨other :: others, unread, by simp [flattenAll], last, ?_⟩
    constructor
    · simp only [TokenTree.deepest, alike.depth, allAlike.deepest]
    · simpa [nodesBy, alike.bare] using allAlike.bare
end

end TokenTree

namespace Reader

open TokenTree

theorem read_flatten {tree : TokenTree} (fits : tree.depth ≤ nestingLimit) (rest : List Token) :
    read (tree.flatten ++ rest) = (.ok tree.node, rest) :=
  readInto_flatten tree [] rest fits

/-- The tokens of trees within the limit are read as the expressions that the trees stand for. -/
theorem readAll_flattenAll {trees : List TokenTree} (fits : deepest trees ≤ nestingLimit)
    (found : List Node) :
    readAll found (flattenAll trees) = .ok (found.reverse ++ nodes trees) := by
  induction trees generalizing found with
  | nil => simp [flattenAll, readAll, nodesBy]
  | cons tree rest ih =>
    rw [deepest] at fits
    have small : tree.depth ≤ nestingLimit := by omega
    have first := read_flatten small (flattenAll rest)
    have others := ih (by omega) (tree.node :: found)
    obtain ⟨token, behind, same⟩ : ∃ token behind, tree.flatten ++ flattenAll rest =
        token :: behind := by
      cases tree <;> simp [flatten]
    rw [same] at first
    rw [flattenAll, same, readAll_of_ok first, others]
    simp [nodesBy]

/-- Whatever is read is read from the tokens of trees within the limit. -/
theorem flattenAll_of_readAll {found result : List Node} {tokens : List Token}
    (same : readAll found tokens = .ok result) :
    ∃ trees, deepest trees ≤ nestingLimit ∧ tokens = flattenAll trees ∧
      result = found.reverse ++ nodes trees := by
  fun_induction readAll found tokens with
  | case1 found =>
    cases same
    exact ⟨[], by simp [deepest], rfl, by simp [nodesBy]⟩
  | case2 found token rest node unread first ih =>
    obtain ⟨tree, small, front, rfl⟩ := beginWith_of_readInto [] trivial first
    obtain ⟨trees, fits, behind, rfl⟩ := ih same
    refine ⟨tree :: trees, ?_, ?_, by simp [nodesBy]⟩
    · rw [deepest]
      omega
    · rw [flattenAll, ← behind, ← front]
      rfl
  | case3 => simp at same

theorem read_of_lexemes {tree : TokenTree} (fits : tree.depth ≤ nestingLimit) {tokens : List Token}
    (same : tokens.map Token.lexeme = tree.flatten.map Token.lexeme) :
    ∃ node, read tokens = (.ok node, []) ∧ node.bare = tree.node.bare := by
  rw [← List.append_nil (tree.flatten.map _)] at same
  obtain ⟨other, rest, rfl, none, alike⟩ := flatten_of_lexemes tree same
  obtain rfl := List.map_eq_nil_iff.mp none
  exact ⟨other.node, read_flatten (by rw [alike.depth]; exact fits) [], alike.bare⟩

theorem readAll_of_lexemes {trees : List TokenTree} (fits : deepest trees ≤ nestingLimit)
    {tokens : List Token}
    (same : tokens.map Token.lexeme = (flattenAll trees).map Token.lexeme) :
    ∃ result, readAll [] tokens = .ok result ∧
      result.map Node.bare = (nodes trees).map Node.bare := by
  rw [← List.append_nil ((flattenAll trees).map _)] at same
  obtain ⟨others, rest, rfl, none, alike⟩ := flattenAll_of_lexemes trees same
  obtain rfl := List.map_eq_nil_iff.mp none
  refine ⟨nodes others, ?_, alike.bare⟩
  rw [List.append_nil, readAll_flattenAll (by rw [alike.deepest]; exact fits)]
  rfl

end Reader
end EagerLisp
