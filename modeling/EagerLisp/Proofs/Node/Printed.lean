import EagerLisp.Proofs.Atom.Spelling
import EagerLisp.Proofs.Node.Program

/-! Printing undoes reading. The text of an expression that has been read is cut into the tokens of
the same tree again, whatever its strings and symbols contain, so that the same expression is read
from it. -/
namespace EagerLisp

open Token

namespace Node

mutual
/-- The tree of the tokens that an expression is printed as, all at the place of the expression they
come from. -/
def tokenTree : Node → TokenTree
  | .leaf atom span => .atom atom.text span
  | .list elements span => .list span (tokenTrees elements) span

def tokenTrees : List Node → List TokenTree
  | [] => []
  | node :: rest => tokenTree node :: tokenTrees rest
end

theorem tokenTrees_eq_map (nodes : List Node) : tokenTrees nodes = nodes.map tokenTree := by
  induction nodes with
  | nil => rfl
  | cons node rest ih => simp [tokenTrees, ih]

/-- No atom in the expression is printed with an open quoted stretch. -/
def Closed (node : Node) : Prop :=
  ∀ atom span, (leaf atom span).Within node → IsClosedAtom atom.text.toList

theorem Closed.of_within {inner node : Node} (closed : node.Closed) (within : inner.Within node) :
    inner.Closed :=
  fun atom span deeper => closed atom span (deeper.trans within)

private theorem Closed.of_mem {node : Node} {elements : List Node} {span : Span}
    (closed : (list elements span).Closed) (member : node ∈ elements) : node.Closed :=
  closed.of_within (.of_mem member)

mutual
/-- A closed expression is printed as the tokens of its tree, and whatever follows is cut by
itself. -/
theorem cuts_text (node : Node) (closed : node.Closed) :
    Cuts node.text (node.tokenTree.flatten.map lexeme) := by
  cases node with
  | leaf atom span => exact (closed atom span .self).cuts
  | list elements span =>
    have inner := cuts_texts elements fun node member => closed.of_mem member
    simpa [text, tokenTree, TokenTree.flatten] using inner.parens

theorem cuts_texts (nodes : List Node) (closed : ∀ node ∈ nodes, node.Closed) :
    Cuts (" ".intercalate (texts nodes))
      ((TokenTree.flattenAll (tokenTrees nodes)).map lexeme) := by
  cases nodes with
  | nil => exact .empty
  | cons node rest =>
    have first := cuts_text node (closed node List.mem_cons_self)
    have others := cuts_texts rest fun other member => closed other (List.mem_cons_of_mem _ member)
    cases rest with
    | nil => simpa [texts, tokenTrees, TokenTree.flattenAll] using first
    | cons second rest =>
      simpa [texts, tokenTrees, TokenTree.flattenAll] using first.space others
end

/-- An expression that may stand last in a text: only a leaf may leave a quoted stretch open. -/
inductive MayEnd : Node → Prop where
  | closed {node : Node} (closed : node.Closed) : MayEnd node
  | leaf {atom : Atom} {span : Span} (isAtom : IsAtom atom.text.toList) : MayEnd (.leaf atom span)

private theorem MayEnd.of_within {inner node : Node} (ends : node.MayEnd)
    (within : inner.Within node) :
    inner.MayEnd := by
  cases ends with
  | closed closed => exact .closed (closed.of_within within)
  | leaf isAtom =>
    cases within
    exact .leaf isAtom

theorem MayEnd.lexemes_text {node : Node} (ends : node.MayEnd) :
    lexemes node.text.toList = node.tokenTree.flatten.map lexeme := by
  cases ends with
  | closed closed => exact (cuts_text node closed).lexemes_eq
  | leaf isAtom => simpa [text, tokenTree, TokenTree.flatten] using isAtom.lexemes_eq

private theorem lexemes_texts {nodes : List Node} (ends : ∀ node ∈ nodes, node.MayEnd)
    (closed : ∀ node ∈ nodes.dropLast, node.Closed) :
    lexemes (" ".intercalate (texts nodes)).toList =
      (TokenTree.flattenAll (tokenTrees nodes)).map lexeme := by
  have pieces : (TokenTree.flattenAll (tokenTrees nodes)).map lexeme =
      nodes.flatMap fun node => node.tokenTree.flatten.map lexeme := by
    clear ends closed
    induction nodes with
    | nil => rfl
    | cons node rest ih => simp [tokenTrees, TokenTree.flattenAll, ih]
  rw [texts_eq_map, pieces]
  exact lexemes_intercalate (fun node member => (ends node member).lexemes_text)
    fun node member => (cuts_text node (closed node member)).closed

/-- Every number in the expression is read back from its text as the same double. -/
def NumbersReadBack (node : Node) : Prop :=
  ∀ value span, (leaf (.number value) span).Within node →
    Number.ofText? (Number.text value) = some value

/-- Every atom in the expression is read back from its text. -/
def ReadsBack (node : Node) : Prop :=
  ∀ atom span, (leaf atom span).Within node → Atom.ofText atom.text = atom

private theorem ReadsBack.of_within {inner node : Node} (back : node.ReadsBack)
    (within : inner.Within node) : inner.ReadsBack :=
  fun atom span deeper => back atom span (deeper.trans within)

mutual
theorem bare_tokenTree (node : Node) (back : node.ReadsBack) :
    node.tokenTree.node.bare = node.bare := by
  cases node with
  | leaf atom span => simp [tokenTree, TokenTree.nodeBy, bare, back atom span .self]
  | list elements span =>
    have inner := bare_tokenTrees elements fun node member atom place within =>
      back atom place (.element member within)
    simp [tokenTree, TokenTree.nodeBy, bare, bareAll_eq_map, inner]

theorem bare_tokenTrees (nodes : List Node) (back : ∀ node ∈ nodes, node.ReadsBack) :
    (TokenTree.nodes (tokenTrees nodes)).map bare = nodes.map bare := by
  cases nodes with
  | nil => rfl
  | cons node rest =>
    have first := bare_tokenTree node (back node List.mem_cons_self)
    have others := bare_tokenTrees rest fun other member =>
      back other (List.mem_cons_of_mem _ member)
    simp [tokenTrees, TokenTree.nodesBy, first, others]
end

end Node

namespace TokenTree

mutual
theorem depth_tokenTree_node (tree : TokenTree) : tree.node.tokenTree.depth = tree.depth := by
  cases tree with
  | atom text span => rfl
  | list opening elements closing =>
    have inner := deepest_tokenTrees_nodes elements
    simp [nodeBy, Node.tokenTree, depth, inner]

theorem deepest_tokenTrees_nodes (trees : List TokenTree) :
    deepest (Node.tokenTrees (nodes trees)) = deepest trees := by
  cases trees with
  | nil => rfl
  | cons tree rest =>
    have first := depth_tokenTree_node tree
    have others := deepest_tokenTrees_nodes rest
    simp [nodesBy, Node.tokenTrees, deepest, first, others]
end

theorem depth_le_deepest {tree : TokenTree} {trees : List TokenTree} (member : tree ∈ trees) :
    tree.depth ≤ deepest trees := by
  induction trees with
  | nil => simp at member
  | cons first rest ih =>
    rw [deepest]
    rcases List.mem_cons.mp member with rfl | member
    · omega
    · have := ih member
      omega

theorem mem_flattenAll {token : Token} {trees : List TokenTree} :
    token ∈ flattenAll trees ↔ ∃ tree ∈ trees, token ∈ tree.flatten := by
  induction trees with
  | nil => simp [flattenAll]
  | cons tree rest ih => simp [flattenAll, ih]

private theorem depth_le_of_within {inner node : Node} (within : inner.Within node) :
    inner.tokenTree.depth ≤ node.tokenTree.depth := by
  induction within with
  | self => exact Nat.le_refl _
  | element member _ ih =>
    have present := List.mem_map_of_mem (f := Node.tokenTree) member
    rw [← Node.tokenTrees_eq_map] at present
    have bound := depth_le_deepest present
    rw [Node.tokenTree, depth]
    omega

private theorem token_of_leaf {leaf node : Node} (within : leaf.Within node) {atom : Atom}
    {span : Span} (isLeaf : leaf = .leaf atom span) {tree : TokenTree} (same : node = tree.node) :
    ∃ text, atom = .ofText text ∧ ⟨.atom text, span⟩ ∈ tree.flatten := by
  induction within generalizing tree with
  | self =>
    subst isLeaf
    cases tree with
    | atom text place =>
      cases same
      exact ⟨text, rfl, by simp [flatten]⟩
    | list opening elements closing => simp [nodeBy] at same
  | element member _ ih =>
    cases tree with
    | atom text place => simp [nodeBy] at same
    | list opening elements closing =>
      obtain ⟨rfl, _⟩ := Node.list.inj same
      rw [nodesBy_eq_map] at member
      obtain ⟨inner, present, rfl⟩ := List.mem_map.mp member
      obtain ⟨text, read, found⟩ := ih rfl
      have deeper := mem_flattenAll.mpr ⟨inner, present, found⟩
      exact ⟨text, read, by simp [flatten, deeper]⟩

private theorem mem_dropLast_of_list {opening closing : Span} {elements trees : List TokenTree}
    (member : .list opening elements closing ∈ trees) {token : Token}
    (found : token ∈ (list opening elements closing).flatten) {text : String}
    (atom : token.lexeme = .atom text) : token ∈ (flattenAll trees).dropLast := by
  obtain ⟨front, back, rfl⟩ := List.append_of_mem member
  have inside : token ∈ flattenAll elements := by
    simp only [flatten, List.mem_cons, List.mem_append, List.not_mem_nil, or_false] at found
    rcases found with rfl | inside | rfl
    · simp at atom
    · exact inside
    · simp at atom
  have whole : flattenAll (front ++ .list opening elements closing :: back) =
      (flattenAll front ++ ⟨.openParen, opening⟩ :: flattenAll elements) ++
        ⟨.closeParen, closing⟩ :: flattenAll back := by
    simp [flattenAll_append, flattenAll, flatten]
  rw [whole, List.dropLast_append_of_ne_nil (by simp)]
  simp [inside]

private theorem mem_dropLast_of_earlier {tree : TokenTree} {trees : List TokenTree}
    (member : tree ∈ trees.dropLast) {token : Token} (found : token ∈ tree.flatten) :
    token ∈ (flattenAll trees).dropLast := by
  have nonempty : trees ≠ [] := by
    rintro rfl
    simp at member
  have some : (trees.getLast nonempty).flatten ≠ [] := by
    cases trees.getLast nonempty <;> simp [flatten]
  have earlier := mem_flattenAll.mpr ⟨tree, member, found⟩
  rw [← List.dropLast_concat_getLast nonempty, flattenAll_append,
    List.dropLast_append_of_ne_nil (by simpa [flattenAll] using some)]
  exact List.mem_append_left _ earlier

end TokenTree

namespace Reader

open TokenTree

variable {source : String} {trees : List TokenTree} {tree : TokenTree}

/-- A leaf that has been read is read back from its text, and it is printed as the atom that it has
been read from or else as a closed one. -/
theorem printed_leaf (numbers : tree.node.NumbersReadBack) {atom : Atom} {span : Span}
    (within : (Node.leaf atom span).Within tree.node) :
    ∃ text, ⟨.atom text, span⟩ ∈ tree.flatten ∧ Atom.ofText atom.text = atom ∧
      (atom.text = text ∨ IsClosedAtom atom.text.toList) := by
  obtain ⟨text, rfl, found⟩ := token_of_leaf within rfl rfl
  have back : ∀ value, Atom.ofText text = .number value →
      Number.ofText? (Number.text value) = some value := by
    intro value same
    rw [same] at within
    exact numbers value span within
  exact ⟨text, found, Atom.ofText_text_ofText back, Atom.text_ofText back⟩

private theorem readsBack_node (numbers : tree.node.NumbersReadBack) : tree.node.ReadsBack := by
  intro atom span within
  obtain ⟨text, _, back, _⟩ := printed_leaf numbers within
  exact back

/-- Where every atom of a tree has further tokens behind it, none of them leaves a quoted stretch
open. -/
theorem closed_node (tokens : ofString source = flattenAll trees)
    (numbers : tree.node.NumbersReadBack)
    (earlier : ∀ token ∈ tree.flatten, ∀ text, token.lexeme = .atom text →
      token ∈ (flattenAll trees).dropLast) : tree.node.Closed := by
  intro atom span within
  obtain ⟨text, found, _, same | closed⟩ := printed_leaf numbers within
  · rw [← tokens] at earlier
    rw [same]
    exact isClosedAtom_of_mem_dropLast (earlier _ found text rfl) rfl
  · exact closed

private theorem mayEnd_node (tokens : ofString source = flattenAll trees) (member : tree ∈ trees)
    (numbers : tree.node.NumbersReadBack) : tree.node.MayEnd := by
  cases tree with
  | atom text span =>
    refine .leaf ?_
    obtain ⟨text, found, _, same | closed⟩ := printed_leaf numbers .self
    · have present := mem_flattenAll.mpr ⟨_, member, found⟩
      rw [← tokens] at present
      rw [same]
      exact isAtom_of_mem present rfl
    · exact closed.toIsAtom
  | list opening elements closing =>
    have closed : (list opening elements closing).node.Closed :=
      closed_node tokens numbers fun _ found _ atom => mem_dropLast_of_list member found atom
    exact .closed closed

theorem read_text {node : Node} (ends : node.MayEnd) (back : node.ReadsBack)
    (fits : node.tokenTree.depth ≤ nestingLimit) :
    ∃ again, read (ofString node.text) = (.ok again, []) ∧ again.bare = node.bare := by
  obtain ⟨again, read, same⟩ := read_of_lexemes fits ends.lexemes_text
  exact ⟨again, read, same.trans (Node.bare_tokenTree node back)⟩

theorem readExpression_of_read {node : Node}
    (same : read (ofString source) = (.ok node, [])) : readExpression source = .ok node := by
  rw [readExpression, same]

theorem readExpression_text {node : Node} (ends : node.MayEnd) (back : node.ReadsBack)
    (fits : node.tokenTree.depth ≤ nestingLimit) :
    ∃ again, readExpression node.text = .ok again ∧ again.bare = node.bare := by
  obtain ⟨again, read, same⟩ := read_text ends back fits
  exact ⟨again, readExpression_of_read read, same⟩

theorem readProgram_texts {nodes : List Node} (ends : ∀ node ∈ nodes, node.MayEnd)
    (closed : ∀ node ∈ nodes.dropLast, node.Closed) (back : ∀ node ∈ nodes, node.ReadsBack)
    (fits : deepest (Node.tokenTrees nodes) ≤ nestingLimit) :
    ∃ again, readProgram (" ".intercalate (nodes.map Node.text)) = .ok again ∧
      again.map Node.bare = nodes.map Node.bare := by
  rw [← Node.texts_eq_map]
  obtain ⟨again, read, same⟩ := readAll_of_lexemes fits (Node.lexemes_texts ends closed)
  exact ⟨again, read, same.trans (Node.bare_tokenTrees nodes back)⟩

/-- Printing undoes reading. The texts of the expressions of a program, separated by spaces, are
read as the same expressions up to their places, and the text of an expression at any depth is read
as that expression. This rests on the numbers only, whose digits have to be read back as the same
double. -/
theorem printing_undoes_reading (source : String) (nodes : List Node)
    (same : readProgram source = .ok nodes) (numbers : ∀ node ∈ nodes, node.NumbersReadBack) :
    (∃ again, readProgram (" ".intercalate (nodes.map Node.text)) = .ok again ∧
      again.map Node.bare = nodes.map Node.bare) ∧
    ∀ node : Node, node.Among nodes →
      ∃ again, readExpression node.text = .ok again ∧ again.bare = node.bare := by
  obtain ⟨trees, fits, tokens, rfl⟩ := flattenAll_of_readAll same
  rw [← deepest_tokenTrees_nodes] at fits
  rw [List.reverse_nil, List.nil_append, nodes_eq_map] at *
  have numbers := List.forall_mem_map.mp numbers
  have ends : ∀ node ∈ trees.map TokenTree.node, node.MayEnd :=
    List.forall_mem_map.mpr fun tree member => mayEnd_node tokens member (numbers tree member)
  have back : ∀ node ∈ trees.map TokenTree.node, node.ReadsBack :=
    List.forall_mem_map.mpr fun tree member => readsBack_node (numbers tree member)
  have closed : ∀ node ∈ (trees.map TokenTree.node).dropLast, node.Closed := by
    rw [← List.map_dropLast]
    refine List.forall_mem_map.mpr fun tree member => ?_
    have present := (List.dropLast_sublist _).mem member
    exact closed_node tokens (numbers tree present) fun _ found _ _ =>
      mem_dropLast_of_earlier member found
  refine ⟨readProgram_texts ends closed back fits, fun node among => ?_⟩
  obtain ⟨outer, member, within⟩ := among
  have shallow := depth_le_of_within within
  have bound := depth_le_deepest (List.mem_map_of_mem (f := Node.tokenTree) member)
  rw [← Node.tokenTrees_eq_map] at bound
  refine readExpression_text ((ends outer member).of_within within)
    ((back outer member).of_within within) ?_
  omega

/-- A string with quotes inside, a symbol with a quoted stretch, a symbol with a comment inside, a
spelled-out truth value, a number with a redundant digit, and an atom that the text ends in. -/
theorem printing_undoes_reading_example :
    let value := Number.Literal.value (.decimal false 150 (-2))
    let nodes : List Node :=
      [.list [.leaf (.symbol "f") ⟨1, 2⟩, .leaf (.string "x\"y\" z") ⟨3, 11⟩,
          .leaf (.symbol "a\"( ;\"b") ⟨12, 19⟩, .leaf (.symbol "pq") ⟨20, 28⟩,
          .leaf (.boolean true) ⟨29, 33⟩, .leaf (.number value) ⟨34, 38⟩] ⟨0, 39⟩,
        .leaf (.symbol "\"open (") ⟨40, 47⟩]
    readProgram "(f \"x\"y\" z\" a\"( ;\"b p;note\nq true 1.50) \"open (" = .ok nodes ∧
      (∃ again, readProgram "(f \"x\"y\" z\" a\"( ;\"b pq t 1.5) \"open (" = .ok again ∧
        again.map Node.bare = nodes.map Node.bare) ∧
      ∃ again, readExpression "1.5" = .ok again ∧ again.bare = .leaf (.number value) ⟨0, 0⟩ := by
  intro value nodes
  have tokens : ofString "(f \"x\"y\" z\" a\"( ;\"b p;note\nq true 1.50) \"open (" =
      [⟨.openParen, ⟨0, 1⟩⟩, ⟨.atom "f", ⟨1, 2⟩⟩, ⟨.atom "\"x\"y\" z\"", ⟨3, 11⟩⟩,
        ⟨.atom "a\"( ;\"b", ⟨12, 19⟩⟩, ⟨.atom "pq", ⟨20, 28⟩⟩, ⟨.atom "true", ⟨29, 33⟩⟩,
        ⟨.atom "1.50", ⟨34, 38⟩⟩, ⟨.closeParen, ⟨38, 39⟩⟩, ⟨.atom "\"open (", ⟨40, 47⟩⟩] := by
    rw [ofString, Pass.scan_eq_foldl_step]
    decide +kernel
  have read : readProgram "(f \"x\"y\" z\" a\"( ;\"b p;note\nq true 1.50) \"open (" =
      .ok nodes := by
    rw [readProgram, tokens, readAll_of_ok rfl, readAll_of_ok rfl, readAll]
    rfl
  have back : Number.ofText? (Number.text value) = some value := by decide +kernel
  have numbers : ∀ node ∈ nodes, node.NumbersReadBack := by
    intro node member number span within
    simp only [nodes, List.mem_cons, List.not_mem_nil, or_false] at member
    rcases member with rfl | rfl
    · cases within with
      | element member deeper =>
        simp only [List.mem_cons, List.not_mem_nil, or_false] at member
        rcases member with rfl | rfl | rfl | rfl | rfl | rfl <;> cases deeper
        exact back
    · cases within
  have printed : " ".intercalate (nodes.map Node.text) =
      "(f \"x\"y\" z\" a\"( ;\"b pq t 1.5) \"open (" := by
    decide +kernel
  have text : Number.text value = "1.5" := by decide +kernel
  obtain ⟨whole, each⟩ := printing_undoes_reading _ nodes read numbers
  rw [printed] at whole
  refine ⟨read, whole, ?_⟩
  have inner := each (.leaf (.number value) ⟨34, 38⟩) ⟨_, List.mem_cons_self, .of_mem (by simp)⟩
  rw [Node.text, Atom.text, text] at inner
  exact inner

end Reader

end EagerLisp
