import EagerLisp.Proofs.Node.Program
import EagerLisp.Proofs.Token.Piece

namespace EagerLisp

/-- The same stretch in a text that begins so many bytes further on. -/
def Span.back (distance : Nat) (span : Span) : Span :=
  ⟨span.start - distance, span.stop - distance⟩

/-- The stretch of the source is this piece of it. -/
def Span.Cuts (span : Span) (source piece : String) : Prop :=
  ∃ front back, source = front ++ piece ++ back ∧ front.utf8ByteSize = span.start ∧
    (front ++ piece).utf8ByteSize = span.stop

private theorem Span.hull_back (distance : Nat) (first second : Span) :
    (first.back distance).hull (second.back distance) = (first.hull second).back distance := by
  simp only [hull, back, Nat.sub_min_sub_right, Nat.sub_max_sub_right]

namespace Node

mutual
/-- The same expression in a text that begins so many bytes further on. -/
def back (distance : Nat) : Node → Node
  | .leaf atom span => .leaf atom (span.back distance)
  | .list elements span => .list (backAll distance elements) (span.back distance)

def backAll (distance : Nat) : List Node → List Node
  | [] => []
  | node :: rest => back distance node :: backAll distance rest
end

/-- The expression stands in the source, the elements of a list strictly inside it and one behind
the other, and the piece that it stands on reads as that expression. -/
structure StandsIn (source : String) (node : Node) : Prop where
  some : node.span.start < node.span.stop
  bounded : node.span.stop ≤ source.utf8ByteSize
  starts : String.Pos.Raw.IsValid source ⟨node.span.start⟩
  stops : String.Pos.Raw.IsValid source ⟨node.span.stop⟩
  inside : ∀ elements span, node = .list elements span →
    ∀ element ∈ elements, span.start < element.span.start ∧ element.span.stop < span.stop
  apart : ∀ elements span, node = .list elements span →
    elements.Pairwise fun earlier later => earlier.span.stop ≤ later.span.start
  alone : ∃ piece, node.span.Cuts source piece ∧
    Reader.readExpression piece = .ok (node.back node.span.start)

end Node

namespace Token

/-- The same token in a text that begins so many bytes further on. -/
def back (distance : Nat) (token : Token) : Token :=
  ⟨token.lexeme, token.span.back distance⟩

private theorem back_shift (distance : Nat) (token : Token) :
    (token.shift distance).back distance = token := by
  simp [back, shift, Span.back]

/-- The tokens take up some of the text, one behind the other. -/
structure Apart (tokens : List Token) : Prop where
  some : ∀ token ∈ tokens, token.span.start < token.span.stop
  behind : tokens.Pairwise fun earlier later => earlier.span.stop ≤ later.span.start

private theorem apart_ofString (source : String) : Apart (ofString source) :=
  ⟨fun _ => start_lt_stop_of_mem, ofString_ordered source⟩

theorem Apart.sublist {tokens others : List Token} (apart : Apart tokens)
    (sub : others.Sublist tokens) : Apart others :=
  ⟨fun token member => apart.some token (sub.mem member), apart.behind.sublist sub⟩

end Token

namespace TokenTree

open Token (Apart)

mutual
/-- The same tree in a text that begins so many bytes further on. -/
def back (distance : Nat) : TokenTree → TokenTree
  | .atom text span => .atom text (span.back distance)
  | .list opening elements closing =>
    .list (opening.back distance) (backAll distance elements) (closing.back distance)

def backAll (distance : Nat) : List TokenTree → List TokenTree
  | [] => []
  | tree :: rest => back distance tree :: backAll distance rest
end

mutual
theorem flatten_back (distance : Nat) (tree : TokenTree) :
    (tree.back distance).flatten = tree.flatten.map (Token.back distance) := by
  cases tree with
  | atom text span => rfl
  | list opening elements closing =>
    have inner := flattenAll_back distance elements
    simp [back, flatten, inner, Token.back]

theorem flattenAll_back (distance : Nat) (trees : List TokenTree) :
    flattenAll (backAll distance trees) = (flattenAll trees).map (Token.back distance) := by
  cases trees with
  | nil => rfl
  | cons tree rest =>
    simp [backAll, flattenAll, flatten_back distance tree, flattenAll_back distance rest]
end

mutual
theorem depth_back (distance : Nat) (tree : TokenTree) :
    (tree.back distance).depth = tree.depth := by
  cases tree with
  | atom text span => rfl
  | list opening elements closing => simp [back, depth, deepest_back distance elements]

theorem deepest_back (distance : Nat) (trees : List TokenTree) :
    deepest (backAll distance trees) = deepest trees := by
  cases trees with
  | nil => rfl
  | cons tree rest =>
    simp [backAll, deepest, depth_back distance tree, deepest_back distance rest]
end

mutual
theorem node_back (distance : Nat) (tree : TokenTree) :
    (tree.back distance).node = tree.node.back distance := by
  cases tree with
  | atom text span => rfl
  | list opening elements closing =>
    have inner := nodes_back distance elements
    simp only [nodes] at inner
    simp [back, nodeBy, Node.back, Span.hull_back, inner]

theorem nodes_back (distance : Nat) (trees : List TokenTree) :
    nodes (backAll distance trees) = Node.backAll distance (nodes trees) := by
  cases trees with
  | nil => rfl
  | cons tree rest =>
    have first := node_back distance tree
    have others := nodes_back distance rest
    simp only [node, nodes] at first others
    simp [backAll, nodesBy, Node.backAll, first, others]
end

mutual
/-- An expression inside one that was read is that of a tree whose tokens stand together among the
tokens of the whole. -/
theorem exists_subtree (tree : TokenTree) {inner : Node} (within : inner.Within tree.node) :
    ∃ (sub : TokenTree) (pre post : List Token),
      tree.flatten = pre ++ sub.flatten ++ post ∧ inner = sub.node ∧ sub.depth ≤ tree.depth := by
  cases tree with
  | atom text span =>
    cases within with
    | self => exact ⟨.atom text span, [], [], by simp, rfl, Nat.le_refl _⟩
  | list opening elements closing =>
    cases within with
    | self => exact ⟨.list opening elements closing, [], [], by simp, rfl, Nat.le_refl _⟩
    | element member deeper =>
      obtain ⟨sub, pre, post, whole, same, bound⟩ := exists_subtree_among elements
        ⟨_, member, deeper⟩
      refine ⟨sub, ⟨.openParen, opening⟩ :: pre, post ++ [⟨.closeParen, closing⟩], ?_, same, ?_⟩
      · simp [flatten, whole]
      · rw [depth]
        omega

theorem exists_subtree_among (trees : List TokenTree) {inner : Node}
    (among : inner.Among (nodes trees)) :
    ∃ (sub : TokenTree) (pre post : List Token),
      flattenAll trees = pre ++ sub.flatten ++ post ∧ inner = sub.node ∧
        sub.depth ≤ deepest trees := by
  obtain ⟨node, member, deeper⟩ := among
  cases trees with
  | nil => cases member
  | cons tree rest =>
    rcases List.mem_cons.mp member with same | later
    · subst same
      obtain ⟨sub, pre, post, whole, same, bound⟩ := exists_subtree tree deeper
      refine ⟨sub, pre, post ++ flattenAll rest, by simp [flattenAll, whole], same, ?_⟩
      rw [deepest]
      omega
    · obtain ⟨sub, pre, post, whole, same, bound⟩ := exists_subtree_among rest
        ⟨node, later, deeper⟩
      refine ⟨sub, tree.flatten ++ pre, post, by simp [flattenAll, whole], same, ?_⟩
      rw [deepest]
      omega
end

section Lists

variable {opening closing : Span} {trees : List TokenTree}
  (apart : Apart (TokenTree.list opening trees closing).flatten)

include apart

theorem opening_before_closing : opening.start < opening.stop ∧ opening.stop ≤ closing.start ∧
    closing.start < closing.stop := by
  have ordered := apart.behind
  rw [flatten, List.pairwise_cons] at ordered
  refine ⟨?_, ?_, ?_⟩
  · exact apart.some ⟨.openParen, opening⟩ (by simp [flatten])
  · exact ordered.1 ⟨.closeParen, closing⟩ (by simp)
  · exact apart.some ⟨.closeParen, closing⟩ (by simp [flatten])

theorem hull_eq_upTo : opening.hull closing = opening.upTo closing := by
  obtain ⟨first, between, last⟩ := opening_before_closing apart
  exact Span.hull_of_ordered (by omega) (by omega)

end Lists

/-- A tree has a first and a last token. Where tokens stand apart, its expression stands from the
one to the other and takes up some of the text. -/
theorem exists_ends (tree : TokenTree) : ∃ first tail inner last,
    tree.flatten = first :: tail ∧ tree.flatten = inner ++ [last] ∧
      (Apart tree.flatten → tree.node.span = first.span.upTo last.span ∧
        first.span.start < last.span.stop) := by
  cases tree with
  | atom text span =>
    exact ⟨_, [], [], _, rfl, rfl, fun apart => ⟨rfl, apart.some _ List.mem_cons_self⟩⟩
  | list opening elements closing =>
    refine ⟨_, _, ⟨.openParen, opening⟩ :: flattenAll elements, _, rfl, rfl, fun apart => ?_⟩
    obtain ⟨first, between, last⟩ := opening_before_closing apart
    exact ⟨hull_eq_upTo apart, by simp only; omega⟩

theorem flatten_sublist {tree : TokenTree} {trees : List TokenTree} (member : tree ∈ trees) :
    tree.flatten.Sublist (flattenAll trees) := by
  induction trees with
  | nil => cases member
  | cons first rest ih =>
    rw [flattenAll]
    rcases List.mem_cons.mp member with rfl | later
    · exact List.sublist_append_left _ _
    · exact (ih later).trans (List.sublist_append_right _ _)

theorem exists_span (tree : TokenTree) (apart : Apart tree.flatten) :
    ∃ first ∈ tree.flatten, ∃ last ∈ tree.flatten,
      tree.node.span = first.span.upTo last.span := by
  obtain ⟨first, tail, inner, last, begins, ends, span⟩ := tree.exists_ends
  exact ⟨first, by simp [begins], last, by simp [ends], (span apart).1⟩

private theorem elements_inside {opening closing : Span} {trees : List TokenTree}
    (apart : Apart (TokenTree.list opening trees closing).flatten) {element : Node}
    (member : element ∈ nodes trees) :
    opening.start < element.span.start ∧ element.span.stop < closing.stop := by
  rw [nodes_eq_map] at member
  obtain ⟨tree, present, rfl⟩ := List.mem_map.mp member
  have sub := flatten_sublist present
  have inner : (flattenAll trees).Sublist (TokenTree.list opening trees closing).flatten :=
    (List.sublist_append_left _ _).trans (List.sublist_cons_self _ _)
  obtain ⟨first, begins, last, ends, span⟩ := tree.exists_span (apart.sublist (sub.trans inner))
  have ordered := apart.behind
  rw [flatten, List.pairwise_cons, List.pairwise_append] at ordered
  obtain ⟨before, _, _, after⟩ := ordered
  have left := before first (by simp [sub.mem begins])
  have right := after last (sub.mem ends) ⟨.closeParen, closing⟩ (by simp)
  obtain ⟨wide, _, broad⟩ := opening_before_closing apart
  rw [span]
  simp only [Span.upTo] at left right ⊢
  omega

private theorem elements_apart {trees : List TokenTree} (apart : Apart (flattenAll trees)) :
    (nodes trees).Pairwise fun earlier later => earlier.span.stop ≤ later.span.start := by
  induction trees with
  | nil => exact .nil
  | cons tree rest ih =>
    have ordered := apart.behind
    rw [flattenAll, List.pairwise_append] at ordered
    obtain ⟨_, _, across⟩ := ordered
    refine List.pairwise_cons.mpr ⟨fun other member => ?_, ih ?_⟩
    · rw [← nodes, nodes_eq_map] at member
      obtain ⟨later, present, rfl⟩ := List.mem_map.mp member
      have here : (tree.flatten).Sublist (flattenAll (tree :: rest)) :=
        flatten_sublist List.mem_cons_self
      have there := flatten_sublist (List.mem_cons_of_mem tree present)
      obtain ⟨_, _, last, ends, first⟩ := tree.exists_span (apart.sublist here)
      obtain ⟨begun, begins, _, _, second⟩ := later.exists_span (apart.sublist there)
      have behind := across last ends begun ((flatten_sublist present).mem begins)
      simp only [node] at first second
      rw [first, second]
      exact behind
    · exact apart.sublist (List.sublist_append_right _ _)

end TokenTree

namespace Reader

open TokenTree
open Token (Apart ofString)

/-- A tree whose tokens stand together in a text is read from the piece between them. -/
theorem exists_piece_of_tree {source : String} {tree : TokenTree} {pre post : List Token}
    (whole : ofString source = pre ++ tree.flatten ++ post) (fits : tree.depth ≤ nestingLimit)
    (apart : Apart tree.flatten) :
    ∃ piece, tree.node.span.Cuts source piece ∧
      readExpression piece = .ok (tree.node.back tree.node.span.start) := by
  obtain ⟨first, tail, inner, last, begins, ends, span⟩ := tree.exists_ends
  obtain ⟨span, wide⟩ := span apart
  obtain ⟨front, piece, back, cut, begun, ended, moved⟩ :=
    Token.exists_piece whole begins ends wide
  have tokens : ofString (String.ofList piece) = (tree.back first.span.start).flatten := by
    rw [flatten_back, moved, List.map_map, ofString, String.toList_ofList]
    simp [Function.comp_def, Token.back_shift]
  have read : Reader.read ((tree.back first.span.start).flatten ++ []) = _ :=
    read_flatten (by rwa [depth_back]) []
  rw [List.append_nil, ← tokens, node_back] at read
  rw [span]
  refine ⟨String.ofList piece, ⟨String.ofList front, String.ofList back, ?_, ?_, ?_⟩, ?_⟩
  · rw [← String.ofList_append, ← String.ofList_append, ← cut, String.ofList_toList]
  · rw [← Token.byteLength_eq_utf8ByteSize, begun]
    rfl
  · rw [← String.ofList_append, ← Token.byteLength_eq_utf8ByteSize, ended]
    rfl
  · rw [readExpression, read]
    rfl

/-- Every expression of a program, at any depth, stands in the text on a piece that is read as that
expression by itself. -/
theorem readProgram_pieces (source : String) (nodes : List Node)
    (same : readProgram source = .ok nodes) (node : Node) (among : node.Among nodes) :
    node.StandsIn source := by
  obtain ⟨trees, fits, tokens, rfl⟩ := flattenAll_of_readAll same
  obtain ⟨tree, pre, post, whole, rfl, bound⟩ := exists_subtree_among trees among
  rw [whole] at tokens
  have apart : Apart tree.flatten := by
    refine (Token.apart_ofString source).sublist ?_
    rw [tokens]
    exact (List.sublist_append_right _ _).trans (List.sublist_append_left _ _)
  obtain ⟨first, _, _, last, _, _, span⟩ := tree.exists_ends
  obtain ⟨span, wide⟩ := span apart
  obtain ⟨piece, cuts, alone⟩ := exists_piece_of_tree tokens (Nat.le_trans bound fits) apart
  obtain ⟨front, back, split, begun, ended⟩ := id cuts
  refine ⟨?_, ?_, ?_, ?_, ?_, ?_, piece, cuts, alone⟩
  · rw [span]
    exact wide
  · have whole := congrArg String.utf8ByteSize split
    rw [String.utf8ByteSize_append, ended] at whole
    omega
  · refine String.Pos.Raw.isValid_iff_exists_append.mpr ⟨front, piece ++ back, ?_, ?_⟩
    · rw [split, String.append_assoc]
    · rw [String.Pos.Raw.ext_iff, String.byteIdx_rawEndPos, begun]
  · refine String.Pos.Raw.isValid_iff_exists_append.mpr ⟨front ++ piece, back, split, ?_⟩
    rw [String.Pos.Raw.ext_iff, String.byteIdx_rawEndPos, ended]
  · intro elements place list element member
    cases tree with
    | atom text span => cases list
    | list opening trees closing =>
      cases list
      rw [hull_eq_upTo apart]
      exact elements_inside apart member
  · intro elements place list
    cases tree with
    | atom text span => cases list
    | list opening trees closing =>
      cases list
      refine elements_apart (apart.sublist ?_)
      exact (List.sublist_append_left _ _).trans (List.sublist_cons_self _ _)

/-- A comment in front of a program, one inside an atom, and a list inside a list. -/
theorem readProgram_pieces_with_comments :
    let source := "; c (\n(f é;x\n (g h))"
    let atom : Node := .leaf (.ofText "é") ⟨9, 14⟩
    let inner : Node := .list [.leaf (.ofText "g") ⟨16, 17⟩, .leaf (.ofText "h") ⟨18, 19⟩] ⟨15, 20⟩
    let outer : Node := .list [.leaf (.ofText "f") ⟨7, 8⟩, atom, inner] ⟨6, 21⟩
    readProgram source = .ok [outer] ∧ outer.StandsIn source ∧ atom.StandsIn source ∧
      inner.StandsIn source := by
  intro source atom inner outer
  have tokens : ofString source = [⟨.openParen, ⟨6, 7⟩⟩, ⟨.atom "f", ⟨7, 8⟩⟩,
      ⟨.atom "é", ⟨9, 14⟩⟩, ⟨.openParen, ⟨15, 16⟩⟩, ⟨.atom "g", ⟨16, 17⟩⟩, ⟨.atom "h", ⟨18, 19⟩⟩,
      ⟨.closeParen, ⟨19, 20⟩⟩, ⟨.closeParen, ⟨20, 21⟩⟩] := by
    rw [ofString, Token.Pass.scan_eq_foldl_step]
    decide +kernel
  have same : readProgram source = .ok [outer] := by
    have first : Reader.read (ofString source) = (.ok outer, []) := by
      rw [tokens]
      rfl
    rw [tokens] at first
    rw [readProgram, tokens, readAll_of_ok first, readAll]
    rfl
  refine ⟨same, ?_, ?_, ?_⟩
  · exact readProgram_pieces source [outer] same outer (.of_mem (by simp))
  · exact readProgram_pieces source [outer] same atom ⟨outer, by simp, .of_mem (by simp)⟩
  · exact readProgram_pieces source [outer] same inner ⟨outer, by simp, .of_mem (by simp)⟩

end Reader
end EagerLisp
